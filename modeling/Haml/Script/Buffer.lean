import Haml.Text.Blank

/-!
# Output buffer

Literal text waits in the buffer until code has to be written; then it is
rendered as code, in one piece, in front of it. Both texts are held last
character first, so that adding to them costs no more than what is added;
`pending` and `output` are the views in which everything else is said.
-/

namespace Haml

structure Buffer where
  /-- The code that writes a literal text out. -/
  render : Text → Text
  /-- Literal text not yet rendered, last character first. -/
  pendingBack : Text := []
  /-- The code written so far, last character first. -/
  outputBack : Text := []

namespace Buffer

def pending (b : Buffer) : Text := b.pendingBack.reverse

def output (b : Buffer) : Text := b.outputBack.reverse

def append (b : Buffer) (t : Text) : Buffer := { b with pendingBack := t.reverseAux b.pendingBack }

def flush (b : Buffer) : Buffer :=
  if b.pendingBack.isEmpty then b
  else
    { b with pendingBack := [], outputBack := (b.render b.pending).reverseAux b.outputBack }

/-- Writes code behind the pending text. Empty code changes nothing. -/
def write (b : Buffer) (code : Text) : Buffer :=
  if code.isEmpty then b
  else { b.flush with outputBack := code.reverseAux b.flush.outputBack }

/-- Drops spaces, tabs and line ends at the end of the pending text. -/
def trim (b : Buffer) : Buffer :=
  { b with pendingBack := b.pendingBack.dropWhile fun c => isIndent c || isLineBreak c }

/-- Hands over all code, that for the pending text included. -/
def take (b : Buffer) : Text × Buffer := (b.flush.output, { b.flush with outputBack := [] })

@[simp] theorem pending_append (b : Buffer) (t : Text) :
    (b.append t).pending = b.pending ++ t := by
  simp [append, pending, List.reverseAux_eq]

@[simp] theorem output_append (b : Buffer) (t : Text) : (b.append t).output = b.output := rfl

@[simp] theorem pending_flush (b : Buffer) : b.flush.pending = [] := by
  by_cases h : b.pendingBack = [] <;> simp [flush, pending, h]

theorem output_flush (b : Buffer) :
    b.flush.output = if b.pending.isEmpty then b.output else b.output ++ b.render b.pending := by
  by_cases h : b.pendingBack = [] <;> simp [flush, pending, output, List.reverseAux_eq, h]

theorem render_flush (b : Buffer) : b.flush.render = b.render := by
  unfold flush
  split <;> rfl

theorem render_write (b : Buffer) (code : Text) : (b.write code).render = b.render := by
  unfold write
  split
  · rfl
  · exact render_flush b

theorem pending_write (b : Buffer) (code : Text) :
    (b.write code).pending = if code.isEmpty then b.pending else [] := by
  by_cases h : code = []
  · simp [write, h]
  · simp only [write, h, List.isEmpty_iff, if_false]
    exact pending_flush b

theorem output_write (b : Buffer) (code : Text) :
    (b.write code).output = if code.isEmpty then b.output else b.flush.output ++ code := by
  by_cases h : code = []
  · simp [write, h]
  · simp [write, output, List.reverseAux_eq, h]

@[simp] theorem pending_trim (b : Buffer) :
    b.trim.pending = Text.dropEndWhile (fun c => isIndent c || isLineBreak c) b.pending := by
  simp [trim, pending, Text.dropEndWhile]

@[simp] theorem output_trim (b : Buffer) : b.trim.output = b.output := rfl

@[simp] theorem pending_take (b : Buffer) : b.take.2.pending = [] := pending_flush b

@[simp] theorem output_take (b : Buffer) : b.take.2.output = [] := rfl

end Buffer

end Haml
