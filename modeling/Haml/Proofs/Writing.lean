import Haml.Script.Writer
import Mathlib.Data.List.Infix

/-!
# What instructions write

Code that has been written is never looked at again, so what a writer adds to it
does not depend on it. Instructions that concern nothing but literal text come
down to one text to be pushed.
-/

namespace Haml

namespace Buffer

/-- The buffer with `code` in front of all the code that it has written. -/
def behind (code : Text) (b : Buffer) : Buffer :=
  { b with outputBack := b.outputBack ++ code.reverse }

@[simp] theorem output_behind (code : Text) (b : Buffer) :
    (b.behind code).output = code ++ b.output := by
  simp [behind, output]

@[simp] theorem append_behind (code : Text) (b : Buffer) (t : Text) :
    (b.behind code).append t = (b.append t).behind code := rfl

@[simp] theorem trim_behind (code : Text) (b : Buffer) :
    (b.behind code).trim = b.trim.behind code := rfl

@[simp] theorem flush_behind (code : Text) (b : Buffer) :
    (b.behind code).flush = b.flush.behind code := by
  by_cases h : b.pendingBack = []
  · simp [flush, behind, h]
  · simp [flush, behind, pending, h, List.reverseAux_eq]

@[simp] theorem write_behind (code : Text) (b : Buffer) (t : Text) :
    (b.behind code).write t = (b.write t).behind code := by
  by_cases h : t = []
  · simp [write, h]
  · simp only [write, List.isEmpty_iff, h, if_false, flush_behind]
    simp [behind, List.reverseAux_eq]

@[simp] theorem append_append (b : Buffer) (s t : Text) :
    (b.append s).append t = b.append (s ++ t) := by
  simp [append, List.reverseAux_eq]

@[simp] theorem append_nil (b : Buffer) : b.append [] = b := rfl

end Buffer

/-- A text in which no expression can start. -/
def Uninterpolated (t : Text) : Prop := ¬['#', '\x7b'] <:+: t

instance (t : Text) : Decidable (Uninterpolated t) := inferInstanceAs (Decidable (¬_))

theorem Piece.splitAfter_of_uninterpolated (before t : Text) (h : Uninterpolated t) :
    splitAfter before t = ofLiteral (before.reverse ++ t) := by
  fun_induction splitAfter before t with
  | case1 before => rw [List.append_nil]
  | case2 before t => exact absurd ⟨[], t, rfl⟩ h
  | case3 before t => exact absurd ⟨[], t, rfl⟩ h
  | case4 before t => exact absurd ⟨[], t, rfl⟩ h
  | case5 before c t _ ih =>
    rw [ih fun hi => h (hi.trans (List.suffix_cons c t).isInfix)]
    simp

theorem Uninterpolated.indented {t : Text} (h : Uninterpolated t) (depth : Nat) :
    Uninterpolated (Text.indentation depth ++ t) := by
  unfold Text.indentation
  induction 2 * depth with
  | zero => exact h
  | succ n ih =>
    intro hi
    rcases List.infix_cons_iff.1 hi with hp | hi
    · exact absurd (List.cons_prefix_cons.1 hp).1 (by decide)
    · exact ih hi

namespace Script

namespace Writer

def behind (code : Text) (w : Writer) : Writer := w.onBuffer (Buffer.behind code)

theorem piece_behind (code : Text) (w : Writer) (point : Point) (p : TextProcessing) (x : Piece) :
    (w.behind code).piece point p x = (w.piece point p x).behind code := by
  cases x <;> simp [piece, behind, onBuffer]

theorem pieces_behind (code : Text) (w : Writer) (point : Point) (p : TextProcessing)
    (xs : List Piece) :
    xs.foldl (fun w x => w.piece point p x) (w.behind code) =
      (xs.foldl (fun w x => w.piece point p x) w).behind code := by
  induction xs generalizing w with
  | nil => rfl
  | cons x xs ih => rw [List.foldl_cons, List.foldl_cons, piece_behind, ih]

theorem apply_behind (code : Text) (w : Writer) (i : Instruction) :
    (w.behind code).apply i = (w.apply i).behind code := by
  cases i with
  | text t interpolate point processing =>
    cases interpolate with
    | true => exact pieces_behind code w point processing _
    | false => simp [apply, behind, onBuffer]
  | closeBlock kind upcoming =>
    simp only [apply, closeBlock]
    split <;> simp [behind, onBuffer]
  | _ => simp [apply, behind, onBuffer]

/-- What is written does not depend on the code written before. -/
theorem run_behind (code : Text) (w : Writer) (is : List Instruction) :
    (w.behind code).run is = (w.run is).behind code := by
  simp only [run]
  induction is generalizing w with
  | nil => rfl
  | cons i is ih => rw [List.foldl_cons, List.foldl_cons, apply_behind, ih]

theorem run_append (w : Writer) (is js : List Instruction) :
    w.run (is ++ js) = (w.run is).run js := List.foldl_append

end Writer

/-- The two modes start the code alike but for the error handler. -/
theorem exists_preamble : ∃ rest : Text,
    preamble false = "  var handleError = haml.HamlRuntime." ++ "_raiseError" ++ rest ∧
      preamble true = "  var handleError = haml.HamlRuntime." ++ "_logError" ++ rest := by
  have hassoc (a b c d e f : Text) :
      a ++ b ++ c ++ d ++ e ++ f = a ++ b ++ (c ++ d ++ e ++ f) := by
    simp
  exact ⟨_, hassoc _ _ _ _ _ _, hassoc _ _ _ _ _ _⟩

/-- The mode of a template shows in nothing but the start of its code. -/
theorem body_start (tolerant : Bool) (is : List Instruction) :
    body (.start tolerant :: is) = preamble tolerant ++ body is := by
  have hne : (preamble tolerant).isEmpty = false := by cases tolerant <;> rfl
  have hstart : ({} : Writer).apply (.start tolerant) =
      ({} : Writer).behind (preamble tolerant) := by
    simp only [Writer.apply, Writer.onBuffer, Writer.behind, Buffer.write, hne]
    simp [Buffer.flush, Buffer.behind, List.reverseAux_eq]
  simp only [body, Writer.run, List.foldl_cons, hstart]
  rw [← Writer.run, Writer.run_behind]
  simp [Writer.behind, Writer.onBuffer, Writer.run]

/-- The instructions do nothing but add a literal text to what is pending. -/
def Writes (is : List Instruction) (t : Text) : Prop :=
  ∀ w : Writer, (w.run is).buffer = w.buffer.append t

theorem Writes.nil : Writes [] [] := fun _ => rfl

theorem Writes.append {is js : List Instruction} {s t : Text} (hi : Writes is s)
    (hj : Writes js t) : Writes (is ++ js) (s ++ t) := by
  intro w
  rw [Writer.run_append, hj, hi, Buffer.append_append]

theorem Writes.cons {i : Instruction} {is : List Instruction} {s t : Text} (hi : Writes [i] s)
    (his : Writes is t) : Writes (i :: is) (s ++ t) := hi.append his

theorem writes_markup (t : Text) : Writes [.markup t] t := fun _ => rfl

theorem writes_markups (ts : List Text) : Writes (ts.map .markup) ts.flatten := by
  induction ts with
  | nil => exact .nil
  | cons t ts ih => exact (writes_markup t).cons ih

theorem writes_depth (depth : Nat) : Writes [.depth depth] [] := fun _ => rfl

theorem writes_text {t : Text} (h : Uninterpolated t) (point : Point) :
    Writes [.text t true point .verbatim] t := by
  intro w
  simp only [Writer.run, List.foldl_cons, List.foldl_nil, Writer.apply, Piece.split,
    Piece.splitAfter_of_uninterpolated [] t h, List.reverse_nil, List.nil_append]
  by_cases ht : t = []
  · simp [ht, Piece.ofLiteral]
  · simp [ht, Piece.ofLiteral, Writer.piece, Writer.onBuffer, TextProcessing.apply]

/-- The code that pushes a literal text; there is none for the empty text. -/
def literalCode (t : Text) : Text := if t.isEmpty then [] else pushLiteral t

/-- A template of nothing but literal text is one push between the start and the
end of its code. -/
theorem body_of_writes {is : List Instruction} {t : Text} (h : Writes is t) (tolerant : Bool) :
    body (.start tolerant :: is ++ [.finish]) =
      preamble tolerant ++ literalCode t ++ epilogue := by
  have hfinish : (({} : Writer).run (is ++ [.finish])).buffer =
      (({} : Writer).buffer.append t).write epilogue := by
    rw [Writer.run_append]
    simp only [Writer.run, List.foldl_cons, List.foldl_nil, Writer.apply, Writer.onBuffer]
    rw [← Writer.run, h]
  have hne : epilogue.isEmpty = false := by decide
  rw [List.cons_append, body_start, body, hfinish, Buffer.output_write, hne,
    Buffer.output_flush, Buffer.pending_append, List.append_assoc]
  simp [literalCode, Buffer.pending, Buffer.output, Buffer.append]

end Script

end Haml
