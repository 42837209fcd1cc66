import Haml.Proofs.Writing
import Mathlib.Data.List.DropRight

/-!
# The buffer as a list of chunks

What a buffer shows is what a plainer machine shows, one that keeps its output as a list of
chunks and the text that came since the last of them as one open chunk. No chunk is empty, none
is changed once it is closed, and all are handed over once and in order.
-/

namespace Haml

inductive Operation where
  | append (t : Text)
  | write (code : Text)
  | flush
  | trim
  | take
  deriving DecidableEq, Repr

namespace Operation

/-- What a machine hands over while it carries operations out, and its state behind them. -/
def run {σ α : Type} (step : σ → Operation → Option α × σ) (s : σ) :
    List Operation → List α × σ
  | [] => ([], s)
  | o :: os =>
    let r := run step (step s o).2 os
    ((step s o).1.toList ++ r.1, r.2)

theorem run_append {σ α : Type} (step : σ → Operation → Option α × σ) (s : σ)
    (os more : List Operation) :
    run step s (os ++ more) =
      ((run step s os).1 ++ (run step (run step s os).2 more).1,
        (run step (run step s os).2 more).2) := by
  induction os generalizing s with
  | nil => rfl
  | cons o os ih => simp [run, ih]

/-- Operations that do the same in every state may stand for each other. -/
theorem run_exchange {σ α : Type} {step : σ → Operation → Option α × σ} {xs ys : List Operation}
    (h : ∀ s, run step s xs = run step s ys) (s : σ) (os more : List Operation) :
    run step s (os ++ xs ++ more) = run step s (os ++ ys ++ more) := by
  simp only [run_append, h]

def kept : Operation → Operation
  | .take => .flush
  | o => o

end Operation

/-- Carries an operation out; only `take` hands text over. -/
def Buffer.step (b : Buffer) : Operation → Option Text × Buffer
  | .append t => (none, b.append t)
  | .write code => (none, b.write code)
  | .flush => (none, b.flush)
  | .trim => (none, b.trim)
  | .take => (some b.take.1, b.take.2)

/-- A closed piece of output; none is empty. -/
inductive Chunk where
  | literal (t : Text) (nonempty : t ≠ [])
  | code (c : Text) (nonempty : c ≠ [])
  deriving DecidableEq, Repr

namespace Chunk

def toCode (render : Text → Text) : Chunk → Text
  | .literal t _ => render t
  | .code c _ => c

def allCode (render : Text → Text) (cs : List Chunk) : Text := cs.flatMap (toCode render)

def ofLiteral (t : Text) : List Chunk := if h : t = [] then [] else [.literal t h]

def ofCode (c : Text) : List Chunk := if h : c = [] then [] else [.code c h]

end Chunk

/-- The closed chunks of an output, and the text of the one that is still open. -/
structure Chunks where
  closed : List Chunk := []
  openText : Text := []
  deriving DecidableEq, Repr

namespace Chunks

def all (s : Chunks) : List Chunk := s.closed ++ Chunk.ofLiteral s.openText

def step (s : Chunks) : Operation → Option (List Chunk) × Chunks
  | .append t => (none, { s with openText := s.openText ++ t })
  | .write [] => (none, s)
  | .write (c :: code) => (none, { closed := s.all ++ Chunk.ofCode (c :: code) })
  | .flush => (none, { closed := s.all })
  | .trim =>
    (none, { s with openText := s.openText.rdropWhile (· ∈ [' ', '\t', '\n', '\r']) })
  | .take => (some s.all, {})

/-- The buffer holds what the chunks stand for. -/
structure Holds (render : Text → Text) (s : Chunks) (b : Buffer) : Prop where
  render_eq : b.render = render
  pending_eq : b.pending = s.openText
  output_eq : b.output = Chunk.allCode render s.closed

end Chunks

namespace Chunk

variable (render : Text → Text)

@[simp] theorem allCode_append (cs ds : List Chunk) :
    allCode render (cs ++ ds) = allCode render cs ++ allCode render ds :=
  List.flatMap_append

theorem allCode_flatten (css : List (List Chunk)) :
    allCode render css.flatten = (css.map (allCode render)).flatten := by
  induction css with
  | nil => rfl
  | cons cs css ih => simp [ih]

theorem allCode_ofLiteral (t : Text) :
    allCode render (ofLiteral t) = if t.isEmpty then [] else render t := by
  by_cases h : t = [] <;> simp [ofLiteral, allCode, toCode, h]

theorem allCode_ofCode (c : Text) : allCode render (ofCode c) = c := by
  by_cases h : c = [] <;> simp [ofCode, allCode, toCode, h]

end Chunk

/-- The white space that is trimmed is exactly that of the reference. -/
theorem Text.dropEndWhile_white (t : Text) :
    dropEndWhile (fun c => isIndent c || isLineBreak c) t =
      t.rdropWhile (· ∈ [' ', '\t', '\n', '\r']) := by
  have hwhite : (fun c => isIndent c || isLineBreak c) =
      fun c => decide (c ∈ [' ', '\t', '\n', '\r']) := by
    funext c
    rw [Bool.eq_iff_iff]
    simp [isIndent, isLineBreak, or_assoc]
  rw [hwhite, dropEndWhile, List.rdropWhile]

namespace Buffer

variable (b : Buffer)

theorem flush_flush : b.flush.flush = b.flush := by
  have hempty : b.flush.pendingBack = [] := by simpa [pending] using pending_flush b
  rw [flush.eq_def b.flush, hempty]
  rfl

end Buffer

namespace Chunks

variable {render : Text → Text} {s : Chunks} {b : Buffer}

theorem Holds.output_flush (h : Holds render s b) :
    b.flush.output = Chunk.allCode render s.all := by
  rw [Buffer.output_flush, h.render_eq, h.pending_eq, h.output_eq, all, Chunk.allCode_append,
    Chunk.allCode_ofLiteral]
  split <;> simp

/-- One operation: the same is handed over, and the buffer holds the new chunks. -/
theorem Holds.step (h : Holds render s b) (o : Operation) :
    (b.step o).1 = (s.step o).1.map (Chunk.allCode render) ∧
      Holds render (s.step o).2 (b.step o).2 := by
  cases o with
  | append t =>
    refine ⟨rfl, h.render_eq, ?_, h.output_eq⟩
    rw [Buffer.step, Buffer.pending_append, h.pending_eq]
    rfl
  | write code =>
    cases code with
    | nil => exact ⟨rfl, h⟩
    | cons c code =>
      refine ⟨rfl, (Buffer.render_write b _).trans h.render_eq, Buffer.pending_write b _, ?_⟩
      simp only [Buffer.step, Chunks.step]
      rw [Buffer.output_write, Chunk.allCode_append, Chunk.allCode_ofCode, h.output_flush]
      rfl
  | flush =>
    exact ⟨rfl, (Buffer.render_flush b).trans h.render_eq, Buffer.pending_flush b, h.output_flush⟩
  | trim =>
    refine ⟨rfl, h.render_eq, ?_, h.output_eq⟩
    simp only [Buffer.step, Chunks.step]
    rw [Buffer.pending_trim, h.pending_eq, Text.dropEndWhile_white]
  | take =>
    refine ⟨?_, (Buffer.render_flush b).trans h.render_eq, Buffer.pending_take b, rfl⟩
    exact congrArg some h.output_flush

/-- Any operations: the same is handed over, and the buffer holds the chunks at the end. -/
theorem Holds.run (h : Holds render s b) (os : List Operation) :
    (Operation.run Buffer.step b os).1 =
        (Operation.run Chunks.step s os).1.map (Chunk.allCode render) ∧
      Holds render (Operation.run Chunks.step s os).2 (Operation.run Buffer.step b os).2 := by
  induction os generalizing s b with
  | nil => exact ⟨rfl, h⟩
  | cons o os ih =>
    obtain ⟨hgiven, hheld⟩ := h.step o
    obtain ⟨hmore, hend⟩ := ih hheld
    refine ⟨?_, hend⟩
    simp only [Operation.run, hgiven, hmore, List.map_append]
    cases (s.step o).1 <;> rfl

/-- The chunks that are handed over and those that are left are, in this order, the chunks of a
machine that hands nothing over. It may have closed chunks before. -/
theorem run_kept (front : List Chunk) (s : Chunks) (os : List Operation) :
    (Operation.run Chunks.step { s with closed := front ++ s.closed }
        (os.map Operation.kept)).2.closed =
      front ++ ((Operation.run Chunks.step s os).1.flatten ++
        (Operation.run Chunks.step s os).2.closed) := by
  have hall (front : List Chunk) (s : Chunks) :
      ({ s with closed := front ++ s.closed } : Chunks).all = front ++ s.all :=
    List.append_assoc ..
  induction os generalizing front s with
  | nil => rfl
  | cons o os ih =>
    cases o with
    | append t => exact ih front { s with openText := s.openText ++ t }
    | write code =>
      cases code with
      | nil => exact ih front s
      | cons c code =>
        simpa [Operation.run, Operation.kept, step, hall] using
          ih front { closed := s.all ++ Chunk.ofCode (c :: code) }
    | flush =>
      simpa [Operation.run, Operation.kept, step, hall] using ih front { closed := s.all }
    | trim => exact ih front { s with openText := s.openText.rdropWhile _ }
    | take =>
      -- what is handed over moves in front of the chunks that are still to come
      simpa [Operation.run, Operation.kept, step, hall] using ih (front ++ s.all) {}

end Chunks

namespace Buffer

theorem run_appends (b : Buffer) (ts : List Text) :
    Operation.run Buffer.step b (ts.map .append) = ([], b.append ts.flatten) := by
  induction ts generalizing b with
  | nil => rfl
  | cons t ts ih => simp [Operation.run, step, ih]

theorem run_flushes (b : Buffer) (n : Nat) :
    Operation.run Buffer.step b (List.replicate (n + 1) .flush) = ([], b.flush) := by
  induction n generalizing b with
  | zero => rfl
  | succ n ih =>
    rw [List.replicate_succ, Operation.run, step, ih, flush_flush]
    rfl

/-- A buffer behaves as a list of chunks. After any operations it shows the text of the open
chunk and the code of the closed ones, and what it has handed over is the code of the chunks
that the reference machine has handed over. What was handed over and what is left is the output
of the same operations without handing over. Cutting an append into several, or repeating a
flush, changes nothing of all this. -/
theorem run_as_chunks (render : Text → Text) (os : List Operation) :
    let b := Operation.run Buffer.step { render := render } os
    let m := Operation.run Chunks.step {} os
    (b.2.pending = m.2.openText ∧ b.2.output = Chunk.allCode render m.2.closed ∧
      b.1 = m.1.map (Chunk.allCode render)) ∧
    b.1.flatten ++ b.2.output =
      (Operation.run Buffer.step { render := render } (os.map Operation.kept)).2.output ∧
    (∀ (ts : List Text) (more : List Operation),
      Operation.run Buffer.step { render := render } (os ++ ts.map .append ++ more) =
        Operation.run Buffer.step { render := render } (os ++ [.append ts.flatten] ++ more)) ∧
    ∀ (n : Nat) (more : List Operation),
      Operation.run Buffer.step { render := render } (os ++ List.replicate (n + 1) .flush ++ more) =
        Operation.run Buffer.step { render := render } (os ++ [.flush] ++ more) := by
  have hnew : Chunks.Holds render {} { render := render } := ⟨rfl, rfl, rfl⟩
  obtain ⟨hgiven, hheld⟩ := hnew.run os
  refine ⟨⟨hheld.pending_eq, hheld.output_eq, hgiven⟩, ?_, ?_, ?_⟩
  · have hkept := Chunks.run_kept [] {} os
    rw [(hnew.run (os.map Operation.kept)).2.output_eq, hgiven, hheld.output_eq,
      ← Chunk.allCode_flatten, ← Chunk.allCode_append]
    exact congrArg (Chunk.allCode render) hkept.symm
  · exact fun ts => Operation.run_exchange (fun b => run_appends b ts) _ os
  · exact fun n => Operation.run_exchange (fun b => run_flushes b n) _ os

end Buffer

end Haml
