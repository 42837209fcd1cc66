import Haml.Proofs.BufferChunks

/-!
# The output as a row of signs

Instructions come down to three strokes: text is appended, code is written, white space at the
end is taken away. Where it does not matter what the code says, the output is a row of signs,
each a character of literal text or a place of code, and every stroke is a change at its end.
-/

namespace Haml

def isWhite (c : Char) : Bool := isIndent c || isLineBreak c

inductive Sign where
  | char (c : Char)
  | code
  deriving DecidableEq, Repr

def Sign.isWhite : Sign → Bool
  | .char c => Haml.isWhite c
  | .code => false

def Text.signs (t : Text) : List Sign := t.map .char

@[simp] theorem Text.signs_append (s t : Text) : Text.signs (s ++ t) = s.signs ++ t.signs :=
  List.map_append

def Chunk.signs : Chunk → List Sign
  | .literal t _ => t.signs
  | .code _ _ => [.code]

@[simp] theorem Chunk.signs_ofLiteral (t : Text) :
    (Chunk.ofLiteral t).flatMap Chunk.signs = t.signs := by
  by_cases h : t = [] <;> simp [ofLiteral, signs, h, Text.signs]

namespace Sign

def trim (s : List Sign) : List Sign := s.rdropWhile isWhite

def startsWhite (s : List Sign) : Bool := s.head?.any isWhite

def endsWhite (s : List Sign) : Bool := s.getLast?.any isWhite

/-- A row of signs that ends in a visible character. -/
theorem endsWhite_append {c : Char} (hc : Haml.isWhite c = false) (s : List Sign) (t : Text) :
    endsWhite (s ++ Text.signs (t ++ [c])) = false := by
  simp [endsWhite, Text.signs, isWhite, hc]

theorem endsWhite_trim (s : List Sign) : endsWhite (trim s) = false := by
  rw [endsWhite]
  cases h : (trim s).getLast? with
  | none => rfl
  | some g =>
    have hne : trim s ≠ [] := by
      intro hnil
      rw [hnil] at h
      cases h
    rw [List.getLast?_eq_some_getLast hne] at h
    cases h
    have hlast := List.rdropWhile_last_not isWhite s hne
    simpa [trim] using hlast

theorem trim_of_not_endsWhite {s : List Sign} (h : endsWhite s = false) : trim s = s := by
  rw [trim, List.rdropWhile_eq_self_iff]
  intro hne
  rw [endsWhite, List.getLast?_eq_some_getLast hne] at h
  simpa using h

/-- White space is taken away no further than to a sign that is not white. -/
theorem trim_append {s : List Sign} (h : endsWhite s = false) (x : List Sign) :
    trim (s ++ x) = s ++ trim x := by
  induction x using List.reverseRecOn with
  | nil => rw [List.append_nil, trim_of_not_endsWhite h, trim, List.rdropWhile_nil, List.append_nil]
  | append_singleton x g ih =>
    rw [trim, trim] at ih ⊢
    rw [← List.append_assoc, List.rdropWhile_concat, List.rdropWhile_concat]
    by_cases hg : isWhite g = true
    · simpa [hg] using ih
    · simp [hg]

theorem trim_signs (t : Text) :
    trim t.signs = Text.signs (t.rdropWhile (· ∈ [' ', '\t', '\n', '\r'])) := by
  have hwhite : isWhite ∘ Sign.char = fun c => isIndent c || isLineBreak c := rfl
  rw [← Text.dropEndWhile_white, trim, List.rdropWhile, Text.signs, ← List.map_reverse,
    List.dropWhile_map, hwhite, ← List.map_reverse]
  rfl

end Sign

/-- What an instruction does to the end of the output. -/
inductive Stroke where
  | append (t : Text)
  | write (code : Text)
  | trim
  deriving DecidableEq, Repr

namespace Stroke

def operation : Stroke → Operation
  | .append t => .append t
  | .write code => .write code
  | .trim => .trim

def draw (s : List Sign) : Stroke → List Sign
  | .append t => s ++ t.signs
  | .write code => if code.isEmpty then s else s ++ [.code]
  | .trim => Sign.trim s

def drawAll (s : List Sign) (ks : List Stroke) : List Sign := ks.foldl draw s

@[simp] theorem drawAll_nil (s : List Sign) : drawAll s [] = s := rfl

@[simp] theorem drawAll_cons (s : List Sign) (k : Stroke) (ks : List Stroke) :
    drawAll s (k :: ks) = drawAll (k.draw s) ks := rfl

@[simp] theorem drawAll_append (s : List Sign) (ks more : List Stroke) :
    drawAll s (ks ++ more) = drawAll (drawAll s ks) more := List.foldl_append

/-- What ends in a sign that is not white is not touched any more. -/
theorem drawAll_behind {s : List Sign} (h : Sign.endsWhite s = false) (x : List Sign)
    (ks : List Stroke) : drawAll (s ++ x) ks = s ++ drawAll x ks := by
  have hdraw (x : List Sign) (k : Stroke) : draw (s ++ x) k = s ++ draw x k := by
    cases k with
    | append t => exact List.append_assoc ..
    | write code =>
      simp only [draw]
      split
      · rfl
      · exact List.append_assoc ..
    | trim => exact Sign.trim_append h x
  induction ks generalizing x with
  | nil => rfl
  | cons k ks ih => rw [drawAll_cons, drawAll_cons, hdraw, ih]

end Stroke

namespace Chunks

/-- The signs of all chunks, the open one included. -/
def signs (s : Chunks) : List Sign := s.all.flatMap Chunk.signs

theorem signs_eq (s : Chunks) :
    s.signs = s.closed.flatMap Chunk.signs ++ s.openText.signs := by
  rw [signs, all, List.flatMap_append, Chunk.signs_ofLiteral]

/-- A stroke on chunks is the stroke on their signs. Text is closed by code only, so white space
is never taken from a closed chunk. -/
theorem signs_step {s : Chunks} (h : Sign.endsWhite (s.closed.flatMap Chunk.signs) = false)
    (k : Stroke) :
    (s.step k.operation).2.signs = k.draw s.signs ∧
      Sign.endsWhite ((s.step k.operation).2.closed.flatMap Chunk.signs) = false := by
  cases k with
  | append t =>
    refine ⟨?_, h⟩
    rw [signs_eq, signs_eq]
    simp [Stroke.operation, step, Stroke.draw]
  | write code =>
    cases code with
    | nil => exact ⟨rfl, h⟩
    | cons c code =>
      have hcode : ((s.step (.write (c :: code))).2.closed.flatMap Chunk.signs) =
          s.signs ++ [.code] := by
        simp [step, signs, Chunk.ofCode, Chunk.signs]
      refine ⟨?_, ?_⟩
      · rw [signs_eq, Stroke.operation, hcode]
        simp [step, Stroke.draw, Text.signs]
      · rw [Stroke.operation, hcode]
        simp [Sign.endsWhite, Sign.isWhite]
  | trim =>
    refine ⟨?_, h⟩
    rw [signs_eq, signs_eq, Stroke.draw, Sign.trim_append h, Sign.trim_signs]
    rfl

theorem signs_run {s : Chunks} (h : Sign.endsWhite (s.closed.flatMap Chunk.signs) = false)
    (ks : List Stroke) :
    (Operation.run step s (ks.map Stroke.operation)).2.signs = Stroke.drawAll s.signs ks := by
  induction ks generalizing s with
  | nil => rfl
  | cons k ks ih =>
    obtain ⟨hsigns, hclosed⟩ := signs_step h k
    rw [List.map_cons, Operation.run, ih hclosed, hsigns, Stroke.drawAll_cons]

end Chunks

def Piece.stroke (depth : Nat) (point : Point) (processing : TextProcessing) : Piece → Stroke
  | .literal t => .append (processing.apply t)
  | .code c =>
    .write (Script.evaluate (Text.indentation (depth + 1)) c processing.embedMode point)

namespace Instruction

/-- What an instruction does to the output of a line at `depth`. -/
def strokes (depth : Nat) : Instruction → List Stroke
  | .start tolerant => [.write (Script.preamble tolerant)]
  | .depth _ | .scanned _ => []
  | .markup t => [.append t]
  | .trimMarkup => [.trim]
  | .code line newline => [.write (Text.indentation depth ++ line ++ newline)]
  | .expression indentation c mode point => [.write (Script.evaluate indentation c mode point)]
  | .text t true point processing => (Piece.split t).map (Piece.stroke depth point processing)
  | .text t false _ processing => [.append (processing.apply t)]
  | .attributes a point => [.write (Script.dynamicAttributes a point)]
  | .closeBlock kind upcoming =>
    if Script.closesBlock upcoming then []
    else [.write (Text.indentation depth ++ Script.closer kind ++ "\n")]
  | .finish => [.write Script.epilogue]

def depthBehind (depth : Nat) : Instruction → Nat
  | .depth depth => depth
  | _ => depth

end Instruction

namespace Script

def strokes : Nat → List Instruction → List Stroke
  | _, [] => []
  | depth, i :: is => i.strokes depth ++ strokes (i.depthBehind depth) is

theorem strokes_append (depth : Nat) (is js : List Instruction) :
    strokes depth (is ++ js) =
      strokes depth is ++ strokes (is.foldl Instruction.depthBehind depth) js := by
  induction is generalizing depth with
  | nil => rfl
  | cons i is ih => simp [strokes, ih]

def chunks (is : List Instruction) : List Chunk :=
  (Operation.run Chunks.step {} ((strokes 0 is).map Stroke.operation)).2.all

def signs (is : List Instruction) : List Sign := (chunks is).flatMap Chunk.signs

theorem signs_eq (is : List Instruction) : signs is = Stroke.drawAll [] (strokes 0 is) :=
  Chunks.signs_run rfl _

namespace Writer

theorem depth_piece (w : Writer) (point : Point) (processing : TextProcessing) (p : Piece) :
    (w.piece point processing p).depth = w.depth := by
  cases p <;> simp only [piece, onBuffer]

theorem depth_pieces (w : Writer) (point : Point) (processing : TextProcessing)
    (ps : List Piece) :
    (ps.foldl (fun w p => w.piece point processing p) w).depth = w.depth := by
  induction ps generalizing w with
  | nil => rfl
  | cons p ps ih => rw [List.foldl_cons, ih, depth_piece]

theorem depth_apply (w : Writer) (i : Instruction) :
    (w.apply i).depth = i.depthBehind w.depth := by
  cases i with
  | text t interpolate point processing =>
    cases interpolate with
    | false => simp only [apply, onBuffer, Instruction.depthBehind]
    | true => simp only [apply, depth_pieces, Instruction.depthBehind]
  | closeBlock kind upcoming =>
    simp only [apply, closeBlock, Instruction.depthBehind]
    split <;> simp only [onBuffer]
  | _ => simp only [apply, onBuffer, Instruction.depthBehind]

theorem buffer_piece (w : Writer) (point : Point) (processing : TextProcessing) (p : Piece) :
    (w.piece point processing p).buffer =
      (w.buffer.step (Piece.stroke w.depth point processing p).operation).2 := by
  cases p <;> simp only [piece, onBuffer, Piece.stroke, Stroke.operation, Buffer.step]

theorem buffer_pieces (w : Writer) (point : Point) (processing : TextProcessing)
    (ps : List Piece) :
    (ps.foldl (fun w p => w.piece point processing p) w).buffer =
      (Operation.run Buffer.step w.buffer
        ((ps.map (Piece.stroke w.depth point processing)).map Stroke.operation)).2 := by
  induction ps generalizing w with
  | nil => rfl
  | cons p ps ih =>
    rw [List.foldl_cons, ih, depth_piece, buffer_piece, List.map_cons, List.map_cons,
      Operation.run]

theorem buffer_apply (w : Writer) (i : Instruction) :
    (w.apply i).buffer =
      (Operation.run Buffer.step w.buffer ((i.strokes w.depth).map Stroke.operation)).2 := by
  cases i with
  | text t interpolate point processing =>
    cases interpolate with
    | false =>
      simp only [apply, onBuffer, Instruction.strokes, List.map_cons, List.map_nil,
        Stroke.operation, Operation.run, Buffer.step]
    | true =>
      simp only [apply, Instruction.strokes]
      exact buffer_pieces w point processing _
  | closeBlock kind upcoming =>
    simp only [apply, closeBlock, Instruction.strokes]
    split <;> simp only [onBuffer, List.map_cons, List.map_nil, Stroke.operation, Operation.run,
      Buffer.step]
  | _ =>
    simp only [apply, onBuffer, Instruction.strokes, List.map_cons, List.map_nil,
      Stroke.operation, Operation.run, Buffer.step]

/-- A writer does to its buffer what the strokes of its instructions do. -/
theorem buffer_run (w : Writer) (is : List Instruction) :
    (w.run is).buffer =
      (Operation.run Buffer.step w.buffer ((strokes w.depth is).map Stroke.operation)).2 := by
  induction is generalizing w with
  | nil => rfl
  | cons i is ih =>
    rw [strokes, List.map_append, Operation.run_append, ← buffer_apply, ← depth_apply, ← ih]
    rfl

end Writer

/-- The code of a finished script is that of its chunks. -/
theorem body_eq_chunks (is : List Instruction) :
    body (is ++ [.finish]) = Chunk.allCode pushLiteral (chunks (is ++ [.finish])) := by
  have hnew : Chunks.Holds pushLiteral {} ({ render := pushLiteral } : Buffer) := ⟨rfl, rfl, rfl⟩
  have hopen (s : Chunks) :
      (s.step (.write epilogue)).2.all = (s.step (.write epilogue)).2.closed := List.append_nil _
  rw [body, Writer.buffer_run, (hnew.run _).2.output_eq, chunks, strokes_append, List.map_append,
    Operation.run_append]
  exact congrArg _ (hopen _).symm

end Script

end Haml
