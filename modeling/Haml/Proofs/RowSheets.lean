import Haml.Proofs.Fronts
import Haml.Proofs.Placement
import Haml.Proofs.SameCode

/-!
# Rows of markup and their output

Rows of tags, texts and comments always compile, and what they write depends on nothing but the
rows and what is open in front of them. Closing what is open at a depth or deeper may be told
apart from the row that makes it necessary, so that the output of a tag with its block has an end
of its own. What comes first behind such an end is said row by row.
-/

namespace Haml

/-- Tags, texts and comments of the markup. -/
def Line.isMarkup : Line → Bool
  | .tag .. | .plain (.text ..) _ | .escaped .. | .comment .. => true
  | _ => false

def Row.isMarkup : Row → Bool
  | .empty _ | .blank _ _ => true
  | .written _ _ (.line _ x) => x.isMarkup
  | .written _ _ (.filter ..) => false

/-- Whether a row leaves open what is open at `depth`. -/
def Row.staysWithin (depth : Nat) : Row → Bool
  | .written d _ _ => depth < d
  | _ => true

namespace Script

/-- What the instructions do to the output does not depend on the line before them. -/
def Draws (is : List Instruction) (ks : List Stroke) : Prop := ∀ depth, strokes depth is = ks

theorem Draws.nil : Draws [] [] := fun _ => rfl

theorem Draws.append {is js : List Instruction} {ks ms : List Stroke} (h : Draws is ks)
    (h' : Draws js ms) : Draws (is ++ js) (ks ++ ms) := by
  intro depth
  rw [strokes_append, h, h']

theorem Draws.markup (t : Text) : Draws [.markup t] [.append t] := fun _ => rfl

theorem draws_depth (depth : Nat) (is : List Instruction) :
    Draws (.depth depth :: is) (strokes depth is) := fun _ => rfl

theorem Draws.depth_cons {is : List Instruction} {ks : List Stroke} (h : Draws is ks)
    (depth : Nat) : Draws (.depth depth :: is) ks := fun _ => h depth

theorem strokes_scanned (depth : Nat) (ps : List Probe) (is : List Instruction) :
    strokes depth (ps.map .scanned ++ is) = strokes depth is := by
  induction ps with
  | nil => rfl
  | cons p ps ih => exact ih

end Script

theorem Element.closing_of_not_isBlock {e : Element} (h : e.isBlock = false) (depth : Nat)
    (framed : Bool) (u v : Upcoming) : e.closing depth framed u = e.closing depth framed v := by
  cases e with
  | block kind => cases h
  | _ => rfl

namespace ElementStack

def NoBlock (s : ElementStack) : Prop := ∀ i e, s.get? i = some e → e.isBlock = false

def closingStrokes (s : ElementStack) (depth : Nat) : List Stroke :=
  (s.openFrom depth).flatMap fun p =>
    Script.strokes p.1 (p.2.closing p.1 (s.framesLines p.1) .anything)

variable {s t : ElementStack}

theorem draws_close (hs : s.NoBlock) (d : Nat) (u : Upcoming) :
    Script.Draws ((s.close d u).1.filterMap Event.instruction?) (s.closingStrokes d) := by
  have hdraws : ∀ p ∈ s.openFrom d,
      Script.Draws ((s.closingEvents u p).filterMap Event.instruction?)
        (Script.strokes p.1 (p.2.closing p.1 (s.framesLines p.1) .anything)) := by
    rintro ⟨k, e⟩ hp
    rw [closingEvents, List.filterMap_cons_none rfl, Event.filterMap_instruction?_emit,
      Element.closing_of_not_isBlock (hs k e (mem_openFrom.1 hp).2) _ _ u .anything]
    exact Script.draws_depth k _
  rw [close_events, closingStrokes]
  generalize s.openFrom d = ps at hdraws
  induction ps with
  | nil => exact .nil
  | cons p ps ih =>
    rw [List.flatMap_cons, List.flatMap_cons, List.filterMap_append]
    exact (hdraws p List.mem_cons_self).append
      (ih fun q hq => hdraws q (List.mem_cons_of_mem p hq))

theorem framesLines_close (s : ElementStack) (d : Nat) (u : Upcoming) {k : Nat} (h : k ≤ d) :
    (s.close d u).2.framesLines k = s.framesLines k :=
  framesLines_congr fun i hi => by rw [get?_close, if_pos (by omega)]

/-- Deeper elements are closed first. -/
theorem closingStrokes_append (s : ElementStack) {b d : Nat} (h : b ≤ d) (u : Upcoming) :
    s.closingStrokes b = s.closingStrokes d ++ (s.close d u).2.closingStrokes b := by
  rw [closingStrokes, openFrom_append s h u, List.flatMap_append, ← closingStrokes]
  congr 1
  apply List.flatMap_congr
  rintro ⟨k, e⟩ hk
  obtain ⟨-, he⟩ := mem_openFrom.1 hk
  have hlt : k < d := by
    by_contra hlt
    rw [get?_close, if_neg hlt] at he
    cases he
  rw [framesLines_close s d u (Nat.le_of_lt hlt)]

/-- The element at a depth is closed behind all deeper ones. -/
theorem closingStrokes_of_get? {d : Nat} {e : Element} (h : s.get? d = some e) :
    s.closingStrokes d =
      s.closingStrokes (d + 1) ++
        Script.strokes d (e.closing d (s.framesLines d) .anything) := by
  rw [closingStrokes, openFrom_eq_append, List.flatMap_append, ← closingStrokes, h]
  simp

theorem Same.closingStrokes (h : s.Same t) (d : Nat) :
    s.closingStrokes d = t.closingStrokes d := by
  simp only [ElementStack.closingStrokes, h.openFrom, h.framesLines]

end ElementStack

def Matter.strokes (depth : Nat) (framed : Bool) : Matter → List Stroke
  | .line _ x => Script.strokes depth (x.instructions depth framed)
  | .filter .. => []

def Matter.element? : Matter → Option Element
  | .line _ x => x.element?
  | .filter .. => none

theorem Line.isBlock_of_isMarkup {x : Line} {e : Element} (h : x.isMarkup = true)
    (he : x.element? = some e) : e.isBlock = false := by
  cases x with
  | comment t newline hasContents =>
    cases he
    split <;> rfl
  | tag head contents =>
    rw [Line.element?, TagHead.element?] at he
    split at he
    · cases he
    · cases he
      rfl
  | plain contents point => cases he
  | escaped t point newline => cases he
  | _ => cases h

namespace Row

/-- What a row of markup does to the output, where `stack` is open. -/
def strokes (stack : ElementStack) : Row → List Stroke
  | .empty newline => [.append newline]
  | .blank depth newline => (newline.map fun n => .append (Text.indentation depth ++ n)).toList
  | .written depth _ matter =>
    stack.closingStrokes depth ++ matter.strokes depth (stack.framesLines depth)

def stackBehind (stack : ElementStack) : Row → ElementStack
  | .written depth upcoming matter =>
    let closed := (stack.close depth upcoming).2
    (matter.element?.map (closed.set depth)).getD closed
  | _ => stack

variable {stack : ElementStack} {row : Row}

/-- A row of markup compiles, and does to the output what its strokes do. -/
theorem compile_of_isMarkup (h : row.isMarkup = true) (hs : stack.NoBlock)
    (filters : FilterRegistry) :
    ∃ events, row.compile filters stack = some (events, row.stackBehind stack) ∧
      Script.Draws (events.filterMap Event.instruction?) (row.strokes stack) := by
  cases row with
  | empty newline => exact ⟨_, rfl, .markup newline⟩
  | blank depth newline =>
    refine ⟨_, rfl, ?_⟩
    cases newline with
    | none => exact Script.draws_depth depth []
    | some n => exact Script.draws_depth depth [.markup (Text.indentation depth ++ n)]
  | written depth upcoming matter =>
    cases matter with
    | filter => cases h
    | line probes x =>
      refine ⟨_, rfl, ?_⟩
      have hframed := ElementStack.framesLines_close stack depth upcoming (Nat.le_refl depth)
      have hown := Script.draws_depth depth (probes.map .scanned ++
        x.instructions depth (stack.framesLines depth))
      rw [Script.strokes_scanned] at hown
      rw [List.filterMap_cons_some (Event.instruction?_emit _), List.filterMap_append,
        List.filterMap_cons_some (Event.instruction?_emit _), filterMap_instruction?_line, hframed]
      exact ((ElementStack.draws_close hs depth upcoming).append hown).depth_cons depth

theorem noBlock_stackBehind (h : row.isMarkup = true) (hs : stack.NoBlock) :
    (row.stackBehind stack).NoBlock := by
  cases row with
  | empty newline => exact hs
  | blank depth newline => exact hs
  | written depth upcoming matter =>
    cases matter with
    | filter => cases h
    | line probes x =>
      have hclosed : (stack.close depth upcoming).2.NoBlock := by
        intro i e he
        rw [ElementStack.get?_close] at he
        split at he
        · exact hs i e he
        · cases he
      cases hx : x.element? with
      | none => simpa [stackBehind, Matter.element?, hx] using hclosed
      | some own =>
        intro i e he
        simp only [stackBehind, Matter.element?, hx, Option.map_some, Option.getD_some,
          ElementStack.get?_set] at he
        split at he
        · cases he
          exact Line.isBlock_of_isMarkup h hx
        · exact hclosed i e he

/-- Rows deeper than a depth leave what is open there and above as it is. -/
theorem get?_stackBehind {depth : Nat} (h : row.staysWithin depth = true) {i : Nat}
    (hi : i ≤ depth) : (row.stackBehind stack).get? i = stack.get? i := by
  cases row with
  | empty newline => rfl
  | blank d newline => rfl
  | written d upcoming matter =>
    have hd : depth < d := of_decide_eq_true h
    cases he : matter.element? with
    | none =>
      simp only [stackBehind, he, Option.map_none, Option.getD_none]
      rw [ElementStack.get?_close, if_pos (by omega)]
    | some e =>
      simp only [stackBehind, he, Option.map_some, Option.getD_some]
      rw [ElementStack.get?_set, if_neg (by omega), ElementStack.get?_close, if_pos (by omega)]

variable {s t : ElementStack}

theorem same_stackBehind (h : s.Same t) (row : Row) :
    (row.stackBehind s).Same (row.stackBehind t) := by
  cases row with
  | empty newline => exact h
  | blank depth newline => exact h
  | written depth upcoming matter =>
    have hclose := h.close depth upcoming upcoming
    cases he : matter.element? with
    | none => simpa [stackBehind, he] using hclose
    | some e => simpa [stackBehind, he] using hclose.set depth e

theorem strokes_of_same (h : s.Same t) (row : Row) : row.strokes s = row.strokes t := by
  cases row with
  | written depth upcoming matter => rw [strokes, strokes, h.closingStrokes, h.framesLines]
  | _ => rfl

end Row

def rowsStrokes : ElementStack → List Row → List Stroke
  | _, [] => []
  | stack, row :: rows => row.strokes stack ++ rowsStrokes (row.stackBehind stack) rows

def rowsBehind (stack : ElementStack) (rows : List Row) : ElementStack :=
  rows.foldl Row.stackBehind stack

section Rows

variable {s t : ElementStack}

theorem rowsStrokes_append (s : ElementStack) (rows rows' : List Row) :
    rowsStrokes s (rows ++ rows') =
      rowsStrokes s rows ++ rowsStrokes (rowsBehind s rows) rows' := by
  induction rows generalizing s with
  | nil => rfl
  | cons row rows ih => simp [rowsStrokes, rowsBehind, ih]

theorem rowsBehind_append (s : ElementStack) (rows rows' : List Row) :
    rowsBehind s (rows ++ rows') = rowsBehind (rowsBehind s rows) rows' := List.foldl_append

/-- Rows of markup compile one after another. -/
theorem compileRows_of_isMarkup {rows : List Row} (h : ∀ row ∈ rows, row.isMarkup = true)
    (hs : s.NoBlock) (filters : FilterRegistry) :
    ∃ events, compileRows filters s rows = some (events, rowsBehind s rows) ∧
      Script.Draws (events.filterMap Event.instruction?) (rowsStrokes s rows) ∧
      (rowsBehind s rows).NoBlock := by
  induction rows generalizing s with
  | nil => exact ⟨[], rfl, .nil, hs⟩
  | cons row rows ih =>
    have hrow := h row List.mem_cons_self
    obtain ⟨own, hown, hdraws⟩ := Row.compile_of_isMarkup hrow hs filters
    obtain ⟨more, hmore, hdraws', hend⟩ :=
      ih (fun r hr => h r (List.mem_cons_of_mem row hr)) (Row.noBlock_stackBehind hrow hs)
    refine ⟨own ++ more, ?_, ?_, hend⟩
    · rw [compileRows, hown, Option.bind_some, hmore]
      rfl
    · rw [List.filterMap_append]
      exact hdraws.append hdraws'

theorem get?_rowsBehind {rows : List Row} {depth : Nat}
    (h : ∀ row ∈ rows, row.staysWithin depth = true) {i : Nat} (hi : i ≤ depth) :
    (rowsBehind s rows).get? i = s.get? i := by
  induction rows generalizing s with
  | nil => rfl
  | cons row rows ih =>
    have hrow := h row List.mem_cons_self
    calc (rowsBehind (row.stackBehind s) rows).get? i
        = (row.stackBehind s).get? i := ih fun r hr => h r (List.mem_cons_of_mem row hr)
      _ = s.get? i := Row.get?_stackBehind hrow hi

/-- What rows of markup and the end of the template do to the output. -/
def endingStrokes (s : ElementStack) (rows : List Row) : List Stroke :=
  rowsStrokes s rows ++ (rowsBehind s rows).closingStrokes 0

theorem endingStrokes_append (s : ElementStack) (rows rows' : List Row) :
    endingStrokes s (rows ++ rows') =
      rowsStrokes s rows ++ endingStrokes (rowsBehind s rows) rows' := by
  rw [endingStrokes, endingStrokes, rowsStrokes_append, rowsBehind_append, List.append_assoc]

theorem endingStrokes_cons (s : ElementStack) (row : Row) (rows : List Row) :
    endingStrokes s (row :: rows) = row.strokes s ++ endingStrokes (row.stackBehind s) rows :=
  List.append_assoc ..

theorem endingStrokes_of_same (h : s.Same t) (rows : List Row) :
    endingStrokes s rows = endingStrokes t rows := by
  induction rows generalizing s t with
  | nil => exact h.closingStrokes 0
  | cons row rows ih =>
    rw [endingStrokes_cons, endingStrokes_cons, Row.strokes_of_same h,
      ih (Row.same_stackBehind h row)]

/-- Where nothing more comes within a depth, what is open there and deeper is closed first. -/
theorem endingStrokes_close (s : ElementStack) {rows : List Row} {depth : Nat}
    (h : ∀ row, rows.head? = some row → row.staysWithin depth = false) (u : Upcoming) :
    endingStrokes s rows = s.closingStrokes depth ++ endingStrokes (s.close depth u).2 rows := by
  cases rows with
  | nil => exact s.closingStrokes_append (Nat.zero_le depth) u
  | cons row rows =>
    have hrow := h row rfl
    cases row with
    | empty newline => cases hrow
    | blank d newline => cases hrow
    | written d upcoming matter =>
      have hd : d ≤ depth := Nat.le_of_not_lt (of_decide_eq_false hrow)
      have hsame : (s.close d upcoming).2.Same ((s.close depth u).2.close d upcoming).2 := by
        intro i
        rw [ElementStack.get?_close, ElementStack.get?_close, ElementStack.get?_close]
        by_cases hi : i < d
        · rw [if_pos hi, if_pos hi, if_pos (by omega)]
        · rw [if_neg hi, if_neg hi]
      have hbehind : (Row.stackBehind s (.written d upcoming matter)).Same
          (Row.stackBehind (s.close depth u).2 (.written d upcoming matter)) := by
        cases he : matter.element? with
        | none => simpa [Row.stackBehind, he] using hsame
        | some e => simpa [Row.stackBehind, he] using hsame.set d e
      rw [endingStrokes_cons, endingStrokes_cons, endingStrokes_of_same hbehind, Row.strokes,
        Row.strokes, s.closingStrokes_append hd u, s.framesLines_close depth u hd]
      simp only [List.append_assoc]

end Rows

/-- What is written when the rows are compiled and all that is open at `depth` or deeper is
closed. -/
def sheet (tolerant : Bool) (rows : List Row) (depth : Nat) : List Sign :=
  Stroke.drawAll [] (.write (Script.preamble tolerant) ::
    (rowsStrokes {} rows ++ (rowsBehind {} rows).closingStrokes depth))

/-- A template of markup is compiled, and its output is that of its rows, with the end of the
code behind. -/
theorem Template.compileWith_of_isMarkup {t : Template} {rows : List Row}
    (h : (Lexer.ofText t.source).next.rows = .ok rows)
    (hmarkup : ∀ row ∈ rows, row.isMarkup = true) (o : Options) (filters : FilterRegistry) :
    t.compileWith o filters = .ok ⟨Chunk.allCode Script.pushLiteral
        (Script.chunks (t.run o filters).instructions), []⟩ ∧
      Script.signs (t.run o filters).instructions = sheet o.tolerant rows 0 ++ [.code] := by
  have hempty : ({} : ElementStack).NoBlock := by
    intro i e he
    cases he
  obtain ⟨events, hcompile, hdraws, hblock⟩ := compileRows_of_isMarkup hmarkup hempty filters
  obtain ⟨u, -, hrun⟩ := Template.compileWith_of_rows h hcompile
  obtain ⟨hinstructions, hcode⟩ := hrun o
  have hall := hdraws.append (ElementStack.draws_close hblock 0 u)
  rw [← List.filterMap_append] at hall
  constructor
  · rw [hcode, hinstructions, Script.body_eq_chunks]
  · have hfinish (k : Nat) : Script.strokes k [.finish] = [.write Script.epilogue] := rfl
    have hne : Script.epilogue.isEmpty = false := by decide
    have hend (s : List Sign) : Stroke.draw s (.write Script.epilogue) = s ++ [.code] := by
      rw [Stroke.draw, hne]
      rfl
    have hstart (is : List Instruction) : Script.strokes 0 (.start o.tolerant :: is) =
        .write (Script.preamble o.tolerant) :: Script.strokes 0 is := rfl
    rw [Script.signs_eq, hinstructions, Script.strokes_append, hfinish, hstart,
      hall, Stroke.drawAll_append, Stroke.drawAll_cons, hend]
    rfl

end Haml
