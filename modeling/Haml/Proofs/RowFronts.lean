import Haml.Proofs.RowSheets

/-!
# What comes first in the output of rows

Behind a place in the output stands what the rest of the template writes. Whether that starts
with white space is told row by row, until something visible comes: a tag, the end of an element,
a comment, a character of a text, or the value of an expression.
-/

namespace Haml

def Contents.front (depth : Nat) (inner : Bool) (f : Front) : Contents → Front
  | .expression .. => f.appear inner
  | .text t _ _ newline =>
    if t.isEmpty then f else f.add (framedText inner (depth + 1) t ++ newline)

def Line.front (depth : Nat) (framed : Bool) (f : Front) : Line → Front
  | .tag head _ =>
    if head.options.outer then f.appear (0 < depth && framed) else f.trim.appear false
  | .plain (.text t _ extra newline) _ =>
    if t.isEmpty then f else f.add (framedText framed (depth + extra) t ++ newline)
  | .escaped t _ newline => f.add (Text.indentation depth ++ t ++ newline)
  | .comment .. => f.appear (0 < depth)
  | _ => f

def Element.front (depth : Nat) (f : Front) : Element → Front
  | .tag _ options => if options.inner then f.appear (0 < depth) else f.trim.appear false
  | .comment _ | .conditional _ => f.appear (0 < depth)
  | .block _ => f.appear false

/-- The front when the elements at `depth` or deeper are closed. -/
def ElementStack.front (s : ElementStack) (depth : Nat) (f : Front) : Front :=
  (s.openFrom depth).foldl (fun f p => p.2.front p.1 f) f

def Row.front (stack : ElementStack) (f : Front) : Row → Front
  | .empty newline => f.add newline
  | .blank depth newline => f.add ((newline.map (Text.indentation depth ++ ·)).getD [])
  | .written depth _ (.line _ x) =>
    x.front depth (stack.framesLines depth) (stack.front depth f)
  | .written depth _ (.filter ..) => stack.front depth f

def endingFront : ElementStack → Front → List Row → Front
  | stack, f, [] => stack.front 0 f
  | stack, f, row :: rows => endingFront (row.stackBehind stack) (row.front stack f) rows

section Strokes

variable (f : Front)

theorem strokes_markup (k : Nat) (t : Text) (is : List Instruction) :
    f.strokes (Script.strokes k (.markup t :: is)) = (f.add t).strokes (Script.strokes k is) := rfl

theorem strokes_expression (k : Nat) (indentation code : Text) (mode : EmbedMode) (point : Point)
    (is : List Instruction) :
    f.strokes (Script.strokes k (.expression indentation code mode point :: is)) =
      f.appear false := by
  have hwrite : f.stroke (.write (Script.evaluate indentation code mode point)) =
      f.appear false := by
    rw [Front.stroke, if_neg]
    simp [Script.evaluate_ne_nil]
  have hcons : Script.strokes k (.expression indentation code mode point :: is) =
      .write (Script.evaluate indentation code mode point) :: Script.strokes k is := rfl
  rw [hcons, Front.strokes_cons, hwrite, Front.strokes_of_visible (f.visible_appear false)]

theorem strokes_textInstructions (k : Nat) (t : Text) (framed : Bool) (depth : Nat)
    (interpolate : Bool) (point : Point) (newline : Text) :
    f.strokes (Script.strokes k (textInstructions t framed depth interpolate point newline)) =
      if t.isEmpty then f else f.add (framedText framed depth t ++ newline) := by
  rw [textInstructions]
  split
  · rfl
  · rw [f.add_append]
    cases interpolate with
    | false => rfl
    | true =>
      have hsplit := f.strokes_splitAfter k point [] (framedText framed depth t)
      simp only [Script.strokes, Instruction.strokes, Piece.split, List.append_nil,
        Front.strokes_append, hsplit]
      rfl

theorem Contents.strokes_insideTag (k depth : Nat) (inner : Bool) (point : Point)
    (c : Contents) :
    f.strokes (Script.strokes k (c.insideTag depth inner point)) = c.front depth inner f := by
  cases c with
  | text t interpolate extra newline => exact strokes_textInstructions f _ _ _ _ _ _ _
  | expression mode code p newline =>
    rw [insideTag, expressionInstructions, front]
    cases inner with
    | false => exact strokes_expression f _ _ _ _ _ _
    | true =>
      rw [if_pos rfl, strokes_markup, strokes_expression, Front.appear_add_indentation]
      simp

/-- A tag is visible from its name on, whatever follows. -/
theorem TagHead.strokes_opening (depth : Nat) (framed : Bool) (head : TagHead)
    (more : List Instruction) :
    f.strokes (Script.strokes depth (head.opening depth framed ++ more)) =
      if head.options.outer then f.appear (0 < depth && framed) else f.trim.appear false := by
  have hname (g : Front) (is : List Instruction) :
      g.strokes (Script.strokes depth (.markup ("<" ++ head.name) :: is)) = g.appear false := by
    have hadd : g.add ("<" ++ head.name) = g.appear false := Front.add_cons rfl g head.name
    rw [strokes_markup, hadd, Front.strokes_of_visible (g.visible_appear false)]
  simp only [opening, List.append_assoc, List.cons_append, List.nil_append]
  cases head.options.outer with
  | false =>
    simp only [Bool.and_false, Bool.false_and, Bool.false_eq_true, if_false, List.nil_append]
    exact hname f.trim _
  | true =>
    simp only [if_true, Bool.and_true, List.nil_append]
    by_cases hindent : (decide (0 < depth) && framed) = true
    · have hd : 0 < depth := by simpa using (Bool.and_eq_true_iff.1 hindent).1
      rw [if_pos hindent, List.cons_append, strokes_markup, List.nil_append, hname,
        Front.appear_add_indentation, hindent]
      simp [hd]
    · rw [if_neg hindent, List.nil_append, hname]
      simp [hindent]

theorem Line.strokes_instructions {x : Line} (h : x.isMarkup = true) (depth : Nat)
    (framed : Bool) :
    f.strokes (Script.strokes depth (x.instructions depth framed)) = x.front depth framed f := by
  cases x with
  | tag head contents => exact TagHead.strokes_opening f depth framed head _
  | comment t newline hasContents =>
    have hadd : f.add (Text.indentation depth ++ "<!--") = f.appear (0 < depth) :=
      Front.add_indented rfl f depth _
    have hvisible := f.visible_appear (0 < depth)
    simp only [instructions, List.cons_append, strokes_markup, hadd, Front.add_of_visible hvisible]
    exact Front.strokes_of_visible hvisible _
  | escaped t point newline =>
    have hescape : f.strokes (Script.strokes depth (instructions depth framed
        (.escaped t point newline))) =
        ((f.add (Text.indentation depth)).add (Html.escape t)).add newline := rfl
    rw [hescape, Front.add_escape, front, Front.add_append, Front.add_append]
  | plain contents point =>
    cases contents with
    | text t interpolate extra newline => exact strokes_textInstructions f _ _ _ _ _ _ _
    | expression => cases h
  | _ => cases h

theorem Element.strokes_closing (depth : Nat) (framed : Bool) (e : Element) :
    f.strokes (Script.strokes depth (e.closing depth framed .anything)) = e.front depth f := by
  cases e with
  | comment newline =>
    have hadd : f.add (Text.indentation depth ++ "-->" ++ newline) = f.appear (0 < depth) := by
      rw [List.append_assoc]
      exact Front.add_indented rfl f depth _
    exact hadd
  | conditional newline =>
    have hadd : f.add (Text.indentation depth ++ "<![endif]-->" ++ newline) =
        f.appear (0 < depth) := by
      rw [List.append_assoc]
      exact Front.add_indented rfl f depth _
    exact hadd
  | block kind =>
    have hopen : Script.closesBlock .anything = false := closesBlock_of_eof rfl
    have hend : ("\n" : Text) ≠ [] := by decide
    have hstroke : f.strokes (Script.strokes depth (closing depth framed .anything
          (.block kind))) =
        f.stroke (.write (Text.indentation depth ++ Script.closer kind ++ "\n")) := by
      simp only [closing, Script.strokes, Instruction.strokes, hopen]
      rfl
    rw [hstroke, Front.stroke, if_neg]
    · rfl
    · rw [List.isEmpty_iff]
      intro h
      exact hend (List.append_eq_nil_iff.1 h).2
  | tag name options =>
    have hname (g : Front) (is : List Instruction) :
        g.strokes (Script.strokes depth (.markup ("</" ++ name ++ ">") :: is)) =
          g.appear false := by
      have hadd : g.add ("</" ++ name ++ ">") = g.appear false := Front.add_cons rfl g _
      rw [strokes_markup, hadd, Front.strokes_of_visible (g.visible_appear false)]
    rw [closing, List.append_assoc, front]
    cases options.inner with
    | true =>
      rw [if_pos rfl, if_pos rfl, List.cons_append, strokes_markup]
      rw [List.nil_append, List.cons_append, hname, Front.appear_add_indentation]
    | false => exact hname f.trim _

theorem ElementStack.strokes_closingStrokes (s : ElementStack) (depth : Nat) :
    f.strokes (s.closingStrokes depth) = s.front depth f := by
  rw [closingStrokes, front]
  induction s.openFrom depth generalizing f with
  | nil => rfl
  | cons p ps ih =>
    rw [List.flatMap_cons, Front.strokes_append, Element.strokes_closing, ih, List.foldl_cons]

theorem Row.strokes_strokes {row : Row} (h : row.isMarkup = true) (stack : ElementStack) :
    f.strokes (row.strokes stack) = row.front stack f := by
  cases row with
  | empty newline => rfl
  | blank depth newline =>
    cases newline with
    | none => exact f.add_nil.symm
    | some n => rfl
  | written depth upcoming matter =>
    cases matter with
    | filter => cases h
    | line probes x =>
      rw [Row.strokes, Front.strokes_append, ElementStack.strokes_closingStrokes, Matter.strokes,
        Line.strokes_instructions _ h]
      rfl

/-- The front is told row by row. -/
theorem strokes_endingStrokes {rows : List Row} (h : ∀ row ∈ rows, row.isMarkup = true)
    (s : ElementStack) : f.strokes (endingStrokes s rows) = endingFront s f rows := by
  induction rows generalizing s f with
  | nil => exact ElementStack.strokes_closingStrokes f s 0
  | cons row rows ih =>
    rw [endingStrokes_cons, Front.strokes_append, Row.strokes_strokes f (h row List.mem_cons_self),
      ih _ fun r hr => h r (List.mem_cons_of_mem row hr)]
    rfl

end Strokes

end Haml
