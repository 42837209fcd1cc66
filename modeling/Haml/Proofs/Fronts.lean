import Haml.Proofs.Sheets

/-!
# What an output starts with

Whether white space comes first in a row of signs can be told without the row: two flags follow
all strokes. They are enough for texts with expressions in them and for escaped texts as well,
since white space is never part of what makes an expression or an entity.
-/

namespace Haml

/-- What a row of signs starts with. -/
structure Front where
  /-- Whether white space comes first. -/
  white : Bool := false
  /-- Whether there is anything but white space. -/
  visible : Bool := false
  deriving DecidableEq, Repr

theorem Script.evaluate_ne_nil (indentation code : Text) (mode : EmbedMode) (point : Point) :
    evaluate indentation code mode point ≠ [] := by
  have hend : ("\x7d\n" : Text) ≠ [] := by decide
  intro h
  exact hend (List.append_eq_nil_iff.1 h).2

theorem Script.dynamicAttributes_ne_nil (a : Attributes) (point : Point) :
    dynamicAttributes a point ≠ [] := by
  have hend : (", handleError));\n" : Text) ≠ [] := by decide
  intro h
  exact hend (List.append_eq_nil_iff.1 (List.append_eq_nil_iff.1 h).2).2

namespace Front

def of (s : List Sign) : Front := ⟨Sign.startsWhite s, !s.all Sign.isWhite⟩

def add (f : Front) (t : Text) : Front :=
  if f.visible then f else ⟨f.white || t.head?.any isWhite, !t.all isWhite⟩

/-- Something visible comes, behind white space or not. -/
def appear (f : Front) (white : Bool) : Front :=
  if f.visible then f else ⟨f.white || white, true⟩

def trim (f : Front) : Front := if f.visible then f else {}

def stroke (f : Front) : Stroke → Front
  | .append t => f.add t
  | .write code => if code.isEmpty then f else f.appear false
  | .trim => f.trim

def strokes (f : Front) (ks : List Stroke) : Front := ks.foldl stroke f

@[simp] theorem strokes_nil (f : Front) : f.strokes [] = f := rfl

@[simp] theorem strokes_cons (f : Front) (k : Stroke) (ks : List Stroke) :
    f.strokes (k :: ks) = (f.stroke k).strokes ks := rfl

@[simp] theorem strokes_append (f : Front) (ks more : List Stroke) :
    f.strokes (ks ++ more) = (f.strokes ks).strokes more := List.foldl_append

variable {f : Front}

theorem add_of_visible (h : f.visible = true) (t : Text) : f.add t = f := if_pos h

theorem appear_of_visible (h : f.visible = true) (white : Bool) : f.appear white = f := if_pos h

theorem stroke_of_visible (h : f.visible = true) (k : Stroke) : f.stroke k = f := by
  cases k with
  | append t => exact if_pos h
  | write code =>
    rw [stroke, appear_of_visible h]
    split <;> rfl
  | trim => exact if_pos h

/-- What is visible once hides all that comes later. -/
theorem strokes_of_visible (h : f.visible = true) (ks : List Stroke) : f.strokes ks = f := by
  induction ks with
  | nil => rfl
  | cons k ks ih => rw [strokes_cons, stroke_of_visible h, ih]

@[simp] theorem visible_appear (f : Front) (white : Bool) : (f.appear white).visible = true := by
  by_cases h : f.visible = true <;> simp [appear, h]

@[simp] theorem add_nil (f : Front) : f.add [] = f := by
  rcases f with ⟨white, visible⟩
  cases visible <;> simp [add]

theorem add_append (f : Front) (s t : Text) : f.add (s ++ t) = (f.add s).add t := by
  by_cases h : f.visible = true
  · rw [add_of_visible h, add_of_visible h, add_of_visible h]
  cases s with
  | nil => simp [add, h]
  | cons c s =>
    simp only [add, h, List.all_append]
    by_cases hs : (c :: s).all isWhite = true
    · have hc : isWhite c = true := List.all_eq_true.1 hs c List.mem_cons_self
      simp [hs, hc]
    · simp [hs]

/-- A text that starts with something visible. -/
theorem add_cons {c : Char} (hc : isWhite c = false) (f : Front) (t : Text) :
    f.add (c :: t) = f.appear false := by
  simp [add, appear, hc]

/-- White space in front of something visible. -/
theorem add_indented {c : Char} (hc : isWhite c = false) (f : Front) (depth : Nat) (t : Text) :
    f.add (Text.indentation depth ++ c :: t) = f.appear (0 < depth) := by
  cases depth with
  | zero => simpa [Text.indentation] using add_cons hc f t
  | succ depth =>
    rw [Text.indentation, Nat.mul_succ, List.replicate_succ]
    simp [add, appear, hc, show isWhite ' ' = true from rfl]

theorem appear_add_indentation (f : Front) (depth : Nat) :
    (f.add (Text.indentation depth)).appear false = f.appear (0 < depth) := by
  have hc : isWhite '<' = false := rfl
  rw [← add_indented hc f depth [], add_append, add_cons hc]

theorem of_append (s : List Sign) (t : Text) : of (s ++ t.signs) = (of s).add t := by
  have hall : t.signs.all Sign.isWhite = t.all isWhite := List.all_map
  cases s with
  | nil =>
    have hstart : Sign.startsWhite t.signs = t.head?.any isWhite := by cases t <;> rfl
    rw [List.nil_append, of, hall, hstart]
    rfl
  | cons g s =>
    simp only [of, add, List.all_append, hall]
    by_cases hs : (g :: s).all Sign.isWhite = true
    · have hg : g.isWhite = true := List.all_eq_true.1 hs g List.mem_cons_self
      simp [hs, Sign.startsWhite, hg]
    · simp [hs, Sign.startsWhite]

theorem of_trim (s : List Sign) : of (Sign.trim s) = (of s).trim := by
  induction s using List.reverseRecOn with
  | nil => rfl
  | append_singleton s g ih =>
    rw [Sign.trim, List.rdropWhile_concat]
    by_cases hg : g.isWhite = true
    · rw [if_pos hg, ← Sign.trim, ih]
      cases s with
      | nil => simp [of, trim, hg]
      | cons a s => simp [of, trim, hg, Sign.startsWhite]
    · rw [if_neg hg, trim, if_pos (by simp [of, hg])]

theorem of_code (s : List Sign) : of (s ++ [.code]) = (of s).appear false := by
  simp only [of, appear, List.all_append]
  cases s with
  | nil => rfl
  | cons g s =>
    by_cases hs : (g :: s).all Sign.isWhite = true <;>
      simp [hs, Sign.startsWhite, Sign.isWhite]

/-- The flags follow every stroke. -/
theorem of_draw (s : List Sign) (k : Stroke) : of (k.draw s) = (of s).stroke k := by
  cases k with
  | append t => exact of_append s t
  | write code =>
    rw [Stroke.draw, stroke]
    split
    · rfl
    · exact of_code s
  | trim => exact of_trim s

theorem of_drawAll (s : List Sign) (ks : List Stroke) :
    of (Stroke.drawAll s ks) = (of s).strokes ks := by
  induction ks generalizing s with
  | nil => rfl
  | cons k ks ih => rw [Stroke.drawAll_cons, ih, of_draw, strokes_cons]

/-- Code behind all strokes does not change what comes first. -/
theorem startsWhite_drawAll (s : List Sign) (ks : List Stroke) :
    Sign.startsWhite (Stroke.drawAll s ks ++ [.code]) = ((of s).strokes ks).white := by
  have hcode : (of (Stroke.drawAll s ks ++ [.code])).white = ((of s).strokes ks).white := by
    rw [of_code, of_drawAll, appear]
    split
    · rfl
    · exact Bool.or_false _
  exact hcode

/-- Escaped text starts with white space where the text does. -/
theorem add_escape (f : Front) (t : Text) : f.add (Html.escape t) = f.add t := by
  have hchar (c : Char) : (Html.escapeChar c).all isWhite = isWhite c ∧
      (Html.escapeChar c).head?.any isWhite = isWhite c := by
    unfold Html.escapeChar
    split <;> simp <;> decide
  have hall : (Html.escape t).all isWhite = t.all isWhite := by
    rw [Html.escape, List.all_flatMap]
    simp only [hchar]
  have hhead : (Html.escape t).head?.any isWhite = t.head?.any isWhite := by
    cases t with
    | nil => rfl
    | cons c t =>
      have hne : (Html.escapeChar c).head?.isSome := by
        unfold Html.escapeChar
        split <;> rfl
      obtain ⟨a, ha⟩ := Option.isSome_iff_exists.1 hne
      have hc := (hchar c).2
      rw [ha] at hc
      rw [Html.escape, List.flatMap_cons, List.head?_append, ha]
      exact hc
  simp only [add, hall, hhead]

theorem stroke_code (f : Front) (depth : Nat) (point : Point) (p : TextProcessing) (c : Text) :
    f.stroke (Piece.stroke depth point p (.code c)) = f.appear false := by
  rw [Piece.stroke, stroke, if_neg]
  simp [Script.evaluate_ne_nil]

theorem strokes_ofLiteral (f : Front) (depth : Nat) (point : Point) (t : Text) :
    f.strokes ((Piece.ofLiteral t).map (Piece.stroke depth point .verbatim)) = f.add t := by
  cases t with
  | nil => rw [add_nil]; rfl
  | cons c t => rfl

theorem add_drop_of_isEscaped {before : Text} (h : Piece.isEscaped before = true) (f : Front) :
    (f.add (before.drop 1).reverse).appear false = (f.add before.reverse).appear false := by
  cases before with
  | nil => rfl
  | cons c before =>
    have hc : c = '\\' := by
      by_contra hc
      simp [Piece.isEscaped, hc] at h
    subst hc
    rw [List.reverse_cons, add_append, add_cons rfl, List.drop_one, List.tail_cons,
      appear_of_visible (visible_appear _ _)]

/-- Text with expressions in it starts with white space where the text does: what makes an
expression is visible, whether or not it is taken as one. -/
theorem strokes_splitAfter (f : Front) (depth : Nat) (point : Point) (before t : Text) :
    f.strokes ((Piece.splitAfter before t).map (Piece.stroke depth point .verbatim)) =
      f.add (before.reverse ++ t) := by
  fun_induction Piece.splitAfter before t with
  | case1 before => rw [List.append_nil, strokes_ofLiteral]
  | case2 before t hc code rest he ih =>
    have hliteral (g : Front) :
        g.stroke (Piece.stroke depth point .verbatim
          (.literal ('#' :: '\x7b' :: code ++ ['\x7d']))) = g.appear false := add_cons rfl g _
    rw [List.map_append, strokes_append, strokes_ofLiteral, List.map_cons, strokes_cons, hliteral,
      strokes_of_visible (visible_appear _ _), add_append, add_cons rfl, add_drop_of_isEscaped he]
  | case3 before t hc code rest he ih =>
    rw [List.map_append, strokes_append, strokes_ofLiteral, List.map_cons, strokes_cons,
      stroke_code, strokes_of_visible (visible_appear _ _), add_append, add_cons rfl]
  | case4 before t hc ih => simpa using ih
  | case5 before c t _ ih => simpa using ih

end Front

end Haml
