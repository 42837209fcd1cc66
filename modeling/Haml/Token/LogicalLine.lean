import Haml.Token.Lexer

/-!
# Logical lines

A line that ends in a bar, blanks aside, goes on in the next one. A run of such
lines is one logical line, without the bars and the line ends between them.
-/

namespace Haml

/-- The text before the closing bar of the first line, if the line has one and
another line follows. -/
def continued? (t : Text) : Option Text :=
  let line := t.takeWhile fun c => !isLineBreak c
  let kept := Text.dropEndWhile isIndent line
  if kept.getLast? = some '|' ∧ line.length < t.length then some kept.dropLast else none

namespace Lexer

/-- Takes a line whose text before the bar is `segment`, and the lines that it
goes on in. -/
def takeContinued (l : Lexer) (segment : Text) : Text × Lexer :=
  let l' := (l.skip segment).next
  if _ : l'.kind = .continuation then
    match continued? l'.rest with
    | some more =>
      let r := l'.takeContinued more
      (segment ++ r.1, r.2)
    | none => (segment, l')
  else (segment, l')
termination_by l.rest.length
decreasing_by
  have hlt : (l.skip segment).next.rest.length < (l.skip segment).rest.length :=
    rest_length_next_lt_of_kind (by simp_all [l'])
  exact Nat.lt_of_lt_of_le hlt (Cursor.skip_rest_length_le segment l.cursor)

/-- Takes the rest of the logical line, from the current token on. The lexer is
left on the token that ends it. -/
def takeLine (l : Lexer) : Text × Lexer :=
  if l.endsLine then ([], l)
  else
    match continued? l.rest with
    | some segment =>
      let r := l.takeContinued segment
      (l.token.matched ++ r.1, r.2)
    | none =>
      let line := l.rest.takeWhile fun c => !isLineBreak c
      (l.token.matched ++ line, (l.skip line).next)

/-- A way to take the rest of logical lines, from the current token on. It may do more
than that, or refuse to. -/
abbrev LineTaker (m : Type → Type) := (l : Lexer) → m { line : Text × Lexer // line = l.takeLine }

def takeAnyLine : LineTaker Id := fun l => ⟨l.takeLine, rfl⟩

def passLine (l : Lexer) : Lexer := l.takeLine.2.passLineEnd

theorem remaining_skip_next_lt {l : Lexer} (h : l.kind ≠ .eof) (t : Text) :
    (l.skip t).next.remaining < l.remaining :=
  Nat.lt_of_lt_of_le (remaining_next_lt (l := l.skip t) (by simpa using h)) (remaining_skip_le l t)

theorem remaining_takeContinued_lt {l : Lexer} (h : l.kind ≠ .eof) (segment : Text) :
    (l.takeContinued segment).2.remaining < l.remaining := by
  fun_induction takeContinued l segment with
  | case1 l segment l' hk more _ r ih =>
    have hlt := remaining_skip_next_lt h segment
    have hle := ih (by simp [hk])
    exact Nat.lt_trans hle hlt
  | case2 l segment l' hk _ => exact remaining_skip_next_lt h segment
  | case3 l segment l' hk => exact remaining_skip_next_lt h segment

theorem remaining_takeLine_lt {l : Lexer} (h : l.endsLine = false) :
    l.takeLine.2.remaining < l.remaining := by
  have hk := kind_ne_eof_of_not_endsLine h
  simp only [takeLine, h, Bool.false_eq_true, if_false]
  split
  · exact remaining_takeContinued_lt hk _
  · exact remaining_skip_next_lt hk _

theorem takeLine_of_endsLine {l : Lexer} (h : l.endsLine = true) : l.takeLine = ([], l) := by
  simp [takeLine, h]

theorem remaining_takeLine_le (l : Lexer) : l.takeLine.2.remaining ≤ l.remaining := by
  cases h : l.endsLine with
  | true => exact Nat.le_of_eq (by rw [takeLine_of_endsLine h])
  | false => exact Nat.le_of_lt (remaining_takeLine_lt h)

theorem remaining_passLine_le (l : Lexer) : l.passLine.remaining ≤ l.remaining :=
  Nat.le_trans (remaining_passLineEnd_le _) (remaining_takeLine_le l)

theorem remaining_passLine_lt {l : Lexer} (h : l.endsLine = false) :
    l.passLine.remaining < l.remaining :=
  Nat.lt_of_le_of_lt (remaining_passLineEnd_le _) (remaining_takeLine_lt h)

end Lexer

end Haml
