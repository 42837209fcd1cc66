import Haml.Reading
import Haml.Token.LogicalLine

/-!
# Blocks of lines

The lines below a line that are indented deeper form its block. A blank line is
part of the block when the block goes on below it. After a faulty line its whole
block is passed over.
-/

namespace Haml.Lexer

/-- Whether a line deeper than `depth` follows, with only blank lines before it. -/
def deeperLineFollows (l : Lexer) (depth : Nat) : Bool :=
  match _ : l.kind with
  | .lineEnd => l.next.deeperLineFollows depth
  | .continuation => l.next.deeperLineFollows depth
  | .space =>
    if l.next.kind = .eof then false
    else if l.next.endsLine then l.next.next.deeperLineFollows depth
    else depth < l.token.depth
  | _ => false
termination_by l.remaining
decreasing_by
  · exact remaining_next_lt (by simp_all)
  · exact remaining_next_lt (by simp_all)
  · exact Nat.lt_of_le_of_lt (remaining_next_le _) (remaining_next_lt (by simp_all))

/-- Whether the current line, of which nothing has been read, is blank. -/
def onBlankLine (l : Lexer) : Bool :=
  l.kind.breaksLine || (l.kind = .space && l.next.endsLine)

theorem remaining_passBlankLine_lt {l : Lexer} (h : l.onBlankLine) :
    l.passSpace.passLineEnd.remaining < l.remaining := by
  by_cases hs : l.kind = .space
  · have hp : l.passSpace = l.next := by simp [passSpace, hs]
    rw [hp]
    exact Nat.lt_of_le_of_lt (remaining_passLineEnd_le _) (remaining_next_lt (by simp [hs]))
  · have hb : l.kind.breaksLine := by simpa [onBlankLine, hs] using h
    have hp : l.passSpace.passLineEnd = l.next := by simp [passSpace, passLineEnd, hs, hb]
    rw [hp]
    exact remaining_next_lt (kind_ne_eof_of_breaksLine hb)

theorem endsLine_eq_false_of_depth {l : Lexer} {n : Nat} (h : n < l.token.depth) :
    l.endsLine = false := by
  have hk : l.token.kind = .space := by
    by_cases hk : l.token.kind = .space
    · exact hk
    · simp [Token.depth, hk] at h
  simp [endsLine, kind, hk, Token.Kind.endsLine]

section Taking

variable {m : Type → Type} [Monad m] (take : LineTaker m)

/-- The lines from here on that are deeper than `depth`, without the indentation
of that depth. -/
def takeDeeperLinesM (l : Lexer) (depth : Nat) : m (List Text × Lexer) :=
  if _ : l.onBlankLine then
    if l.next.deeperLineFollows depth then do
      let r ← l.passSpace.passLineEnd.takeDeeperLinesM depth
      pure ([] :: r.1, r.2)
    else pure ([], l)
  else if _ : depth < l.token.depth then do
    let ⟨line, _⟩ ← take l
    let r ← line.2.passLineEnd.takeDeeperLinesM depth
    pure (line.1.drop (2 * depth) :: r.1, r.2)
  else pure ([], l)
termination_by l.remaining
decreasing_by
  · exact remaining_passBlankLine_lt ‹_›
  · rename_i h
    rw [h]
    exact remaining_passLine_lt (endsLine_eq_false_of_depth ‹_›)

/-- Passes over the rest of the line and takes the block below it. -/
def takeBlockM (l : Lexer) (depth : Nat) : m (List Text × Lexer) := do
  let ⟨line, _⟩ ← take l
  line.2.passLineEnd.takeDeeperLinesM take depth

/-- Passes over lines up to the first that is blank or not deeper than `depth`.
If that line is indented, the lexer is left on its indentation. -/
def passDeeperLinesM (l : Lexer) (depth : Nat) : m (Except Diagnostic Lexer) :=
  if l.kind = .eof then pure (.ok l)
  else if _ : l.token.depth ≤ depth ∨ l.passSpace.endsLine then
    if l.kind = .space ∧ l.passSpace.kind ≠ .eof then
      match l.passSpace.pushBack with
      | .ok l' => pure (.ok l')
      | .error cause => pure (.error (l.passSpace.pushBackFault cause))
    else pure (.ok l.passSpace)
  else do
    let ⟨line, _⟩ ← take l.passSpace
    line.2.passLineEnd.passDeeperLinesM depth
termination_by l.remaining
decreasing_by
  rename_i h
  have hl : l.passSpace.endsLine = false := by simp_all
  rw [h]
  exact Nat.lt_of_lt_of_le (remaining_passLine_lt hl) (remaining_passSpace_le l)

/-- Passes over a faulty line at `depth` and its block. -/
def recoverM (l : Lexer) (depth : Nat) : m (Except Diagnostic Lexer) := do
  let ⟨line, _⟩ ← take (l.inMode .line)
  line.2.passLineEnd.passDeeperLinesM take depth

end Taking

def takeDeeperLines (l : Lexer) (depth : Nat) : List Text × Lexer :=
  (l.takeDeeperLinesM takeAnyLine depth).run

def takeBlock (l : Lexer) (depth : Nat) : List Text × Lexer := (l.takeBlockM takeAnyLine depth).run

def passDeeperLines (l : Lexer) (depth : Nat) : Except Diagnostic Lexer :=
  (l.passDeeperLinesM takeAnyLine depth).run

def recover (l : Lexer) (depth : Nat) : Except Diagnostic Lexer :=
  (l.recoverM takeAnyLine depth).run

theorem takeDeeperLines_eq (l : Lexer) (depth : Nat) :
    l.takeDeeperLines depth =
      if l.onBlankLine then
        if l.next.deeperLineFollows depth then
          ([] :: (l.passSpace.passLineEnd.takeDeeperLines depth).1,
            (l.passSpace.passLineEnd.takeDeeperLines depth).2)
        else ([], l)
      else if depth < l.token.depth then
        (l.takeLine.1.drop (2 * depth) :: (l.passLine.takeDeeperLines depth).1,
          (l.passLine.takeDeeperLines depth).2)
      else ([], l) := by
  rw [takeDeeperLines, takeDeeperLinesM]
  split
  · split <;> rfl
  · split <;> rfl

/-- Induction over the lines of a block. -/
@[elab_as_elim]
theorem takeDeeperLines_induction (depth : Nat) {motive : Lexer → Prop}
    (gap : ∀ l : Lexer, l.onBlankLine = true → l.next.deeperLineFollows depth = true →
      l.takeDeeperLines depth = ([] :: (l.passSpace.passLineEnd.takeDeeperLines depth).1,
        (l.passSpace.passLineEnd.takeDeeperLines depth).2) →
      motive l.passSpace.passLineEnd → motive l)
    (below : ∀ l : Lexer, l.onBlankLine = true → ¬l.next.deeperLineFollows depth = true →
      l.takeDeeperLines depth = ([], l) → motive l)
    (deeper : ∀ l : Lexer, ¬l.onBlankLine = true → depth < l.token.depth →
      l.takeDeeperLines depth =
        (l.takeLine.1.drop (2 * depth) :: (l.passLine.takeDeeperLines depth).1,
          (l.passLine.takeDeeperLines depth).2) →
      motive l.passLine → motive l)
    (outside : ∀ l : Lexer, ¬l.onBlankLine = true → ¬depth < l.token.depth →
      l.takeDeeperLines depth = ([], l) → motive l)
    (l : Lexer) : motive l := by
  by_cases hb : l.onBlankLine = true
  · by_cases hd : l.next.deeperLineFollows depth = true
    · exact gap l hb hd (by rw [takeDeeperLines_eq l, if_pos hb, if_pos hd])
        (takeDeeperLines_induction depth gap below deeper outside l.passSpace.passLineEnd)
    · exact below l hb hd (by rw [takeDeeperLines_eq l, if_pos hb, if_neg hd])
  · by_cases hd : depth < l.token.depth
    · exact deeper l hb hd (by rw [takeDeeperLines_eq l, if_neg hb, if_pos hd])
        (takeDeeperLines_induction depth gap below deeper outside l.passLine)
    · exact outside l hb hd (by rw [takeDeeperLines_eq l, if_neg hb, if_neg hd])
termination_by l.remaining
decreasing_by
  · exact remaining_passBlankLine_lt hb
  · exact remaining_passLine_lt (endsLine_eq_false_of_depth hd)

theorem passDeeperLines_eq (l : Lexer) (depth : Nat) :
    l.passDeeperLines depth =
      if l.kind = .eof then .ok l
      else if l.token.depth ≤ depth ∨ l.passSpace.endsLine then
        if l.kind = .space ∧ l.passSpace.kind ≠ .eof then
          match l.passSpace.pushBack with
          | .ok l' => .ok l'
          | .error cause => .error (l.passSpace.pushBackFault cause)
        else .ok l.passSpace
      else l.passSpace.passLine.passDeeperLines depth := by
  rw [passDeeperLines, passDeeperLinesM]
  split
  · rfl
  · split
    · split
      · split <;> rfl
      · rfl
    · rfl

/-- Induction over the lines that are passed over. -/
@[elab_as_elim]
theorem passDeeperLines_induction (depth : Nat) {motive : Lexer → Prop}
    (ended : ∀ l : Lexer, l.kind = .eof → l.passDeeperLines depth = .ok l → motive l)
    (stopped : ∀ l : Lexer, ¬l.kind = .eof → (l.token.depth ≤ depth ∨ l.passSpace.endsLine) →
      (l.passDeeperLines depth =
        if l.kind = .space ∧ l.passSpace.kind ≠ .eof then
          match l.passSpace.pushBack with
          | .ok l' => .ok l'
          | .error cause => .error (l.passSpace.pushBackFault cause)
        else .ok l.passSpace) → motive l)
    (deeper : ∀ l : Lexer, ¬l.kind = .eof → ¬(l.token.depth ≤ depth ∨ l.passSpace.endsLine) →
      l.passDeeperLines depth = l.passSpace.passLine.passDeeperLines depth →
      motive l.passSpace.passLine → motive l)
    (l : Lexer) : motive l := by
  by_cases he : l.kind = .eof
  · exact ended l he (by rw [passDeeperLines_eq l, if_pos he])
  · by_cases hs : l.token.depth ≤ depth ∨ l.passSpace.endsLine
    · exact stopped l he hs (by rw [passDeeperLines_eq l, if_neg he, if_pos hs])
    · exact deeper l he hs (by rw [passDeeperLines_eq l, if_neg he, if_neg hs])
        (passDeeperLines_induction depth ended stopped deeper l.passSpace.passLine)
termination_by l.remaining
decreasing_by
  have hl : l.passSpace.endsLine = false := by simp_all
  exact Nat.lt_of_lt_of_le (remaining_passLine_lt hl) (remaining_passSpace_le l)

theorem recover_eq (l : Lexer) (depth : Nat) :
    l.recover depth = (l.inMode .line).passLine.passDeeperLines depth := rfl

theorem remaining_takeDeeperLines_le (l : Lexer) (depth : Nat) :
    (l.takeDeeperLines depth).2.remaining ≤ l.remaining := by
  induction l using takeDeeperLines_induction depth with
  | gap l hb _ heq ih =>
    rw [heq]
    exact Nat.le_trans ih (Nat.le_of_lt (remaining_passBlankLine_lt hb))
  | below l _ _ heq => exact Nat.le_of_eq (by rw [heq])
  | deeper l _ _ heq ih =>
    rw [heq]
    exact Nat.le_trans ih (remaining_passLine_le l)
  | outside l _ _ heq => exact Nat.le_of_eq (by rw [heq])

theorem remaining_takeBlock_lt {l : Lexer} (h : l.endsLine = false) (depth : Nat) :
    (l.takeBlock depth).2.remaining < l.remaining :=
  Nat.lt_of_le_of_lt (remaining_takeDeeperLines_le _ depth) (remaining_passLine_lt h)

theorem remaining_pushBack_next {l l' : Lexer} (h : l.next.pushBack = .ok l') :
    l'.remaining = l.remaining := by
  by_cases hk : l.next.kind = .eof
  · simp [pushBack, hk] at h
  · rw [pushBack_next hk] at h
    cases h
    rfl

theorem remaining_passDeeperLines_le {l l' : Lexer} {depth : Nat}
    (h : l.passDeeperLines depth = .ok l') : l'.remaining ≤ l.remaining := by
  induction l using passDeeperLines_induction depth with
  | ended l _ heq =>
    rw [heq] at h
    cases h
    exact Nat.le_refl _
  | stopped l _ _ heq =>
    rw [heq] at h
    split at h
    · rename_i hs
      have hn : l.passSpace = l.next := by simp [passSpace, hs.1]
      rw [hn] at h
      split at h
      · rename_i b hb
        cases h
        exact Nat.le_of_eq (remaining_pushBack_next hb)
      · cases h
    · cases h
      exact remaining_passSpace_le l
  | deeper l _ _ heq ih =>
    rw [heq] at h
    have h1 := ih h
    have h2 := remaining_passLine_le l.passSpace
    have h3 := remaining_passSpace_le l
    omega

theorem remaining_recover_le {l l' : Lexer} {depth : Nat} (h : l.recover depth = .ok l') :
    l'.remaining ≤ l.remaining :=
  Nat.le_trans (remaining_passDeeperLines_le h) (remaining_passLine_le (l.inMode .line))

theorem remaining_recover_lt {l l' : Lexer} {depth : Nat} (hl : l.endsLine = false)
    (h : l.recover depth = .ok l') : l'.remaining < l.remaining :=
  Nat.lt_of_le_of_lt (remaining_passDeeperLines_le h)
    (remaining_passLine_lt (l := l.inMode .line) hl)

end Haml.Lexer
