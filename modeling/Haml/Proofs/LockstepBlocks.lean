import Haml.Proofs.LineMode
import Haml.Proofs.Lockstep

/-!
# Blocks in lockstep

Whether the block of a line goes on, and which lines it has, is found line by line: blank
lines are passed, and the first one that is not decides. Lexers in lockstep take the same
lines, as long as both have them.
-/

namespace Haml.Lexer

variable {l l' : Lexer} {depth : Nat}

/-! ### Line by line -/

theorem breaksLine_of_ne (hl : l.kind ≠ .lineEnd) (hc : l.kind ≠ .continuation) :
    l.kind.breaksLine = false := by
  cases hk : l.kind with
  | lineEnd => exact absurd hk hl
  | continuation => exact absurd hk hc
  | _ => rfl

theorem deeperLineFollows_of_break (h : l.kind.breaksLine = true) (depth : Nat) :
    l.deeperLineFollows depth = l.next.deeperLineFollows depth := by
  rw [deeperLineFollows.eq_def]
  split
  · rfl
  · rfl
  · rename_i hk
    rw [hk] at h
    cases h
  · rename_i hl hc hs
    rw [breaksLine_of_ne hl hc] at h
    cases h

theorem deeperLineFollows_of_space (h : l.kind = .space) (depth : Nat) :
    l.deeperLineFollows depth =
      if l.next.kind = .eof then false
      else if l.next.endsLine then l.next.next.deeperLineFollows depth
      else decide (depth < l.token.depth) := by
  rw [deeperLineFollows.eq_def]
  split <;> simp_all

/-- A token that neither ends a line nor indents one ends the search at once. -/
theorem deeperLineFollows_of_other (hb : l.kind.breaksLine = false) (hs : l.kind ≠ .space)
    (depth : Nat) : l.deeperLineFollows depth = false := by
  rw [deeperLineFollows.eq_def]
  split
  · rename_i hk
    rw [hk] at hb
    cases hb
  · rename_i hk
    rw [hk] at hb
    cases hb
  · rename_i hk
    exact absurd hk hs
  · rfl

/-- Past a blank line the same is found. -/
theorem deeperLineFollows_of_blank (h : l.onBlankLine = true) (depth : Nat) :
    l.deeperLineFollows depth = l.passSpace.passLineEnd.deeperLineFollows depth ∧
      l.next.deeperLineFollows depth = l.deeperLineFollows depth := by
  cases hb : l.kind.breaksLine with
  | true =>
    have hs : l.kind ≠ .space := by
      intro hs
      rw [hs] at hb
      cases hb
    have hp : l.passSpace = l := if_neg hs
    rw [hp, passLineEnd, if_pos hb, deeperLineFollows_of_break hb]
    exact ⟨rfl, rfl⟩
  | false =>
    obtain ⟨hs, he⟩ : l.kind = .space ∧ l.next.endsLine = true := by
      simpa [onBlankLine, hb] using h
    have hp : l.passSpace = l.next := if_pos hs
    rw [hp, passLineEnd, deeperLineFollows_of_space hs, if_pos he]
    cases hb' : l.next.kind.breaksLine with
    | true =>
      rw [if_neg (kind_ne_eof_of_breaksLine hb'), if_pos rfl, deeperLineFollows_of_break hb']
      exact ⟨rfl, rfl⟩
    | false =>
      have hk : l.next.kind = .eof := by
        by_contra hk
        rw [endsLine_eq_false hk (by simp [hb'])] at he
        cases he
      have hfalse : l.next.deeperLineFollows depth = false :=
        deeperLineFollows_of_other hb' (by simp [hk]) depth
      rw [if_pos hk, if_neg (by simp), hfalse]
      exact ⟨rfl, rfl⟩

theorem deeperLineFollows_of_visible (h : l.onBlankLine = false) (depth : Nat) :
    l.deeperLineFollows depth = decide (depth < l.token.depth) := by
  have hb : l.kind.breaksLine = false := (Bool.or_eq_false_iff.1 h).1
  by_cases hs : l.kind = .space
  · have he : l.next.endsLine = false := by
      simpa [onBlankLine, hs, Token.Kind.breaksLine] using h
    rw [deeperLineFollows_of_space hs, if_neg (kind_ne_eof_of_not_endsLine he), he]
    rfl
  · have hdepth : l.token.depth = 0 := if_neg hs
    rw [deeperLineFollows_of_other hb hs, hdepth]
    rfl

theorem takeDeeperLines_of_blank (h : l.onBlankLine = true) :
    l.takeDeeperLines depth =
      if l.deeperLineFollows depth then
        ([] :: (l.passSpace.passLineEnd.takeDeeperLines depth).1,
          (l.passSpace.passLineEnd.takeDeeperLines depth).2)
      else ([], l) := by
  rw [takeDeeperLines_eq, if_pos h, (deeperLineFollows_of_blank h depth).2]

theorem takeDeeperLines_of_deeper (h : l.onBlankLine = false) (hd : depth < l.token.depth) :
    l.takeDeeperLines depth =
      (l.takeLine.1.drop (2 * depth) :: (l.passLine.takeDeeperLines depth).1,
        (l.passLine.takeDeeperLines depth).2) := by
  rw [takeDeeperLines_eq, if_neg (by simp [h]), if_pos hd]

theorem takeDeeperLines_of_le (h : l.onBlankLine = false) (hd : l.token.depth ≤ depth) :
    l.takeDeeperLines depth = ([], l) := by
  rw [takeDeeperLines_eq, if_neg (by simp [h]), if_neg (by omega)]

/-- Where no deeper line follows, the block has ended. -/
theorem takeDeeperLines_of_ended (h : l.deeperLineFollows depth = false) :
    l.takeDeeperLines depth = ([], l) := by
  cases hb : l.onBlankLine with
  | true => rw [takeDeeperLines_of_blank hb, h, if_neg (by simp)]
  | false =>
    rw [deeperLineFollows_of_visible hb, decide_eq_false_iff_not, Nat.not_lt] at h
    exact takeDeeperLines_of_le hb h

theorem endsLine_of_onBlankLine (h : l.onBlankLine = true) : l.passSpace.endsLine = true := by
  by_cases hs : l.kind = .space
  · rw [passSpace, if_pos hs]
    simpa [onBlankLine, hs, Token.Kind.breaksLine] using h
  · rw [passSpace, if_neg hs]
    have hb : l.kind.breaksLine = true := by simpa [onBlankLine, hs] using h
    cases hk : l.kind <;> simp_all [endsLine, Token.Kind.breaksLine, Token.Kind.endsLine]

/-! ### Two lexers -/

/-- Lexers behind a line are near one another or decide at once whether a block goes on. One
that goes on for the first alone is taken over what `Over` speaks of. -/
structure Resumes (Near Past Over : Lexer → Lexer → Prop) : Prop where
  near {l l' : Lexer} : Past l l' → l.kind ≠ .eof ∧ Near l l' ∨ ∀ depth,
    (l.deeperLineFollows depth = false ∧ l'.deeperLineFollows depth = false) ∨
      l.deeperLineFollows depth = true ∧ Over l (l.takeDeeperLines depth).2
  earlier {l m f : Lexer} : l.Reaches m → Over m f → Over l f

theorem deeperLineFollows_of_eof (h : l.kind = .eof) (depth : Nat) :
    l.deeperLineFollows depth = false :=
  deeperLineFollows_of_other (by rw [h]; rfl) (by simp [h]) depth

/-- Nothing is taken over where the lexers part only at the end of the first. -/
theorem resumes_of_eof {Near Past : Lexer → Lexer → Prop}
    (near : ∀ {l l'}, Past l l' → l.kind ≠ .eof → Near l l')
    (stop : ∀ {l l'}, Past l l' → l.kind = .eof → ∀ depth, l'.deeperLineFollows depth = false) :
    Resumes Near Past fun _ _ => False where
  near {l l'} h := by
    by_cases hk : l.kind = .eof
    · exact .inr fun depth => .inl ⟨deeperLineFollows_of_eof hk depth, stop h hk depth⟩
    · exact .inl ⟨hk, near h hk⟩
  earlier _ h := h

theorem Together.onBlankLine {L : Likeness} {Near : Lexer → Lexer → Prop} (H : Together L Near)
    (h : Near l l') (hm : l.mode = .line) (hk : l.kind ≠ .eof) :
    l'.onBlankLine = l.onBlankLine := by
  by_cases hs : l.kind = .space
  · have hnext := H.within h hm (by rw [Lexer.endsLine, hs]; rfl)
    simp only [Lexer.onBlankLine, H.kind_eq h hk, H.endsLine hnext]
  · simp [Lexer.onBlankLine, H.kind_eq h hk, hs]

namespace Lockstep

variable {L : Likeness} {Near Past Over : Lexer → Lexer → Prop}
  {Lost : Prop → Lexer → Lexer → Prop} (H : Lockstep L Near Past Lost)
  (R : Resumes Near Past Over)

include H

theorem passLine (h : Near l l') (hm : l.mode = .line) : Past l.passLine l'.passLine :=
  H.past (H.takeLine h hm).2 ((reaches_takeLine l).mode hm) (endsLine_takeLine hm)

theorem passBlankLine (h : Near l l') (hm : l.mode = .line) (hb : l.onBlankLine = true) :
    Past l.passSpace.passLineEnd l'.passSpace.passLineEnd :=
  H.past (H.passSpace_within h hm) ((reaches_passSpace l).mode hm) (endsLine_of_onBlankLine hb)

include R

/-- Whether a block goes on shows to both, unless it goes on over what only the first has. -/
theorem deeperLineFollows (h : Past l l') (hm : l.mode = .line) (depth : Nat) :
    l'.deeperLineFollows depth = l.deeperLineFollows depth ∨
      l.deeperLineFollows depth = true ∧ Over l (l.takeDeeperLines depth).2 := by
  induction hn : l.remaining using Nat.strongRecOn generalizing l l' with
  | _ n ih =>
  rcases R.near h with ⟨hk, h⟩ | hend
  · have hblank := H.onBlankLine h hm hk
    cases hb : l.onBlankLine with
    | true =>
      have hreach := (reaches_passSpace l).trans (reaches_passLineEnd _)
      rw [(deeperLineFollows_of_blank (hblank.trans hb) depth).1,
        (deeperLineFollows_of_blank hb depth).1]
      refine (ih _ (hn ▸ remaining_passBlankLine_lt hb) (H.passBlankLine h hm hb)
        (hreach.mode hm) rfl).imp_right ?_
      rintro ⟨hd, hover⟩
      rw [takeDeeperLines_of_blank hb, if_pos ((deeperLineFollows_of_blank hb depth).1.trans hd)]
      exact ⟨hd, R.earlier hreach hover⟩
    | false =>
      left
      rw [deeperLineFollows_of_visible (hblank.trans hb), deeperLineFollows_of_visible hb,
        H.depth h]
  · exact (hend depth).imp_left fun hnone => hnone.2.trans hnone.1.symm

/-- The lines of a block are taken alike, unless they are taken over what only the first has. -/
theorem takeDeeperLines (h : Past l l') (hm : l.mode = .line) (depth : Nat) :
    Over l (l.takeDeeperLines depth).2 ∨
      (l'.takeDeeperLines depth).1 = (l.takeDeeperLines depth).1 ∧
        Past (l.takeDeeperLines depth).2 (l'.takeDeeperLines depth).2 := by
  induction hn : l.remaining using Nat.strongRecOn generalizing l l' with
  | _ n ih =>
  rcases H.deeperLineFollows R h hm depth with hfollows | ⟨-, hover⟩
  swap
  · exact .inl hover
  cases hd : l.deeperLineFollows depth with
  | false =>
    rw [takeDeeperLines_of_ended hd, takeDeeperLines_of_ended (hfollows.trans hd)]
    exact .inr ⟨rfl, h⟩
  | true =>
    rcases R.near h with ⟨hk, h⟩ | hend
    swap
    · -- the block goes on for the first lexer, so it is the other case of `near`
      exact .inl ((hend depth).resolve_left fun hnone => by simp [hd] at hnone).2
    have hblank := H.onBlankLine h hm hk
    cases hb : l.onBlankLine with
    | true =>
      have hreach := (reaches_passSpace l).trans (reaches_passLineEnd _)
      rw [takeDeeperLines_of_blank hb, takeDeeperLines_of_blank (hblank.trans hb), hfollows, hd,
        if_pos rfl, if_pos rfl]
      rcases ih _ (hn ▸ remaining_passBlankLine_lt hb) (H.passBlankLine h hm hb)
        (hreach.mode hm) rfl with hover | ⟨hlines, hlexer⟩
      · exact .inl (R.earlier hreach hover)
      · exact .inr ⟨by rw [hlines], hlexer⟩
    | false =>
      rw [deeperLineFollows_of_visible hb, decide_eq_true_eq] at hd
      rw [takeDeeperLines_of_deeper hb hd,
        takeDeeperLines_of_deeper (hblank.trans hb) (by rwa [H.depth h]), (H.takeLine h hm).1]
      rcases ih _ (hn ▸ remaining_passLine_lt (endsLine_eq_false_of_depth hd)) (H.passLine h hm)
        ((reaches_passLine l).mode hm) rfl with hover | ⟨hlines, hlexer⟩
      · exact .inl (R.earlier (reaches_passLine l) hover)
      · exact .inr ⟨by rw [hlines], hlexer⟩

theorem takeBlock (h : Near l l') (hm : l.mode = .line) (depth : Nat) :
    Over l (l.takeBlock depth).2 ∨
      (l'.takeBlock depth).1 = (l.takeBlock depth).1 ∧
        Past (l.takeBlock depth).2 (l'.takeBlock depth).2 :=
  (H.takeDeeperLines R (H.passLine h hm) ((reaches_passLine l).mode hm) depth).imp_left
    (R.earlier (reaches_passLine l))

end Lockstep

end Haml.Lexer
