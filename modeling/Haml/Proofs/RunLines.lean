import Haml.Proofs.PointPlaces

/-!
# Runs go from line to line

Line after line a run comes to the start of another line, or to a line end that a tag has
left to be read. This also holds behind a faulty line: what was read of it stops on a token
that was just scanned, or within a line, whose rest is passed over.
-/

namespace Haml

namespace Lexer

variable {source : Text} {l l' : Lexer} {depth : Nat}

/-- A token that ends its line was just scanned; of another line, more may have been passed
over. -/
structure Settled (source : Text) (l : Lexer) : Prop where
  counts : l.Counts source
  onToken : l.endsLine = true → l.OnToken source

theorem OnToken.settled (h : l.OnToken source) : l.Settled source := ⟨h.counts, fun _ => h⟩

theorem Counts.settled_next (h : l.Counts source) : l.next.Settled source :=
  h.onToken_next.settled

namespace Settled

theorem inMode (h : l.Settled source) (mode : Mode) : (l.inMode mode).Settled source :=
  ⟨h.counts.act (.setMode mode), fun hl => (h.onToken hl).inMode mode⟩

theorem passSpace (h : l.Settled source) : l.passSpace.Settled source := by
  simp only [Lexer.passSpace]
  split
  · exact h.counts.settled_next
  · exact h

theorem passBlank (h : l.Settled source) : l.passBlank.Settled source := by
  fun_induction Lexer.passBlank l with
  | case1 l _ ih => exact ih h.counts.settled_next
  | case2 l => exact h

/-- Within a line, text may be passed over. -/
theorem skip (h : l.Counts source) (hl : l.endsLine = false) (t : Text) :
    (l.skip t).Settled source := by
  refine ⟨h.skip t, fun hends => ?_⟩
  rw [endsLine, kind_skip, ← endsLine, hl] at hends
  cases hends

theorem readAttribute (h : l.Settled source) : l.readAttribute.lexer.Settled source := by
  have hsign := h.counts.settled_next.passSpace
  have hvalue := hsign.counts.settled_next.passSpace
  simp only [Lexer.readAttribute]
  split
  · split
    · exact hvalue.counts.settled_next
    · exact hvalue
  · exact hsign

theorem readAttributes (h : l.Settled source) : l.readAttributes.lexer.Settled source := by
  fun_induction Lexer.readAttributes l with
  | case1 l _ => exact h
  | case2 l _ e _ => exact h.readAttribute
  | case3 l _ a _ r ih => exact ih h.readAttribute
  | case4 l _ ih => exact ih h.counts.settled_next
  | case5 l _ ih => exact ih h.counts.settled_next
  | case6 l _ _ _ _ => exact h

theorem readAttributeList (h : l.Settled source) : l.readAttributeList.lexer.Settled source := by
  have hlist := ((h.inMode .list).counts.settled_next.readAttributes).inMode .line
  simp only [Lexer.readAttributeList]
  split
  · split
    · exact hlist.counts.settled_next
    · exact hlist
  · exact h

theorem readHashEntry (h : l.Settled source) : l.readHashEntry.lexer.Settled source := by
  have hsign := h.counts.settled_next.passSpace
  simp only [Lexer.readHashEntry]
  split
  · rename_i hk
    have hexpression : l.next.passSpace.readExpression.2.Settled source := by
      have hl : l.next.passSpace.endsLine = false := by rw [endsLine, hk]; rfl
      simp only [readExpression]
      split <;> exact skip hsign.counts hl _
    split
    · exact hexpression
    · split <;> exact hexpression
  · exact hsign

theorem readHashEntries (h : l.Settled source) : l.readHashEntries.lexer.Settled source := by
  fun_induction Lexer.readHashEntries l with
  | case1 l key _ => exact h.passBlank
  | case2 l key _ entry e _ => exact h.passBlank.readHashEntry
  | case3 l key _ entry e _ sign _ r ih =>
    exact ih h.passBlank.readHashEntry.counts.settled_next.passBlank.counts.settled_next
  | case4 l key _ entry e _ sign _ => exact h.passBlank.readHashEntry.counts.settled_next.passBlank
  | case5 l key _ entry e _ sign _ _ =>
    exact h.passBlank.readHashEntry.counts.settled_next.passBlank
  | case6 l key _ _ => exact h.passBlank

theorem readAttributeHash (h : l.Settled source) : l.readAttributeHash.lexer.Settled source := by
  have hhash := ((h.inMode .hash).counts.settled_next.readHashEntries).inMode .line
  simp only [Lexer.readAttributeHash]
  split
  · split
    · exact hhash.counts.settled_next
    · exact hhash
  · exact h

end Settled

namespace OnToken

theorem settled_readTag (h : l.OnToken source) (depth : Nat) :
    (l.readTag depth).lexer.Settled source := by
  cases hv : (l.readTag depth).value with
  | ok head => exact (h.readTag hv).2.1.settled
  | error d =>
    have hlist := h.readName.readSelectors.readReference.settled.readAttributeList
    simp only [Lexer.readTag] at hv ⊢
    split
    · exact hlist
    · rename_i hpairs
      split
      · exact hlist.readAttributeHash
      · rename_i hentries
        have hbehind := h.readName.readSelectors.readReference.readAttributeList hpairs
        have hmarks := (hbehind.readAttributeHash hentries).readMarks
        split <;> exact hmarks.settled

theorem readContents (h : l.OnToken source) (inner : Bool) :
    (l.readContents inner).lexer.OnToken source := by
  have htext {m : Lexer} (hm : m.OnToken source) (t : Text) (i : Bool) (n : Nat) :
      (m.endText t i n).lexer.OnToken source := by
    simp only [endText]
    split
    · exact hm.passLineEnd
    · exact hm
  have hspace := h.passSpace
  simp only [Lexer.readContents, readBody_eq]
  split
  · cases inner with
    | false => exact hspace.next.takeLine
    | true => exact hspace.next.takeLine.passLineEnd
  · split
    · exact htext hspace.next.passSpace.takeLine _ _ _
    · exact htext hspace.takeLine _ _ _

/-- Whether a line is read or refused, what was read of it is settled. -/
theorem settled_readLine (h : l.OnToken source) (hm : l.mode = .line) (depth : Nat) :
    (l.readLine depth).lexer.Settled source := by
  by_cases ht : l.startsTag
  · cases htag : (l.readTag depth).value with
    | error d =>
      rw [readLine_refused ht htag]
      exact h.settled_readTag depth
    | ok head =>
      rw [readLine_tag ht htag]
      exact ((h.readTag htag).2.1.readContents _).settled
  · have hline := h.next.takeLine.passLineEnd.settled
    have hspaced := h.next.passSpace.takeLine.passLineEnd.settled
    simp only [Lexer.readLine_eq, ht]
    split
    · exact hspaced
    · exact hline
    · exact (h.atLine_takeBlock hm depth).onToken.settled
    · exact hline
    · exact hspaced
    · split
      · exact hline
      · exact (h.readContents true).settled

end OnToken

/-! ### Behind a refused line -/

theorem AtLine.passDeeperLines (h : l.AtLine source) (hm : l.mode = .line)
    (hr : l.passDeeperLines depth = .ok l') : l'.AtLine source := by
  induction l using Lexer.passDeeperLines_induction depth with
  | ended l _ heq =>
    rw [heq] at hr
    cases hr
    exact h
  | stopped l hk _ heq =>
    rw [heq] at hr
    split at hr
    · -- The indentation is taken back, and the lexer is where it was.
      rename_i hs
      have hn : l.passSpace = l.next := if_pos hs.1
      rw [hn] at hr
      split at hr
      · rename_i b hb
        cases hr
        obtain ⟨hcursor, hsame, -⟩ := place_of_pushBack_next hb
        have hcounts := h.onToken.next.counts.act .pushBack
        rw [act, hb] at hcounts
        refine ⟨⟨hcounts, by rw [hcursor, hsame]; exact h.onToken.scanned⟩, ?_⟩
        rw [kind, hsame]
        exact h.starts
      · cases hr
    · rename_i hs
      cases hr
      by_cases hspace : l.kind = .space
      · exact ⟨h.onToken.passSpace, .inl (not_not.1 fun he => hs ⟨hspace, he⟩)⟩
      · rw [Lexer.passSpace, if_neg hspace]
        exact h
  | deeper l _ _ heq ih =>
    rw [heq] at hr
    have hspace := (reaches_passSpace l).mode hm
    exact ih (h.onToken.passSpace.atLine_passLine hspace) ((reaches_passLine _).mode hspace) hr

/-- Behind a refused line and its block stands the start of a line. -/
theorem Settled.atLine_recover (h : l.Settled source) (hr : l.recover depth = .ok l') :
    l'.AtLine source := by
  have hline := h.inMode .line
  refine AtLine.passDeeperLines ?_ ((reaches_passLine (l.inMode .line)).mode rfl) hr
  cases hl : (l.inMode .line).endsLine with
  | false => exact (hline.counts.onToken_takeLine hl).atLine_passLineEnd (endsLine_takeLine rfl)
  | true =>
    rw [passLine, takeLine_of_endsLine hl]
    exact (hline.onToken hl).atLine_passLineEnd hl

/-- The lexer is at the start of a line, or on a line end that was left to be read. -/
def BetweenLines (source : Text) (l : Lexer) : Prop :=
  l.AtLine source ∨ l.OnToken source ∧ l.endsLine = true

theorem BetweenLines.onToken (h : l.BetweenLines source) : l.OnToken source :=
  h.elim AtLine.onToken And.left

theorem BetweenLines.atLine (h : l.BetweenLines source) (hl : l.endsLine = false) :
    l.AtLine source := by
  refine h.resolve_right fun hend => ?_
  rw [hl] at hend
  cases hend.2

end Lexer

namespace Context

variable {ctx : Context} {source : Text} {stack stack' : ElementStack} {l l' : Lexer}
  {depth : Nat} {events : List Event}

theorem settled_construct (h : l.OnToken source) (hm : l.mode = .line) :
    (ctx.construct stack l depth).lexer.Settled source := by
  cases hl : l.endsLine with
  | true =>
    simp only [construct_eq]
    split
    · exact h.settled
    · split
      · exact h.next.settled
      · rename_i hk hb
        rw [Lexer.endsLine_eq_false hk hb] at hl
        cases hl
  | false =>
    rw [construct_of_written hl]
    simp only [ownStep_eq]
    split
    · have hblock := (h.atLine_takeBlock hm depth).onToken.settled
      simp only [filterStep_eq]
      split
      · exact h.settled
      · split
        · exact hblock
        · split <;> exact hblock
    · have hline := h.settled_readLine hm depth
      simp only [lexer_lineStep]
      exact hline

/-- A line without a fault leads to the start of another one, or leaves its end to be read. -/
theorem betweenLines_construct (h : l.OnToken source) (hm : l.mode = .line)
    (hf : (ctx.construct stack l depth).fault = none) :
    (ctx.construct stack l depth).lexer.BetweenLines source := by
  cases hl : l.endsLine with
  | true =>
    simp only [construct_eq]
    split
    · exact .inr ⟨h, hl⟩
    · split
      · rename_i hb
        exact .inl (h.atLine_next hb)
      · rename_i hk hb
        rw [Lexer.endsLine_eq_false hk hb] at hl
        cases hl
  | false =>
    rw [construct_of_written hl] at hf ⊢
    simp only [ownStep_eq] at hf ⊢
    split
    · rename_i hk
      have hblock := h.atLine_takeBlock hm depth
      simp only [hk, if_true, filterStep_eq] at hf ⊢
      split at hf
      · cases hf
      · split
        · exact .inl hblock
        · split <;> exact .inl hblock
    · rename_i hk
      simp only [hk, if_false] at hf ⊢
      rw [lexer_lineStep]
      cases hv : (l.readLine depth).value with
      | error d =>
        rw [fault_lineStep_of_error hv] at hf
        cases hf
      | ok x => exact (h.atLine_readLine hm hv).imp_right And.right

theorem betweenLines_step (h : l.BetweenLines source) (hm : l.mode = .line)
    (hf : (ctx.step stack l).fault = none) : (ctx.step stack l).lexer.BetweenLines source := by
  have htoken := h.onToken
  have hmode := (Lexer.reaches_passSpace l).mode hm
  simp only [step_eq] at hf ⊢
  split
  · rename_i hb
    exact .inl (htoken.atLine_next hb)
  rename_i hb
  rw [if_neg hb] at hf
  rcases lexer_indentedLine hf with ⟨hok, hlexer⟩ | ⟨-, hrecover⟩
  · rw [hlexer]
    exact betweenLines_construct htoken.passSpace hmode hok
  · exact .inl ((settled_construct htoken.passSpace hmode).atLine_recover hrecover)

/-- Wherever a run has come to, it is at the start of a line, or on a line end that was left
to be read. -/
theorem Steps.betweenLines (h : ctx.Steps stack l events stack' l') (hl : l.BetweenLines source)
    (hm : l.mode = .line) : l'.BetweenLines source := by
  induction h with
  | refl => exact hl
  | @head stack stack' l l' events _ hf _ ih =>
    exact ih (betweenLines_step hl hm hf) (ctx.mode_step stack hm)

end Context

end Haml
