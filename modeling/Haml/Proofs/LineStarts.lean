import Haml.Proofs.Locality
import Haml.Proofs.LockstepLines

/-!
# Where lines start

Right behind a token that breaks its line the column is zero, and behind any other token
it is not. Every line is read up to the start of the next one, but for a tag without
inner white space, which may leave its line end to be read: what is read of a line stops
on a token that was just scanned.
-/

namespace Haml

theorem Text.openLine_eq_nil_iff {t : Text} :
    t.openLine = [] ↔ ∀ c, t.getLast? = some c → isLineBreak c = true := by
  rw [openLine, List.reverse_eq_nil_iff, List.getLast?_eq_head?_reverse]
  cases t.reverse with
  | nil => simp
  | cons c u => simp [List.takeWhile_cons]

/-- A text at the cursor is passed, and everything counted anew. -/
theorem Cursor.skip_counted {before m r : Text} (hs : Unsplit before (m ++ r))
    (hm : Unsplit m r) : (counted before (m ++ r)).skip m = counted (before ++ m) r := by
  obtain ⟨before', r', hsource, -, heq⟩ :=
    Counted.skip ⟨before, m ++ r, rfl, hs, rfl⟩ m
  have hrest : r' = r := by
    have h := (skip_exact (c := counted before (m ++ r)) rfl hm).2.1
    rw [heq] at h
    exact h
  subst hrest
  rw [heq, List.append_cancel_right (hsource.symm.trans (List.append_assoc before m r').symm)]

/-- A lexeme that breaks the line ends with a line end. -/
theorem Lexeme.lineBreak_of_breaksLine {mode : Mode} {t : Text} {x : Lexeme}
    (h : read? mode t = some x) (hk : x.kind.breaksLine = true) :
    ∃ c, x.matched.getLast? = some c ∧ isLineBreak c = true := by
  have hend {e : Text} (he : Pattern.lineEnd e = some e) :
      ∃ c, e.getLast? = some c ∧ isLineBreak c = true := by
    unfold Pattern.lineEnd at he
    split at he <;> cases he
    · exact ⟨'\n', rfl, rfl⟩
    · exact ⟨'\n', rfl, rfl⟩
    · exact ⟨'\r', rfl, rfl⟩
  have hcases : x.kind = .lineEnd ∨ x.kind = .continuation := by
    cases hx : x.kind <;> simp_all [Token.Kind.breaksLine]
  rcases hcases with hl | hc
  · exact hend (Pattern.lineEnd_self (lineEnd_of_read? h hl))
  · obtain ⟨b, e, hm, -, he⟩ := bar_of_continuation h hc
    obtain ⟨c, hlast, hb⟩ := hend he
    refine ⟨c, ?_, hb⟩
    have hne : e ≠ [] := by
      rintro rfl
      cases hlast
    rw [hm, ← List.cons_append, List.getLast?_append_of_ne_nil _ hne, hlast]

def Contents.isExpression : Contents → Bool
  | .expression .. => true
  | .text .. => false

def Line.leavesEnd : Line → Bool
  | .tag head contents => !head.options.inner && contents.isExpression
  | _ => false

namespace Lexer

variable {source : Text} {l : Lexer}

/-- The current token was just scanned, and the cursor is right behind it. -/
structure OnToken (source : Text) (l : Lexer) : Prop where
  counts : l.Counts source
  scanned : ∃ mode c, c.Counted source ∧ scan mode c = (l.token, l.cursor)

theorem Counts.onToken_next (h : l.Counts source) : l.next.OnToken source :=
  ⟨h.next, l.mode, l.cursor, h.cursor, rfl⟩

namespace OnToken

/-- The token is the end of the source, or a lexeme of the text before it. -/
theorem cases (h : l.OnToken source) :
    l.kind = .eof ∧ l.rest = [] ∨
      ∃ mode before x r, Lexeme.read? mode (x.matched ++ r) = some x ∧ l.kind = x.kind ∧
        l.token.matched = x.matched ∧ l.token.span.column = before.openLine.length + 1 ∧
        Unsplit before (x.matched ++ r) ∧ l.cursor = .counted (before ++ x.matched) r := by
  obtain ⟨mode, c, ⟨before, rest, hsource, hs, rfl⟩, hscan⟩ := h.scanned
  cases hx : Lexeme.read? mode rest with
  | none =>
    have hnil := Lexeme.read?_eq_none.1 hx
    rw [scan_of_nil hnil] at hscan
    obtain ⟨htoken, hcursor⟩ := Prod.mk.inj hscan
    refine .inl ⟨by rw [kind, ← htoken], ?_⟩
    rw [Lexer.rest, ← hcursor]
    exact hnil
  | some x =>
    obtain ⟨r, rfl, hm⟩ := Lexeme.read?_cuts hx
    have hx' : Lexeme.read? mode (Cursor.counted before (x.matched ++ r)).rest = some x := hx
    simp only [scan, hx', Cursor.skip_counted hs hm] at hscan
    obtain ⟨htoken, hcursor⟩ := Prod.mk.inj hscan
    exact .inr ⟨mode, before, x, r, hx, by rw [kind, ← htoken], by rw [← htoken],
      by rw [← htoken]; rfl, hs, hcursor.symm⟩

theorem column_of_breaksLine (h : l.OnToken source) (hk : l.kind.breaksLine = true) :
    l.cursor.column = 0 := by
  rcases h.cases with ⟨he, -⟩ | ⟨mode, before, x, r, hx, hkind, -, -, -, hc⟩
  · rw [he] at hk
    cases hk
  · obtain ⟨c, hlast, hb⟩ := Lexeme.lineBreak_of_breaksLine hx (hkind ▸ hk)
    have hopen : Text.openLine (before ++ x.matched) = [] := by
      rw [Text.openLine_eq_nil_iff, List.getLast?_append_of_ne_nil _ (Lexeme.matched_ne_nil hx)]
      intro a ha
      rw [hlast] at ha
      cases ha
      exact hb
    rw [hc, Cursor.counted, hopen]
    rfl

theorem column_pos (h : l.OnToken source) (hk : l.endsLine = false) : 0 < l.cursor.column := by
  rcases h.cases with ⟨he, -⟩ | ⟨mode, before, x, r, hx, hkind, -, -, -, hc⟩
  · exact absurd he (kind_ne_eof_of_not_endsLine hk)
  · have hb : x.kind.breaksLine = false := hkind ▸ breaksLine_eq_false hk
    have hne := Lexeme.matched_ne_nil hx
    obtain ⟨c, hlast⟩ := Option.ne_none_iff_exists'.1 (mt List.getLast?_eq_none_iff.1 hne)
    rw [hc]
    refine List.length_pos_iff.2 fun hopen => ?_
    rw [Text.openLine_eq_nil_iff, List.getLast?_append_of_ne_nil _ hne] at hopen
    have hbreak := hopen c hlast
    rw [Lexeme.solid_read? hx hb hlast] at hbreak
    cases hbreak

theorem next (h : l.OnToken source) : l.next.OnToken source := h.counts.onToken_next

theorem inMode (h : l.OnToken source) (mode : Mode) : (l.inMode mode).OnToken source :=
  ⟨h.counts.act (.setMode mode), h.scanned⟩

theorem passSpace (h : l.OnToken source) : l.passSpace.OnToken source := by
  simp only [Lexer.passSpace]
  split
  · exact h.next
  · exact h

theorem passLineEnd (h : l.OnToken source) : l.passLineEnd.OnToken source := by
  simp only [Lexer.passLineEnd]
  split
  · exact h.next
  · exact h

end OnToken

theorem Counts.onToken_takeContinued (h : l.Counts source) (segment : Text) :
    (l.takeContinued segment).2.OnToken source := by
  fun_induction Lexer.takeContinued l segment with
  | case1 l segment l' _ more _ r ih => exact ih (h.skip segment).next
  | case2 l segment => exact (h.skip segment).onToken_next
  | case3 l segment => exact (h.skip segment).onToken_next

/-- The rest of a line that has not ended is taken up to a token that is scanned for it. -/
theorem Counts.onToken_takeLine (h : l.Counts source) (hl : l.endsLine = false) :
    l.takeLine.2.OnToken source := by
  simp only [Lexer.takeLine, hl, Bool.false_eq_true, if_false]
  split
  · exact h.onToken_takeContinued _
  · exact (h.skip _).onToken_next

namespace OnToken

theorem takeLine (h : l.OnToken source) : l.takeLine.2.OnToken source := by
  cases hl : l.endsLine with
  | true =>
    rw [takeLine_of_endsLine hl]
    exact h
  | false => exact h.counts.onToken_takeLine hl

/-! ### Tags that are read -/

theorem readName (h : l.OnToken source) : l.readName.2.OnToken source := by
  simp only [Lexer.readName]
  split
  · exact h.next
  · exact h

theorem readSelectors (h : l.OnToken source) : l.readSelectors.2.OnToken source := by
  fun_induction Lexer.readSelectors l with
  | case1 l _ r ih => exact ih h.next
  | case2 l _ _ r ih => exact ih h.next
  | case3 l _ _ => exact h

theorem readReference (h : l.OnToken source) : l.readReference.2.OnToken source := by
  simp only [Lexer.readReference]
  split
  · exact h.next
  · exact h

theorem readSpaceMarks (h : l.OnToken source) (o : TagOptions) :
    (l.readSpaceMarks o).2.OnToken source := by
  fun_induction Lexer.readSpaceMarks o l with
  | case1 o l _ ih => exact ih h.next
  | case2 o l _ _ ih => exact ih h.next
  | case3 o l _ _ => exact h

theorem readMarks (h : l.OnToken source) : l.readMarks.2.OnToken source := by
  simp only [Lexer.readMarks]
  split
  · exact h.next.readSpaceMarks _
  · exact h.readSpaceMarks _

theorem readAttributeList (h : l.OnToken source) {pairs : List (Text × Text)}
    (hv : l.readAttributeList.value = .ok pairs) : l.readAttributeList.lexer.OnToken source := by
  have hcounts := ((reaches_readAttributes _).counts (h.inMode .list).next.counts).act
    (.setMode .line)
  simp only [Lexer.readAttributeList] at hv ⊢
  split
  · rename_i hk
    simp only [hk, if_true] at hv
    split
    · exact hcounts.onToken_next
    · rename_i he
      rw [he] at hv
      cases hv
  · exact h

theorem readAttributeHash (h : l.OnToken source) {entries : List (Text × Text)}
    (hv : l.readAttributeHash.value = .ok entries) :
    l.readAttributeHash.lexer.OnToken source := by
  have hcounts := ((reaches_readHashEntries _).counts (h.inMode .hash).next.counts).act
    (.setMode .line)
  simp only [Lexer.readAttributeHash] at hv ⊢
  split
  · rename_i hk
    simp only [hk, if_true] at hv
    split
    · exact hcounts.onToken_next
    · rename_i he
      rw [he] at hv
      cases hv
  · exact h

end OnToken

/-- What stands behind the list of a tag that is read, and behind the whole tag. -/
theorem OnToken.readTag (h : l.OnToken source) {depth : Nat} {head : TagHead}
    (hv : (l.readTag depth).value = .ok head) :
    l.behindList.OnToken source ∧ (l.readTag depth).lexer.OnToken source ∧
      (l.readTag depth).lexer = l.tagMarks.2 ∧ head.point = l.behindList.point := by
  have hbefore := h.readName.readSelectors.readReference
  cases hl : l.readName.2.readSelectors.2.readReference.2.readAttributeList.value with
  | error d =>
    simp only [Lexer.readTag, hl] at hv
    cases hv
  | ok pairs =>
    have hlist : l.behindList.OnToken source := hbefore.readAttributeList hl
    cases hh : l.behindList.readAttributeHash.value with
    | error d =>
      rw [behindList] at hh
      simp only [Lexer.readTag, hl, hh] at hv
      cases hv
    | ok entries =>
      have hmarks : l.tagMarks.2.OnToken source := (hlist.readAttributeHash hh).readMarks
      rw [readTag_of_ok depth hl hh] at hv ⊢
      split at hv
      · cases hv
      · rename_i hc
        rw [if_neg hc]
        cases hv
        exact ⟨hlist, hmarks, rfl, rfl⟩

/-! ### Starts of lines -/

/-- The lexer is on the first token of a line, or at the end of the source. -/
structure AtLine (source : Text) (l : Lexer) : Prop where
  onToken : l.OnToken source
  starts : l.kind = .eof ∨ l.token.span.column = 1

theorem column_next (l : Lexer) : l.next.token.span.column = l.cursor.column + 1 := by
  simp only [next, scan]
  split <;> rfl

theorem atLine_ofText (source : Text) : (ofText source).next.AtLine source :=
  ⟨(counts_ofText source).onToken_next, .inr (column_next _)⟩

namespace OnToken

/-- Behind a line end stands the start of a line. -/
theorem atLine_next (h : l.OnToken source) (hk : l.kind.breaksLine = true) :
    l.next.AtLine source :=
  ⟨h.next, .inr (by rw [column_next, h.column_of_breaksLine hk])⟩

theorem atLine_passLineEnd (h : l.OnToken source) (hl : l.endsLine = true) :
    l.passLineEnd.AtLine source := by
  simp only [Lexer.passLineEnd]
  split
  · rename_i hb
    exact h.atLine_next hb
  · rename_i hb
    refine ⟨h, .inl ?_⟩
    by_contra he
    rw [endsLine_eq_false he hb] at hl
    cases hl

theorem atLine_passLine (h : l.OnToken source) (hm : l.mode = .line) : l.passLine.AtLine source :=
  h.takeLine.atLine_passLineEnd (endsLine_takeLine hm)

theorem atLine_endText (h : l.OnToken source) {t : Text} {i : Bool} {n : Nat} {c : Contents}
    (hv : (l.endText t i n).value = .ok c) : (l.endText t i n).lexer.AtLine source := by
  simp only [endText] at hv ⊢
  split at hv
  · rename_i hl
    rw [if_pos hl]
    exact h.atLine_passLineEnd hl
  · cases hv

/-- Contents are read up to the next line; an expression without white space around it
leaves its line end to be read. -/
theorem atLine_readContents (h : l.OnToken source) (hm : l.mode = .line) {inner : Bool}
    {c : Contents} (hv : (l.readContents inner).value = .ok c) :
    (l.readContents inner).lexer.AtLine source ∨
      (inner = false ∧ c.isExpression = true) ∧ (l.readContents inner).lexer.OnToken source ∧
        (l.readContents inner).lexer.endsLine = true := by
  have hspace := h.passSpace
  have hmode := (reaches_passSpace l).mode hm
  simp only [readContents, readBody_eq] at hv ⊢
  split at hv
  · rename_i ha
    rw [if_pos ha]
    cases hv
    have hline := endsLine_takeLine (l := l.passSpace.next) hmode
    cases inner with
    | false => exact .inr ⟨⟨rfl, rfl⟩, hspace.next.takeLine, hline⟩
    | true => exact .inl (hspace.next.takeLine.atLine_passLineEnd hline)
  · rename_i ha
    rw [if_neg ha]
    split at hv
    · rename_i hb
      rw [if_pos hb]
      exact .inl (hspace.next.passSpace.takeLine.atLine_endText hv)
    · rename_i hb
      rw [if_neg hb]
      exact .inl (hspace.takeLine.atLine_endText hv)

end OnToken

theorem AtLine.takeDeeperLines (h : l.AtLine source) (hm : l.mode = .line) (depth : Nat) :
    (l.takeDeeperLines depth).2.AtLine source := by
  induction l using Lexer.takeDeeperLines_induction depth with
  | gap l hb _ heq ih =>
    rw [heq]
    have hmode := ((reaches_passSpace l).trans (reaches_passLineEnd _)).mode hm
    refine ih (h.onToken.passSpace.atLine_passLineEnd ?_) hmode
    by_cases hs : l.kind = .space
    · simpa [Lexer.passSpace, hs, onBlankLine, Token.Kind.breaksLine] using hb
    · have hbreaks : l.kind.breaksLine = true := by simpa [onBlankLine, hs] using hb
      simp only [Lexer.passSpace, hs, if_false, endsLine]
      cases hk : l.kind <;> simp_all [Token.Kind.breaksLine, Token.Kind.endsLine]
  | deeper l _ _ heq ih =>
    rw [heq]
    exact ih (h.onToken.atLine_passLine hm) ((reaches_passLine l).mode hm)
  | below l _ _ heq | outside l _ _ heq =>
    rw [heq]
    exact h

theorem OnToken.atLine_takeBlock (h : l.OnToken source) (hm : l.mode = .line) (depth : Nat) :
    (l.takeBlock depth).2.AtLine source :=
  (h.atLine_passLine hm).takeDeeperLines ((reaches_passLine l).mode hm) depth

/-- A line that is read leads to the start of another one, or leaves its end to be read. -/
theorem OnToken.atLine_readLine (h : l.OnToken source) (hm : l.mode = .line) {depth : Nat}
    {x : Line} (hv : (l.readLine depth).value = .ok x) :
    (l.readLine depth).lexer.AtLine source ∨
      x.leavesEnd = true ∧ (l.readLine depth).lexer.OnToken source ∧
        (l.readLine depth).lexer.endsLine = true := by
  have hspace := (reaches_passSpace l.next).mode hm
  by_cases ha : l.kind.announcesExpression
  · rw [readLine_announced ha]
    exact .inl (h.next.atLine_passLine hm)
  by_cases ht : l.startsTag
  · cases htag : (l.readTag depth).value with
    | error d =>
      rw [readLine_refused ht htag] at hv
      cases hv
    | ok head =>
      have hmode := (advances_readTag ht depth).mode hm
      rw [readLine_tag ht htag] at hv ⊢
      obtain ⟨c, hc⟩ := ok_of_map_ok hv
      simp only [hc, Except.map] at hv
      cases hv
      refine ((h.readTag htag).2.1.atLine_readContents hmode hc).imp_right fun hleft => ?_
      obtain ⟨⟨hinner, hexpression⟩, hlexer⟩ := hleft
      exact ⟨by rw [Line.leavesEnd, hinner, hexpression]; rfl, hlexer⟩
  simp only [Lexer.readLine_eq, ha, ht] at hv ⊢
  split
  · exact .inl (h.next.passSpace.atLine_passLine hspace)
  · exact .inl (h.next.atLine_passLine hm)
  · exact .inl (h.atLine_takeBlock hm depth)
  · exact .inl (h.next.atLine_passLine hm)
  · exact .inl (h.next.passSpace.atLine_passLine hspace)
  · split at hv <;> try contradiction
    obtain ⟨c, hc⟩ := ok_of_map_ok hv
    exact .inl ((h.atLine_readContents hm hc).resolve_right fun hleft => by cases hleft.1.1)

theorem OnToken.readLine (h : l.OnToken source) (hm : l.mode = .line) {depth : Nat} {x : Line}
    (hv : (l.readLine depth).value = .ok x) : (l.readLine depth).lexer.OnToken source :=
  (h.atLine_readLine hm hv).elim AtLine.onToken fun hleft => hleft.2.1

end Lexer

end Haml
