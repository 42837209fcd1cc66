import Haml.Line.Reader
import Haml.Proofs.ExpressionSteps
import Haml.Proofs.TokenSpans

/-!
# Moves of a lexer

Whatever is read of a line, the lexer only makes moves off tokens before the end
of the source, passes texts that stand at its cursor, and changes its mode. With
each move less is left to read, so the number of moves is bounded; and a token
that is reached by a move starts behind the token that was left.
-/

namespace Haml

namespace Cursor

theorem position_step_le (c : Cursor) : c.position ≤ c.step.position := by
  unfold step
  split
  · exact Nat.le_refl _
  · exact Nat.le_add_right _ _
  · split <;> exact Nat.le_add_right _ _

theorem position_step_lt {c : Cursor} (h : c.rest ≠ []) : c.position < c.step.position := by
  unfold step
  split
  · contradiction
  · exact Nat.lt_add_of_pos_right (by decide)
  · split
    · exact Nat.lt_add_of_pos_right (by decide)
    · exact Nat.lt_add_of_pos_right (Char.utf8Size_pos _)

theorem position_skip_le (t : Text) (c : Cursor) : c.position ≤ (skip t c).position := by
  fun_induction skip t c with
  | case1 => exact Nat.le_refl _
  | case2 t c ih => exact Nat.le_trans (position_step_le c) ih
  | case3 x t c _ ih => exact Nat.le_trans (position_step_le c) ih

theorem position_skip_lt {t : Text} {c : Cursor} (ht : t ≠ []) (hc : c.rest ≠ []) :
    c.position < (skip t c).position := by
  fun_cases skip t c with
  | case1 => contradiction
  | case2 t => exact Nat.lt_of_lt_of_le (position_step_lt hc) (position_skip_le t c.step)
  | case3 x t _ => exact Nat.lt_of_lt_of_le (position_step_lt hc) (position_skip_le t c.step)

end Cursor

theorem OneLine.unsplit {m : Text} (hm : OneLine m) (r : Text) : Unsplit m r :=
  unsplit_of_getLast? (fun hl => absurd (hm '\r' (List.mem_of_getLast? hl)) (by decide)) r

theorem OneLine.cutOff {m t : Text} (hm : OneLine m) (h : m <+: t) : CutOff m t := by
  obtain ⟨r, rfl⟩ := h
  exact ⟨r, rfl, hm.unsplit r⟩

theorem oneLine_takeWhile (t : Text) : OneLine (t.takeWhile fun c => !isLineBreak c) := by
  intro c hc
  simpa using List.mem_takeWhile_imp hc

theorem Text.dropEndWhile_prefix (p : Char → Bool) (t : Text) : dropEndWhile p t <+: t := by
  have h := List.dropWhile_suffix p (l := t.reverse)
  rw [← List.reverse_prefix, List.reverse_reverse] at h
  exact h

/-- The text before a closing bar stands within its line. -/
theorem continued?_isPrefix {t segment : Text} (h : continued? t = some segment) :
    segment <+: t.takeWhile fun c => !isLineBreak c := by
  simp only [continued?] at h
  split at h
  · cases h
    exact (List.dropLast_prefix _).trans (Text.dropEndWhile_prefix _ _)
  · cases h

theorem continued?_oneLine {t segment : Text} (h : continued? t = some segment) :
    OneLine segment := fun c hc => oneLine_takeWhile t c ((continued?_isPrefix h).subset hc)

theorem continued?_cuts {t segment : Text} (h : continued? t = some segment) : CutOff segment t :=
  (continued?_oneLine h).cutOff ((continued?_isPrefix h).trans (List.takeWhile_prefix _))

namespace Lexer

/-- The lexer gets from one place to another with `n` moves, each off a token
before the end of the source. Between them it may pass a text behind its token,
change its mode, and take back a move that it just made, which does not count. -/
inductive Moves : Nat → Lexer → Lexer → Prop where
  | refl (l : Lexer) : Moves 0 l l
  | next {n : Nat} {l l' : Lexer} (h : Moves n l l') (hk : l'.kind ≠ .eof) : Moves (n + 1) l l'.next
  | skip {n : Nat} {l l' : Lexer} {t : Text} (h : Moves n l l') (ht : CutOff t l'.rest) :
      Moves n l (l'.skip t)
  | inMode {n : Nat} {l l' : Lexer} (h : Moves n l l') (mode : Mode) : Moves n l (l'.inMode mode)
  | back {n : Nat} {l l' b : Lexer} (h : Moves n l l') (hb : l'.next.pushBack = .ok b) : Moves n l b

/-- Some moves lead from one place to the other, perhaps none, and no more than
there is left to read. Who reads a template line goes on reading template lines. -/
structure Reaches (l l' : Lexer) : Prop where
  moves : ∃ n ≤ l.remaining, Moves n l l'
  mode : l.mode = .line → l'.mode = .line

structure Advances (l l' : Lexer) : Prop where
  moves : ∃ n, Moves (n + 1) l l'
  mode : l.mode = .line → l'.mode = .line

variable {l l' l'' b : Lexer} {m n : Nat}

theorem Moves.trans (h : Moves m l l') (h' : Moves n l' l'') : Moves (m + n) l l'' := by
  induction h' with
  | refl => exact h
  | next _ hk ih => exact (ih h).next hk
  | skip _ ht ih => exact (ih h).skip ht
  | inMode _ mode ih => exact (ih h).inMode mode
  | back _ hb ih => exact (ih h).back hb

/-- A move that is taken back leads to where it was made. -/
theorem place_of_pushBack_next (h : l.next.pushBack = .ok b) :
    b.cursor = l.cursor ∧ b.token = l.token ∧ b.mode = l.mode := by
  by_cases hk : l.next.kind = .eof
  · simp [pushBack, hk] at h
  · rw [pushBack_next hk] at h
    cases h
    exact ⟨rfl, rfl, rfl⟩

/-- Every move leaves less to read. -/
theorem Moves.add_remaining_le (h : Moves n l l') : n + l'.remaining ≤ l.remaining := by
  induction h with
  | refl => omega
  | next _ hk ih =>
    have := remaining_next_lt hk
    omega
  | @skip _ _ l' t _ _ ih =>
    have := remaining_skip_le l' t
    omega
  | inMode _ mode ih => exact ih
  | back _ hb ih =>
    rw [remaining_pushBack_next hb]
    exact ih

theorem position_next_le (l : Lexer) : l.cursor.position ≤ l.next.cursor.position := by
  simp only [next, scan]
  split
  · exact Nat.le_refl _
  · exact Cursor.position_skip_le _ _

theorem start_next (l : Lexer) : l.next.token.span.start = l.cursor.position := by
  simp only [next, scan]
  split <;> rfl

theorem Moves.position_le (h : Moves n l l') : l.cursor.position ≤ l'.cursor.position := by
  induction h with
  | refl => exact Nat.le_refl _
  | next _ _ ih => exact Nat.le_trans ih (position_next_le _)
  | skip _ _ ih => exact Nat.le_trans ih (Cursor.position_skip_le _ _)
  | inMode _ _ ih => exact ih
  | back _ hb ih =>
    rw [(place_of_pushBack_next hb).1]
    exact ih

/-- A token that moves lead to starts at or behind the end of the first one. -/
theorem Moves.position_le_start (h : Moves n l l') (hn : 0 < n) :
    l.cursor.position ≤ l'.token.span.start := by
  induction h with
  | refl => omega
  | next h _ _ =>
    rw [start_next]
    exact h.position_le
  | skip _ _ ih => exact ih hn
  | inMode _ _ ih => exact ih hn
  | back _ hb ih =>
    rw [(place_of_pushBack_next hb).2.1]
    exact ih hn

/-- The current token is the end of the source, or the cursor is behind its start. -/
def BehindStart (l : Lexer) : Prop := l.kind = .eof ∨ l.token.span.start < l.cursor.position

theorem behindStart_next (l : Lexer) : l.next.BehindStart := by
  by_cases hr : l.rest = []
  · exact .inl (kind_next_of_rest_nil hr)
  · right
    rw [start_next]
    simp only [next, scan]
    split
    · rename_i hn
      exact absurd (Lexeme.read?_eq_none.1 hn) hr
    · rename_i x hx
      exact Cursor.position_skip_lt (Lexeme.matched_ne_nil hx) hr

theorem Moves.behindStart (h : Moves n l l') (hl : l.BehindStart) : l'.BehindStart := by
  induction h with
  | refl => exact hl
  | next => exact behindStart_next _
  | skip _ _ ih =>
    exact (ih hl).imp id fun hs => Nat.lt_of_lt_of_le hs (Cursor.position_skip_le _ _)
  | inMode _ _ ih => exact ih hl
  | back _ hb ih =>
    obtain ⟨hc, ht, -⟩ := place_of_pushBack_next hb
    simp only [BehindStart, kind, hc, ht]
    exact ih hl

theorem Moves.reaches (h : Moves n l l') (hm : l.mode = .line → l'.mode = .line) : l.Reaches l' :=
  ⟨⟨n, Nat.le_trans (Nat.le_add_right _ _) h.add_remaining_le, h⟩, hm⟩

theorem Reaches.refl (l : Lexer) : l.Reaches l := (Moves.refl l).reaches id

theorem Reaches.trans (h : l.Reaches l') (h' : l'.Reaches l'') : l.Reaches l'' := by
  obtain ⟨m, -, hm⟩ := h.moves
  obtain ⟨n, -, hn⟩ := h'.moves
  exact (hm.trans hn).reaches fun hl => h'.mode (h.mode hl)

theorem Reaches.behindStart (h : l.Reaches l') (hl : l.BehindStart) : l'.BehindStart := by
  obtain ⟨n, -, hn⟩ := h.moves
  exact hn.behindStart hl

theorem Advances.reaches (h : l.Advances l') : l.Reaches l' := by
  obtain ⟨n, hn⟩ := h.moves
  exact hn.reaches h.mode

theorem Advances.trans (h : l.Advances l') (h' : l'.Reaches l'') : l.Advances l'' := by
  obtain ⟨m, hm⟩ := h.moves
  obtain ⟨n, -, hn⟩ := h'.moves
  exact ⟨⟨m + n, by simpa [Nat.add_right_comm] using hm.trans hn⟩, fun hl => h'.mode (h.mode hl)⟩

theorem Reaches.advances (h : l.Reaches l') (h' : l'.Advances l'') : l.Advances l'' := by
  obtain ⟨m, -, hm⟩ := h.moves
  obtain ⟨n, hn⟩ := h'.moves
  exact ⟨⟨m + n, hm.trans hn⟩, fun hl => h'.mode (h.mode hl)⟩

theorem Advances.start_lt (h : l.Advances l') (hl : l.BehindStart) (hk : l.kind ≠ .eof) :
    l.token.span.start < l'.token.span.start := by
  obtain ⟨n, hn⟩ := h.moves
  exact Nat.lt_of_lt_of_le (hl.resolve_left hk) (hn.position_le_start (Nat.succ_pos n))

theorem Advances.remaining_lt (h : l.Advances l') : l'.remaining < l.remaining := by
  obtain ⟨n, hn⟩ := h.moves
  have := hn.add_remaining_le
  omega

theorem advances_next (h : l.kind ≠ .eof) : l.Advances l.next := ⟨⟨0, (Moves.refl l).next h⟩, id⟩

theorem reaches_line (l : Lexer) : l.Reaches (l.inMode .line) :=
  ((Moves.refl l).inMode .line).reaches fun _ => rfl

/-- What is read in another mode, and the way back to template lines. -/
theorem reaches_within (mode : Mode) (hk : l.kind ≠ .eof) (h : (l.inMode mode).next.Reaches l') :
    l.Reaches (l'.inMode .line) := by
  obtain ⟨n, -, hn⟩ := h.moves
  have hin : Moves 1 l (l.inMode mode).next := ((Moves.refl l).inMode mode).next hk
  exact ((hin.trans hn).inMode .line).reaches fun _ => rfl

theorem reaches_skip {t : Text} (h : CutOff t l.rest) : l.Reaches (l.skip t) :=
  ((Moves.refl l).skip h).reaches id

theorem advances_skip_next {t : Text} (hk : l.kind ≠ .eof) (h : CutOff t l.rest) :
    l.Advances (l.skip t).next :=
  (reaches_skip h).advances (advances_next hk)

/-! ### Lines -/

theorem reaches_passSpace (l : Lexer) : l.Reaches l.passSpace := by
  simp only [passSpace]
  split
  · rename_i hs
    exact (advances_next (by simp [hs])).reaches
  · exact .refl l

theorem reaches_passLineEnd (l : Lexer) : l.Reaches l.passLineEnd := by
  simp only [passLineEnd]
  split
  · rename_i hb
    exact (advances_next (kind_ne_eof_of_breaksLine hb)).reaches
  · exact .refl l

theorem reaches_passBlank (l : Lexer) : l.Reaches l.passBlank := by
  fun_induction passBlank l with
  | case1 l h ih =>
    have hk : l.kind ≠ .eof := by rcases h with h | h <;> simp [h]
    exact (advances_next hk).reaches.trans ih
  | case2 l => exact .refl l

theorem advances_takeContinued {segment : Text} (hk : l.kind ≠ .eof) (h : CutOff segment l.rest) :
    l.Advances (l.takeContinued segment).2 := by
  fun_induction takeContinued l segment with
  | case1 l segment l' hk' more hm r ih =>
    exact (advances_skip_next hk h).trans (ih (by simp [hk']) (continued?_cuts hm)).reaches
  | case2 => exact advances_skip_next hk h
  | case3 => exact advances_skip_next hk h

theorem advances_takeLine (h : l.endsLine = false) : l.Advances l.takeLine.2 := by
  have hk := kind_ne_eof_of_not_endsLine h
  simp only [takeLine, h, Bool.false_eq_true, if_false]
  split
  · rename_i hc
    exact advances_takeContinued hk (continued?_cuts hc)
  · exact advances_skip_next hk ((oneLine_takeWhile _).cutOff (List.takeWhile_prefix _))

theorem reaches_takeLine (l : Lexer) : l.Reaches l.takeLine.2 := by
  cases h : l.endsLine with
  | true =>
    rw [takeLine_of_endsLine h]
    exact .refl l
  | false => exact (advances_takeLine h).reaches

theorem reaches_passLine (l : Lexer) : l.Reaches l.passLine :=
  (reaches_takeLine l).trans (reaches_passLineEnd _)

theorem advances_passLine (h : l.endsLine = false) : l.Advances l.passLine :=
  (advances_takeLine h).trans (reaches_passLineEnd _)

/-! ### Blocks -/

/-- Whether a deeper line follows is decided at some place further on. -/
theorem exists_deeperLineFollows (l : Lexer) (depth : Nat) : ∃ l', l.Reaches l' ∧
    l.deeperLineFollows depth =
      (l'.kind = .space && !l'.next.endsLine && depth < l'.token.depth : Bool) := by
  fun_induction deeperLineFollows l depth with
  | case1 l hk ih =>
    obtain ⟨l', h, heq⟩ := ih
    exact ⟨l', (advances_next (by simp [hk])).reaches.trans h, heq⟩
  | case2 l hk ih =>
    obtain ⟨l', h, heq⟩ := ih
    exact ⟨l', (advances_next (by simp [hk])).reaches.trans h, heq⟩
  | case3 l hk hn => exact ⟨l, .refl l, by simp [endsLine, hn, Token.Kind.endsLine]⟩
  | case4 l hk hn he ih =>
    obtain ⟨l', h, heq⟩ := ih
    have hnn : l.Reaches l.next.next :=
      (advances_next (by simp [hk])).reaches.trans (advances_next hn).reaches
    exact ⟨l', hnn.trans h, heq⟩
  | case5 l hk hn he => exact ⟨l, .refl l, by simp [hk, he]⟩
  | case6 l _ _ hk =>
    have hk : l.kind ≠ .space := hk
    exact ⟨l, .refl l, by simp [hk]⟩

theorem reaches_takeDeeperLines (l : Lexer) (depth : Nat) :
    l.Reaches (l.takeDeeperLines depth).2 := by
  induction l using takeDeeperLines_induction depth with
  | gap l _ _ heq ih =>
    rw [heq]
    exact ((reaches_passSpace l).trans (reaches_passLineEnd _)).trans ih
  | deeper l _ _ heq ih =>
    rw [heq]
    exact (reaches_passLine l).trans ih
  | below l _ _ heq | outside l _ _ heq =>
    rw [heq]
    exact .refl l

theorem reaches_takeBlock (l : Lexer) (depth : Nat) : l.Reaches (l.takeBlock depth).2 :=
  (reaches_passLine l).trans (reaches_takeDeeperLines _ depth)

theorem advances_takeBlock (h : l.endsLine = false) (depth : Nat) :
    l.Advances (l.takeBlock depth).2 :=
  (advances_passLine h).trans (reaches_takeDeeperLines _ depth)

theorem reaches_passDeeperLines {depth : Nat} (h : l.passDeeperLines depth = .ok l') :
    l.Reaches l' := by
  induction l using passDeeperLines_induction depth with
  | ended l _ heq =>
    rw [heq] at h
    cases h
    exact .refl _
  | stopped l _ _ heq =>
    rw [heq] at h
    split at h
    · rename_i hs
      have hn : l.passSpace = l.next := by simp [passSpace, hs.1]
      rw [hn] at h
      split at h
      · rename_i b hb
        cases h
        exact ((Moves.refl l).back hb).reaches fun hl => (place_of_pushBack_next hb).2.2.trans hl
      · cases h
    · cases h
      exact reaches_passSpace l
  | deeper l _ _ heq ih =>
    rw [heq] at h
    exact ((reaches_passSpace l).trans (reaches_passLine _)).trans (ih h)

theorem reaches_recover {depth : Nat} (h : l.recover depth = .ok l') : l.Reaches l' :=
  ((reaches_line l).trans (reaches_passLine _)).trans (reaches_passDeeperLines h)

theorem advances_recover {depth : Nat} (hl : l.endsLine = false) (h : l.recover depth = .ok l') :
    l.Advances l' :=
  (reaches_line l).advances
    ((advances_passLine (l := l.inMode .line) hl).trans (reaches_passDeeperLines h))

/-! ### Tags -/

theorem reaches_readExpression (l : Lexer) : l.Reaches l.readExpression.2 := by
  simp only [readExpression]
  split <;> exact reaches_skip (Expression.scan_cuts _ _ _)

theorem reaches_readSelectors (l : Lexer) : l.Reaches l.readSelectors.2 := by
  fun_induction readSelectors l with
  | case1 l hk r ih => exact (advances_next (by simp [hk])).reaches.trans ih
  | case2 l _ hk r ih => exact (advances_next (by simp [hk])).reaches.trans ih
  | case3 l => exact .refl l

theorem advances_readSelectors (h : l.startsTag) : l.Advances l.readName.2.readSelectors.2 := by
  rw [readSelectors_readName h]
  exact (advances_next (kind_ne_eof_of_startsTag h)).trans (reaches_readSelectors _)

theorem reaches_readReference (l : Lexer) : l.Reaches l.readReference.2 := by
  simp only [readReference]
  split
  · rename_i hk
    exact (advances_next (by simp [hk])).reaches
  · exact .refl l

theorem reaches_readSpaceMarks (o : TagOptions) (l : Lexer) :
    l.Reaches (l.readSpaceMarks o).2 := by
  fun_induction readSpaceMarks o l with
  | case1 o l hk ih => exact (advances_next (by simp [hk.1])).reaches.trans ih
  | case2 o l _ hk ih => exact (advances_next (by simp [hk.1])).reaches.trans ih
  | case3 o l => exact .refl l

theorem reaches_readMarks (l : Lexer) : l.Reaches l.readMarks.2 := by
  simp only [readMarks]
  split
  · rename_i hk
    exact (advances_next (by simp [hk])).reaches.trans (reaches_readSpaceMarks _ _)
  · exact reaches_readSpaceMarks _ _

theorem advances_readAttribute (h : l.kind ≠ .eof) : l.Advances l.readAttribute.lexer := by
  have hsign := (advances_next h).trans (reaches_passSpace l.next)
  simp only [readAttribute]
  split
  · rename_i hs
    have hvalue := hsign.trans
      ((advances_next (by simp [hs])).reaches.trans (reaches_passSpace _))
    split
    · rename_i hv
      exact hvalue.trans (advances_next (by rcases hv with hv | hv <;> simp [hv])).reaches
    · exact hvalue
  · exact hsign

theorem reaches_readAttributes (l : Lexer) : l.Reaches l.readAttributes.lexer := by
  fun_induction readAttributes l with
  | case1 l => exact .refl l
  | case2 l hk => exact (advances_readAttribute (by simp [hk])).reaches
  | case3 l hk a _ r ih => exact (advances_readAttribute (by simp [hk])).reaches.trans ih
  | case4 l hk ih => exact (advances_next (by simp [hk])).reaches.trans ih
  | case5 l hk ih => exact (advances_next (by simp [hk])).reaches.trans ih
  | case6 l => exact .refl l

/-- The attributes of a list end at its closing parenthesis. -/
theorem kind_readAttributes (l : Lexer) :
    ∀ as, l.readAttributes.value = .ok as → l.readAttributes.lexer.kind = .closeParen := by
  fun_induction readAttributes l with
  | case1 l hk => exact fun _ _ => hk
  | case2 =>
    intro _ h
    cases h
  | case3 l _ a _ r ih =>
    intro as h
    obtain ⟨as', hr⟩ := ok_of_map_ok h
    exact ih as' hr
  | case4 l _ ih => exact ih
  | case5 l _ ih => exact ih
  | case6 =>
    intro _ h
    cases h

theorem reaches_readAttributeList (l : Lexer) : l.Reaches l.readAttributeList.lexer := by
  simp only [readAttributeList]
  split
  · rename_i hk
    have hout := reaches_within .list (by simp [hk]) (reaches_readAttributes (l.inMode .list).next)
    split
    · rename_i as hv
      exact hout.trans (advances_next (by simp [kind_readAttributes _ _ hv])).reaches
    · exact hout
  · exact .refl l

theorem advances_readHashEntry (h : l.kind ≠ .eof) : l.Advances l.readHashEntry.lexer := by
  have hsign := (advances_next h).trans (reaches_passSpace l.next)
  have he := hsign.trans (reaches_readExpression _)
  simp only [readHashEntry]
  split
  · split
    · exact he
    · split <;> exact he
  · exact hsign

/-- Behind an entry of a hash the lexer is still on its colon. -/
theorem kind_readHashEntry {e : Text × Text} (h : l.readHashEntry.value = .ok e) :
    l.readHashEntry.lexer.kind = .colon := by
  have hexpr (k : Lexer) : k.readExpression.2.kind = k.kind := by
    simp only [readExpression]
    split <;> rfl
  simp only [readHashEntry] at h ⊢
  split at h
  · rename_i hs
    rw [if_pos hs]
    split
    · exact (hexpr _).trans hs
    · split <;> exact (hexpr _).trans hs
  · cases h

/-- Behind an entry of a hash the lexer goes on to the sign that parts it from the next. -/
theorem advances_hashSeparator {e : Text × Text} (hk : l.kind ≠ .eof)
    (h : l.readHashEntry.value = .ok e) : l.Advances l.readHashEntry.lexer.next.passBlank := by
  have hcolon : l.readHashEntry.lexer.kind ≠ .eof := by simp [kind_readHashEntry h]
  exact ((advances_readHashEntry hk).trans (advances_next hcolon).reaches).trans
    (reaches_passBlank _)

theorem reaches_readHashEntries (l : Lexer) : l.Reaches l.readHashEntries.lexer := by
  fun_induction readHashEntries l with
  | case1 l key _ => exact reaches_passBlank l
  | case2 l key hk entry e _ =>
    have hkey : key.kind ≠ .eof := by simp [hk]
    exact (reaches_passBlank l).trans (advances_readHashEntry hkey).reaches
  | case3 l key hk entry e he sign hs r ih =>
    have hkey : key.kind ≠ .eof := by simp [hk]
    have hsign : l.Reaches sign :=
      (reaches_passBlank l).trans (advances_hashSeparator hkey he).reaches
    exact (hsign.trans (advances_next (by simp [hs])).reaches).trans ih
  | case4 l key hk entry e he sign hs =>
    have hkey : key.kind ≠ .eof := by simp [hk]
    exact (reaches_passBlank l).trans (advances_hashSeparator hkey he).reaches
  | case5 l key hk entry e he sign _ _ =>
    have hkey : key.kind ≠ .eof := by simp [hk]
    exact (reaches_passBlank l).trans (advances_hashSeparator hkey he).reaches
  | case6 l key _ _ => exact reaches_passBlank l

/-- The entries of a hash end at its closing brace. -/
theorem kind_readHashEntries (l : Lexer) :
    ∀ es, l.readHashEntries.value = .ok es → l.readHashEntries.lexer.kind = .closeBrace := by
  fun_induction readHashEntries l with
  | case1 l key hk => exact fun _ _ => hk
  | case2 =>
    intro _ h
    cases h
  | case3 l key _ entry e _ sign _ r ih =>
    intro es h
    obtain ⟨es', hr⟩ := ok_of_map_ok h
    exact ih es' hr
  | case4 l key _ entry e _ sign hs => exact fun _ _ => hs
  | case5 =>
    intro _ h
    cases h
  | case6 =>
    intro _ h
    cases h

theorem reaches_readAttributeHash (l : Lexer) : l.Reaches l.readAttributeHash.lexer := by
  simp only [readAttributeHash]
  split
  · rename_i hk
    have hout := reaches_within .hash (by simp [hk]) (reaches_readHashEntries (l.inMode .hash).next)
    split
    · rename_i es hv
      exact hout.trans (advances_next (by simp [kind_readHashEntries _ _ hv])).reaches
    · exact hout
  · exact .refl l

theorem advances_readTag (h : l.startsTag) (depth : Nat) : l.Advances (l.readTag depth).lexer := by
  have hlist := ((advances_readSelectors h).trans (reaches_readReference _)).trans
    (reaches_readAttributeList _)
  have hhash := hlist.trans (reaches_readAttributeHash _)
  have hmarks := hhash.trans (reaches_readMarks _)
  simp only [readTag]
  split
  · exact hlist
  · split
    · exact hhash
    · split <;> exact hmarks

/-! ### Whole lines -/

theorem reaches_endText (l : Lexer) (t : Text) (i : Bool) (n : Nat) :
    l.Reaches (l.endText t i n).lexer := by
  simp only [endText]
  split
  · exact reaches_passLineEnd l
  · exact .refl l

theorem advances_readBody (h : l.endsLine = false) (inner : Bool) :
    l.Advances (l.readBody inner).lexer := by
  have hn := advances_next (kind_ne_eof_of_not_endsLine h)
  simp only [readBody_eq]
  split
  · have hline := hn.trans (reaches_takeLine l.next)
    cases inner with
    | false => exact hline
    | true => exact hline.trans (reaches_passLineEnd _)
  · split
    · exact (hn.trans ((reaches_passSpace _).trans (reaches_takeLine _))).trans
        (reaches_endText _ _ _ _)
    · exact (advances_takeLine h).trans (reaches_endText _ _ _ _)

theorem reaches_readBody (l : Lexer) (inner : Bool) : l.Reaches (l.readBody inner).lexer := by
  cases h : l.endsLine with
  | false => exact (advances_readBody h inner).reaches
  | true =>
    rw [readBody_of_endsLine h]
    exact (reaches_takeLine l).trans (reaches_endText _ _ _ _)

theorem reaches_readContents (l : Lexer) (inner : Bool) :
    l.Reaches (l.readContents inner).lexer :=
  (reaches_passSpace l).trans (reaches_readBody _ inner)

theorem advances_readContents (h : l.endsLine = false) (inner : Bool) :
    l.Advances (l.readContents inner).lexer := by
  by_cases hs : l.kind = .space
  · have hp : l.passSpace = l.next := by simp [passSpace, hs]
    rw [readContents, hp]
    exact (advances_next (by simp [hs])).trans (reaches_readBody _ inner)
  · have hp : l.passSpace = l := by simp [passSpace, hs]
    rw [readContents, hp]
    exact advances_readBody h inner

/-- A line that has not ended is read past its first token, even if it is faulty. -/
theorem advances_readLine (h : l.endsLine = false) (depth : Nat) :
    l.Advances (l.readLine depth).lexer := by
  have hn := advances_next (kind_ne_eof_of_not_endsLine h)
  have hline {k : Lexer} (hk : l.Advances k) : l.Advances k.takeLine.2.passLineEnd :=
    hk.trans (reaches_passLine k)
  simp only [readLine_eq]
  split
  · exact hline (hn.trans (reaches_passSpace _))
  · exact hline hn
  · exact advances_takeBlock h depth
  · exact hline hn
  · exact hline (hn.trans (reaches_passSpace _))
  · split
    · exact hline hn
    · split
      · rename_i ht
        have hr := advances_readTag ht depth
        split
        · exact hr
        · exact hr.trans (reaches_readContents _ _)
      · exact advances_readContents h true

end Lexer

end Haml
