import Haml.Proofs.LineCount
import Haml.Proofs.RefusedLines

/-!
# Where faults show

A line is refused at a place that the lexer comes to between the first token of the
line and the place where reading stops. So the point of a fault is counted from a
place of the source, behind the start of the line that is refused and before the
token with which a tolerant run goes on.
-/

namespace Haml

/-- The first point stands before the second one: on an earlier line, or on the same
line with fewer characters read. -/
def Point.Before (p q : Point) : Prop := p.line < q.line ∨ p.line = q.line ∧ p.column < q.column

instance (p q : Point) : Decidable (p.Before q) := inferInstanceAs (Decidable (_ ∨ _))

/-- A place further on in the source is a later point. -/
theorem Cursor.Counted.before {source : Text} {c c' : Cursor} (h : c.Counted source)
    (h' : c'.Counted source) (hlt : c.position < c'.position) : c.point.Before c'.point := by
  obtain ⟨before, rest, rfl, hs, rfl⟩ := h
  obtain ⟨before', rest', hsource, -, rfl⟩ := h'
  have hlt : before.byteSize < before'.byteSize := hlt
  rcases List.append_eq_append_iff.1 hsource with ⟨m, rfl, rfl⟩ | ⟨m, rfl, -⟩
  · have hm : m ≠ [] := by
      rintro rfl
      simp at hlt
    have hsm : Unsplit before m := by
      rintro ⟨hl, hh⟩
      exact hs ⟨hl, by rw [List.head?_append_of_ne_nil _ hm, hh]⟩
    have hends := Text.lineEnds_append hsm
    by_cases hone : OneLine m
    · right
      have hlength := List.length_pos_iff.2 hm
      have hopen := Text.openLine_append before m
      rw [if_pos hone] at hopen
      simp only [Cursor.point, Cursor.counted, hends, hopen, Text.lineEnds_eq_zero_iff.2 hone,
        List.length_append]
      omega
    · left
      have hpos := Nat.pos_of_ne_zero (mt Text.lineEnds_eq_zero_iff.1 hone)
      simp only [Cursor.point, Cursor.counted, hends]
      omega
  · rw [Text.byteSize_append] at hlt
    omega

namespace Lexer

variable {source : Text} {l l' : Lexer} {n : Nat}

/-- Moves lead from a place that is counted right to another one. -/
theorem Moves.counts (h : Moves n l l') (hl : l.Counts source) : l'.Counts source := by
  induction h with
  | refl => exact hl
  | next _ _ ih => exact (ih hl).next
  | skip _ _ ih => exact (ih hl).skip _
  | inMode _ mode ih => exact (ih hl).act (.setMode mode)
  | back _ hb ih =>
    have hback := (ih hl).next.act .pushBack
    rwa [act, hb] at hback

theorem Reaches.counts (h : l.Reaches l') (hl : l.Counts source) : l'.Counts source := by
  obtain ⟨n, -, hn⟩ := h.moves
  exact hn.counts hl

theorem Reaches.position_le (h : l.Reaches l') : l.cursor.position ≤ l'.cursor.position := by
  obtain ⟨n, -, hn⟩ := h.moves
  exact hn.position_le

theorem Advances.position_le_start (h : l.Advances l') :
    l.cursor.position ≤ l'.token.span.start := by
  obtain ⟨n, hn⟩ := h.moves
  exact hn.position_le_start (Nat.succ_pos n)

/-- Behind a refused line the lexer is moved on, unless nothing is left to read. -/
theorem eof_or_advances_recover {depth : Nat} (h : l.recover depth = .ok l') :
    l'.kind = .eof ∨ l.Advances l' := by
  cases he : l.endsLine with
  | false => exact .inr (advances_recover he h)
  | true =>
    have hline : (l.inMode .line).takeLine = ([], l.inMode .line) := takeLine_of_endsLine he
    simp only [recover_eq, passLine, hline, passLineEnd] at h
    by_cases hk : l.kind = .eof
    · left
      rw [if_neg (by simp [hk, Token.Kind.breaksLine]), passDeeperLines_eq,
        if_pos (by simp [hk])] at h
      cases h
      exact hk
    · right
      have hb : (l.inMode .line).kind.breaksLine = true := by
        cases hk' : l.kind <;> simp_all [endsLine, Token.Kind.endsLine, Token.Kind.breaksLine]
      rw [if_pos hb] at h
      exact (reaches_line l).advances
        ((advances_next (by simpa using hk)).trans (reaches_passDeeperLines h))

end Lexer

namespace Reading

variable {α β : Type} {l m : Lexer} {probes : List Probe}

/-- If reading fails, the fault shows where reading stops. -/
def FaultsAtStop (r : Reading α) : Prop := ∀ d, r.value = .error d → d.point = r.lexer.point

/-- If reading from `l` on fails, the fault shows at a place on the way. -/
def FaultsOnWay (l : Lexer) (r : Reading α) : Prop :=
  ∀ d, r.value = .error d → ∃ m, l.Reaches m ∧ m.Reaches r.lexer ∧ d.point = m.point

theorem FaultsAtStop.ok (a : α) :
    FaultsAtStop { value := .ok a, lexer := l, probes := probes } := by
  rintro _ ⟨⟩

theorem FaultsAtStop.here {d : Diagnostic} (h : d.point = l.point) :
    FaultsAtStop (α := α) { value := .error d, lexer := l, probes := probes } := by
  rintro _ ⟨⟩
  exact h

theorem FaultsAtStop.map {r : Reading α} (h : r.FaultsAtStop) (f : α → β) :
    FaultsAtStop { value := r.value.map f, lexer := r.lexer, probes := probes } :=
  fun d hd => h d (error_of_map_error hd)

theorem FaultsAtStop.onWay {r : Reading α} (h : r.FaultsAtStop) (hl : l.Reaches r.lexer) :
    r.FaultsOnWay l := fun d hd => ⟨r.lexer, hl, .refl _, h d hd⟩

theorem FaultsOnWay.ok (a : α) :
    FaultsOnWay l { value := .ok a, lexer := m, probes := probes } := by
  rintro _ ⟨⟩

theorem FaultsOnWay.map {r : Reading α} (h : r.FaultsOnWay l) (f : α → β) :
    FaultsOnWay l { value := r.value.map f, lexer := r.lexer, probes := probes } :=
  fun d hd => h d (error_of_map_error hd)

theorem FaultsOnWay.trans {r : Reading α} (h : r.FaultsOnWay m) (hl : l.Reaches m) :
    r.FaultsOnWay l := by
  intro d hd
  obtain ⟨k, hk, hr, hp⟩ := h d hd
  exact ⟨k, hl.trans hk, hr, hp⟩

end Reading

namespace Lexer

variable (l : Lexer)

open Reading

theorem faultsAtStop_readAttribute : l.readAttribute.FaultsAtStop := by
  simp only [readAttribute]
  split
  · split
    · exact .ok _
    · exact .here rfl
  · exact .here rfl

theorem faultsAtStop_readAttributes : l.readAttributes.FaultsAtStop := by
  fun_induction readAttributes l with
  | case1 => exact .ok _
  | case2 l _ e he => exact .here (l.faultsAtStop_readAttribute e he)
  | case3 l _ a _ r ih => exact ih.map _
  | case4 l _ ih => exact ih
  | case5 l _ ih => exact ih
  | case6 => exact .here rfl

theorem faultsAtStop_readAttributeList : l.readAttributeList.FaultsAtStop := by
  simp only [readAttributeList]
  split
  · split
    · exact .ok _
    · rename_i e he
      exact .here (faultsAtStop_readAttributes _ e he)
  · exact .ok _

theorem point_readExpression {d : Diagnostic} (h : l.readExpression.1 = .error d) :
    d.point = l.readExpression.2.point := by
  simp only [readExpression] at h ⊢
  split at h
  · cases h
  · cases h
    rfl

theorem faultsAtStop_readHashEntry : l.readHashEntry.FaultsAtStop := by
  simp only [readHashEntry]
  split
  · split
    · rename_i e he
      exact .here (point_readExpression _ he)
    · split
      · exact .here rfl
      · exact .ok _
  · exact .here rfl

theorem faultsAtStop_readHashEntries : l.readHashEntries.FaultsAtStop := by
  fun_induction readHashEntries l with
  | case1 => exact .ok _
  | case2 l key _ entry e he => exact .here (faultsAtStop_readHashEntry _ e he)
  | case3 l key _ entry e _ sign _ r ih => exact ih.map _
  | case4 => exact .ok _
  | case5 => exact .here rfl
  | case6 => exact .here rfl

theorem faultsAtStop_readAttributeHash : l.readAttributeHash.FaultsAtStop := by
  simp only [readAttributeHash]
  split
  · split
    · exact .ok _
    · rename_i e he
      exact .here (faultsAtStop_readHashEntries _ e he)
  · exact .ok _

theorem reaches_readName : l.Reaches l.readName.2 := by
  simp only [readName]
  split
  · rename_i hk
    exact (advances_next (by simp [hk])).reaches
  · exact .refl l

/-- The place where the attribute hash of a tag could start. -/
def behindList (l : Lexer) : Lexer :=
  l.readName.2.readSelectors.2.readReference.2.readAttributeList.lexer

theorem reaches_behindList : l.Reaches l.behindList :=
  (((l.reaches_readName).trans (reaches_readSelectors _)).trans (reaches_readReference _)).trans
    (reaches_readAttributeList _)

/-- Contents behind a self-closing tag show where its attribute hash could start, and
all else that a tag is refused for where reading it stops. -/
theorem faultsOnWay_readTag (depth : Nat) : (l.readTag depth).FaultsOnWay l := by
  have hlist := l.reaches_behindList
  have hhash := reaches_readAttributeHash l.behindList
  have hmarks := reaches_readMarks l.behindList.readAttributeHash.lexer
  intro d hd
  simp only [readTag] at hd ⊢
  split at hd
  · rename_i e he
    cases hd
    exact ⟨_, hlist, .refl _, faultsAtStop_readAttributeList _ _ he⟩
  · split at hd
    · rename_i e he
      cases hd
      exact ⟨_, hlist.trans hhash, .refl _, faultsAtStop_readAttributeHash _ _ he⟩
    · split at hd
      · rename_i hc
        cases hd
        rw [if_pos hc]
        exact ⟨_, hlist, hhash.trans hmarks, rfl⟩
      · cases hd

theorem faultsAtStop_endText (t : Text) (i : Bool) (n : Nat) : (l.endText t i n).FaultsAtStop := by
  simp only [endText]
  split
  · exact .ok _
  · exact .here rfl

theorem faultsAtStop_readContents (inner : Bool) : (l.readContents inner).FaultsAtStop := by
  simp only [readContents, readBody_eq]
  split
  · exact .ok _
  · split <;> exact faultsAtStop_endText _ _ _ _

theorem faultsOnWay_readLine (depth : Nat) : (l.readLine depth).FaultsOnWay l := by
  simp only [readLine_eq]
  split
  · exact .ok _
  · exact .ok _
  · exact .ok _
  · exact .ok _
  · exact .ok _
  · split
    · exact .ok _
    · split
      · rename_i ht
        have htag := (l.advances_readTag ht depth).reaches
        split
        · rename_i e he
          rintro _ ⟨⟩
          exact l.faultsOnWay_readTag depth e he
        · have hcontents {inner : Bool} := (faultsAtStop_readContents _ inner).onWay
            (reaches_readContents (l.readTag depth).lexer inner)
          exact (hcontents.trans htag).map _
      · exact ((l.faultsAtStop_readContents true).onWay (reaches_readContents l true)).map _

end Lexer

/-- The filter refuses a block, if at all, at the point it was given. -/
def Filter.ReportsPoint (f : Filter) : Prop :=
  ∀ block depth point d, (f block depth point).fault = some d → d.point = point

def FilterRegistry.ReportPoints (filters : FilterRegistry) : Prop :=
  ∀ name f, filters.find? name = some f → f.ReportsPoint

namespace Context

variable {ctx : Context} {stack : ElementStack} {l : Lexer} {d : Diagnostic} {depth : Nat}

theorem point_filterStep (hf : ctx.filters.ReportPoints)
    (hd : (ctx.filterStep stack l depth).fault = some d) : d.point = l.point := by
  simp only [filterStep_eq] at hd
  split at hd
  · cases hd
    rfl
  · rename_i filter hfilter
    split at hd
    · cases hd
    · rename_i e he
      split at hd
      · cases hd
      · cases hd
        exact hf _ _ hfilter _ _ _ _ he

/-- A line is refused at a place between its first token and where reading stops. -/
theorem place_of_fault (hf : ctx.filters.ReportPoints)
    (hd : (ctx.construct stack l depth).fault = some d) :
    ∃ m, l.Reaches m ∧ m.Reaches (ctx.construct stack l depth).lexer ∧ d.point = m.point := by
  have he := endsLine_of_fault hd
  have hreach : l.Reaches (ctx.construct stack l depth).lexer := by
    rcases advances_construct ctx stack depth he with h | ⟨h, -⟩
    · exact h.reaches
    · rw [h]
      exact .refl l
  rw [construct_of_written he] at hd hreach ⊢
  simp only [ownStep_eq] at hd hreach ⊢
  split at hd
  · rename_i hk
    simp only [hk, if_true] at hreach ⊢
    exact ⟨l, .refl l, hreach, point_filterStep hf hd⟩
  · rename_i hk
    simp only [hk, if_false] at hreach ⊢
    rw [lexer_lineStep]
    exact l.faultsOnWay_readLine depth d (readLine_of_fault hd)

end Context

end Haml
