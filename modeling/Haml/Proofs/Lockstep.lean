import Haml.Proofs.Likeness

/-!
# Lexers in lockstep

Two lexers over different texts read the same part alike as long as they stand on the
same tokens. What has to be known of them is little: that they take the rest of a line
alike, and that any other move keeps them near one another or leads them astray. From that
alone tags are read alike, with their lists, hashes and marks: both readings give what is
alike, both are refused, or the lexers have been lost on the way.
-/

namespace Haml

/-- Lexers in relation `Near` stand on the same token, but one may be on the last line end
of its text when the other is at its end already. Within their line they go on to the same
tokens, and they take the rest of it alike. -/
structure Lexer.Together (L : Likeness) (Near : Lexer → Lexer → Prop) : Prop where
  kind {l l' : Lexer} : Near l l' → l'.kind = l.kind ∨ l.kind = .eof ∧ l'.kind = .lineEnd
  token {l l' : Lexer} : Near l l' → l'.kind = l.kind → l.kind.breaksLine = false →
    l'.token.matched = l.token.matched ∧ l'.token.text = l.token.text
  newline {l l' : Lexer} : Near l l' → L.text l.token.newline l'.token.newline
  point {l l' : Lexer} : Near l l' → L.point l.point l'.point
  inMode {l l' : Lexer} : Near l l' → ∀ mode, Near (l.inMode mode) (l'.inMode mode)
  within {l l' : Lexer} : Near l l' → l.mode = .line → l.endsLine = false → Near l.next l'.next
  continued {l l' : Lexer} : Near l l' → l.kind ≠ .eof → l.kind ≠ .lineEnd →
    continued? l'.rest = continued? l.rest
  segment {l l' : Lexer} {t : Text} : Near l l' → l.mode = .line → l.kind ≠ .eof →
    l.kind ≠ .lineEnd → continued? l.rest = some t → Near (l.skip t).next (l'.skip t).next
  line {l l' : Lexer} : Near l l' → l.mode = .line → l.endsLine = false →
    (l'.rest.takeWhile fun c => !isLineBreak c) = (l.rest.takeWhile fun c => !isLineBreak c) ∧
      Near (l.skip (l.rest.takeWhile fun c => !isLineBreak c)).next
        (l'.skip (l.rest.takeWhile fun c => !isLineBreak c)).next

namespace Reading

variable {α β : Type}

def Fails (r : Reading α) : Prop := ∃ d, r.value = .error d

theorem fails_map {r : Reading α} (g : α → β) (l : Lexer) (ps : List Probe) :
    Fails ⟨r.value.map g, l, ps⟩ = r.Fails := by
  cases hv : r.value <;> simp [Fails, hv, Except.map]

theorem not_fails {r : Reading α} {v : α} (hv : r.value = .ok v) : ¬r.Fails := by
  rintro ⟨d, hd⟩
  rw [hv] at hd
  cases hd

/-- What two readings of the same part come to: values in relation `R`, with lexers in
relation `Past`, or two faults, with lexers that are near; or the lexers are lost, of which
`Lost` may say that the first reading is refused. -/
inductive Agree (L : Likeness) (Near Past : Lexer → Lexer → Prop)
    (Lost : Prop → Lexer → Lexer → Prop) (R : α → α → Prop) (r r' : Reading α) : Prop where
  | lost (h : Lost r.Fails r.lexer r'.lexer)
  | ok {v v' : α} (hv : r.value = .ok v) (hv' : r'.value = .ok v') (hR : R v v')
      (h : Past r.lexer r'.lexer) (hp : List.Forall₂ L.probe r.probes r'.probes)
  | fault {d d' : Diagnostic} (hd : r.value = .error d) (hd' : r'.value = .error d')
      (hD : L.diagnostic d d') (h : Near r.lexer r'.lexer)
      (hp : List.Forall₂ L.probe r.probes r'.probes)

theorem Agree.map {L : Likeness} {Near Past : Lexer → Lexer → Prop}
    {Lost : Prop → Lexer → Lexer → Prop} {R : α → α → Prop} {r r' : Reading α}
    (h : r.Agree L Near Past Lost R r') {g g' : α → β} {S : β → β → Prop} {ps ps' : List Probe}
    (hg : ∀ v v', R v v' → S (g v) (g' v'))
    (hp : List.Forall₂ L.probe r.probes r'.probes → List.Forall₂ L.probe ps ps') :
    Agree L Near Past Lost S ⟨r.value.map g, r.lexer, ps⟩ ⟨r'.value.map g', r'.lexer, ps'⟩ := by
  cases h with
  | lost h => exact .lost ((fails_map g r.lexer ps).symm ▸ h)
  | ok hv hv' hR h hps =>
    exact .ok (congrArg (Except.map g) hv) (congrArg (Except.map g') hv') (hg _ _ hR) h (hp hps)
  | fault hd hd' hD h hps =>
    exact .fault (congrArg (Except.map g) hd) (congrArg (Except.map g') hd') hD h (hp hps)

/-- The reading goes on from `m`, and is refused if `P` holds. -/
structure Passes (m : Lexer) (P : Prop) (r : Reading α) : Prop where
  reaches : m.Reaches r.lexer
  fails : P → r.Fails

end Reading

namespace Lexer

/-- At a token that no attribute and no entry of a hash starts or goes on with. -/
def Stuck (l : Lexer) : Prop := l.kind = .eof ∨ l.kind = .other

def scanExpression (l : Lexer) : Reading Text where
  value := l.readExpression.1
  lexer := l.readExpression.2
  probes :=
    [⟨l.cursor.position, l.readExpression.2.cursor.position, l.readExpression.1.toOption⟩]

def Aside (Near : Lexer → Lexer → Prop) (Lost : Prop → Lexer → Lexer → Prop) (l l' : Lexer) :
    Prop :=
  Near l l' ∨ Lost l.Stuck l l'

/-- Lexers that are near one another read on alike, line by line. In an attribute list or a
hash they may be lost; whether the first reading is then refused has to be known only as far
as `Lost` says so. What is past when a line is read may be in the wider relation `Past`. -/
structure Lockstep (L : Likeness) (Near Past : Lexer → Lexer → Prop)
    (Lost : Prop → Lexer → Lexer → Prop) : Prop extends Together L Near where
  next {l l' : Lexer} : Near l l' → l.kind ≠ .eof → Aside Near Lost l.next l'.next
  finish {l l' : Lexer} : Near l l' → l.kind = .eof → l'.kind = .lineEnd →
    Near l l'.next ∧ l'.next.kind = .eof
  expression {l l' : Lexer} : Near l l' → l.kind = .colon →
    l.scanExpression.Agree L Near Near Lost L.text l'.scanExpression
  lost {l l' m m' : Lexer} {P Q : Prop} : Lost P l l' → l.Reaches m → l'.Reaches m' → (P → Q) →
    Lost Q m m'
  past {l l' : Lexer} : Near l l' → l.mode = .line → l.endsLine = true →
    Past l.passLineEnd l'.passLineEnd
  stay {l l' : Lexer} : Near l l' → l.endsLine = true → Past l l'

/-! ### Within a line -/

namespace Together

variable {L : Likeness} {Near : Lexer → Lexer → Prop} (H : Together L Near) {l l' : Lexer}

include H

theorem kind_eq (h : Near l l') (hk : l.kind ≠ .eof) : l'.kind = l.kind :=
  (H.kind h).resolve_right fun he => hk he.1

/-- The two lexers agree on every kind of token but the two ends. -/
theorem kind_iff (h : Near l l') {k : Token.Kind} (he : k ≠ .eof) (hn : k ≠ .lineEnd) :
    l'.kind = k ↔ l.kind = k := by
  rcases H.kind h with heq | ⟨hl, hl'⟩
  · rw [heq]
  · rw [hl, hl']
    exact ⟨fun h => absurd h.symm hn, fun h => absurd h.symm he⟩

theorem text_eq (h : Near l l') (hl : l.endsLine = false) : l'.token.text = l.token.text :=
  (H.token h (H.kind_eq h (kind_ne_eof_of_not_endsLine hl)) (breaksLine_eq_false hl)).2

theorem refused (h : Near l l') (f : Fault) : L.diagnostic (l.fault f) (l'.fault f) :=
  ⟨L.fault_refl f, H.point h⟩

theorem startsTag (h : Near l l') : l'.startsTag = l.startsTag := by
  simp only [Lexer.startsTag, H.kind_iff h (k := .element) (by decide) (by decide),
    H.kind_iff h (k := .idSelector) (by decide) (by decide),
    H.kind_iff h (k := .classSelector) (by decide) (by decide)]

theorem endsLine (h : Near l l') : l'.endsLine = l.endsLine := by
  rcases H.kind h with hk | ⟨hl, hl'⟩
  · rw [Lexer.endsLine, hk, Lexer.endsLine]
  · rw [Lexer.endsLine, hl', Lexer.endsLine, hl]
    rfl

theorem depth (h : Near l l') : l'.token.depth = l.token.depth := by
  have hspace : l'.token.kind = .space ↔ l.token.kind = .space :=
    H.kind_iff h (by decide) (by decide)
  by_cases hk : l.token.kind = .space
  · have hl : l.endsLine = false := by
      rw [Lexer.endsLine, Lexer.kind, hk]
      rfl
    rw [Token.depth, Token.depth, if_pos hk, if_pos (hspace.2 hk), H.text_eq h hl]
  · rw [Token.depth, Token.depth, if_neg hk, if_neg (mt hspace.1 hk)]

theorem announcesExpression (h : Near l l') :
    l'.kind.announcesExpression = l.kind.announcesExpression := by
  rcases H.kind h with hk | ⟨hl, hl'⟩
  · rw [hk]
  · rw [hl, hl']
    rfl

theorem passSpace_within (h : Near l l') (hm : l.mode = .line) :
    Near l.passSpace l'.passSpace := by
  simp only [passSpace, H.kind_iff h (k := .space) (by decide) (by decide)]
  split
  · rename_i hk
    exact H.within h hm (by rw [Lexer.endsLine, hk]; rfl)
  · exact h

/-- Whether something follows on the line shows on the line. -/
theorem hasInlineContents (h : Near l l') (hm : l.mode = .line) :
    l'.hasInlineContents = l.hasInlineContents := by
  simp only [Lexer.hasInlineContents, H.kind_iff h (k := .space) (by decide) (by decide)]
  split
  · rename_i hk
    rw [H.endsLine (H.within h hm (by rw [Lexer.endsLine, hk]; rfl))]
  · rw [H.endsLine h]

theorem takeContinued (h : Near l l') (hm : l.mode = .line) (he : l.kind ≠ .eof)
    (hn : l.kind ≠ .lineEnd) {segment : Text} (hs : continued? l.rest = some segment) :
    (l'.takeContinued segment).1 = (l.takeContinued segment).1 ∧
      Near (l.takeContinued segment).2 (l'.takeContinued segment).2 := by
  suffices hall : ∀ m, Near l m → (m.takeContinued segment).1 = (l.takeContinued segment).1 ∧
      Near (l.takeContinued segment).2 (m.takeContinued segment).2 from hall l' h
  clear h
  fun_induction Lexer.takeContinued l segment with
  | case1 l segment l₁ hk rest hrest r ih =>
    intro m h
    have h₁ : Near l₁ (m.skip segment).next := H.segment h hm he hn hs
    have he₁ : l₁.kind ≠ .eof := by simp [hk]
    have hn₁ : l₁.kind ≠ .lineEnd := by simp [hk]
    obtain ⟨htext, hlexer⟩ := ih hm he₁ hn₁ hrest _ h₁
    rw [Lexer.takeContinued.eq_def m]
    simp only [H.kind_eq h₁ he₁, hk, H.continued h₁ he₁ hn₁, hrest, dite_true]
    exact ⟨by rw [htext], hlexer⟩
  | case2 l segment l₁ hk hrest =>
    intro m h
    have h₁ : Near l₁ (m.skip segment).next := H.segment h hm he hn hs
    have he₁ : l₁.kind ≠ .eof := by simp [hk]
    have hn₁ : l₁.kind ≠ .lineEnd := by simp [hk]
    rw [Lexer.takeContinued.eq_def m]
    simp only [H.kind_eq h₁ he₁, hk, H.continued h₁ he₁ hn₁, hrest, dite_true]
    exact ⟨trivial, h₁⟩
  | case3 l segment l₁ hk =>
    intro m h
    have h₁ : Near l₁ (m.skip segment).next := H.segment h hm he hn hs
    rw [← H.kind_iff h₁ (by decide) (by decide)] at hk
    rw [Lexer.takeContinued.eq_def m]
    simp only [hk, dite_false]
    exact ⟨trivial, h₁⟩

/-- The logical line is taken alike. -/
theorem takeLine (h : Near l l') (hm : l.mode = .line) :
    l'.takeLine.1 = l.takeLine.1 ∧ Near l.takeLine.2 l'.takeLine.2 := by
  cases hl : l.endsLine with
  | true =>
    rw [takeLine_of_endsLine hl, takeLine_of_endsLine ((H.endsLine h).trans hl)]
    exact ⟨rfl, h⟩
  | false =>
    have he := kind_ne_eof_of_not_endsLine hl
    have hn : l.kind ≠ .lineEnd := by
      intro hk
      simp [Lexer.endsLine, hk, Token.Kind.endsLine] at hl
    have hmatched := (H.token h (H.kind_eq h he) (breaksLine_eq_false hl)).1
    obtain ⟨hline, hnext⟩ := H.line h hm hl
    simp only [Lexer.takeLine, H.endsLine h, hl, H.continued h he hn, hmatched, hline,
      Bool.false_eq_true, if_false]
    cases hs : continued? l.rest with
    | some segment =>
      obtain ⟨htext, hlexer⟩ := H.takeContinued h hm he hn hs
      exact ⟨by simp only [htext], hlexer⟩
    | none => exact ⟨rfl, hnext⟩

/-! ### Tags without their attributes -/

theorem readName (h : Near l l') (hm : l.mode = .line) :
    l'.readName.1 = l.readName.1 ∧ Near l.readName.2 l'.readName.2 := by
  simp only [Lexer.readName, H.kind_iff h (k := .element) (by decide) (by decide)]
  split
  · rename_i hk
    have hl : l.endsLine = false := by rw [Lexer.endsLine, hk]; rfl
    exact ⟨congrArg some (H.text_eq h hl), H.within h hm hl⟩
  · exact ⟨rfl, h⟩

theorem readSelectors (h : Near l l') (hm : l.mode = .line) :
    l'.readSelectors.1 = l.readSelectors.1 ∧ Near l.readSelectors.2 l'.readSelectors.2 := by
  suffices hall : ∀ m, Near l m → m.readSelectors.1 = l.readSelectors.1 ∧
      Near l.readSelectors.2 m.readSelectors.2 from hall l' h
  clear h
  fun_induction Lexer.readSelectors l with
  | case1 l hk r ih =>
    intro m h
    have hl : l.endsLine = false := by rw [Lexer.endsLine, hk]; rfl
    obtain ⟨hvalue, hlexer⟩ := ih hm _ (H.within h hm hl)
    rw [Lexer.readSelectors.eq_def m, H.kind_eq h (by simp [hk]), if_pos hk, H.text_eq h hl]
    exact ⟨by simp only [hvalue, r], hlexer⟩
  | case2 l hi hk r ih =>
    intro m h
    have hl : l.endsLine = false := by rw [Lexer.endsLine, hk]; rfl
    obtain ⟨hvalue, hlexer⟩ := ih hm _ (H.within h hm hl)
    rw [Lexer.readSelectors.eq_def m, H.kind_eq h (by simp [hk]), if_neg hi, if_pos hk,
      H.text_eq h hl]
    exact ⟨by simp only [hvalue, r], hlexer⟩
  | case3 l hi hk =>
    intro m h
    rw [Lexer.readSelectors.eq_def m, if_neg (mt (H.kind_iff h (by decide) (by decide)).1 hi),
      if_neg (mt (H.kind_iff h (by decide) (by decide)).1 hk)]
    exact ⟨rfl, h⟩

theorem readReference (h : Near l l') (hm : l.mode = .line) :
    l'.readReference.1 = l.readReference.1 ∧ Near l.readReference.2 l'.readReference.2 := by
  simp only [Lexer.readReference, H.kind_iff h (k := .reference) (by decide) (by decide)]
  split
  · rename_i hk
    have hl : l.endsLine = false := by rw [Lexer.endsLine, hk]; rfl
    exact ⟨congrArg some (H.text_eq h hl), H.within h hm hl⟩
  · exact ⟨rfl, h⟩

theorem readSpaceMarks (h : Near l l') (hm : l.mode = .line) (o : TagOptions) :
    (l'.readSpaceMarks o).1 = (l.readSpaceMarks o).1 ∧
      Near (l.readSpaceMarks o).2 (l'.readSpaceMarks o).2 := by
  suffices hall : ∀ m, Near l m → (m.readSpaceMarks o).1 = (l.readSpaceMarks o).1 ∧
      Near (l.readSpaceMarks o).2 (m.readSpaceMarks o).2 from hall l' h
  clear h
  fun_induction Lexer.readSpaceMarks o l with
  | case1 o l hk ih =>
    intro m h
    rw [Lexer.readSpaceMarks.eq_def o m, H.kind_eq h (by simp [hk.1]), if_pos hk]
    exact ih hm _ (H.within h hm (by rw [Lexer.endsLine, hk.1]; rfl))
  | case2 o l hg hk ih =>
    intro m h
    rw [Lexer.readSpaceMarks.eq_def o m, H.kind_eq h (by simp [hk.1]), if_neg hg, if_pos hk]
    exact ih hm _ (H.within h hm (by rw [Lexer.endsLine, hk.1]; rfl))
  | case3 o l hg hk =>
    intro m h
    rw [← H.kind_iff h (by decide) (by decide)] at hg hk
    rw [Lexer.readSpaceMarks.eq_def o m, if_neg hg, if_neg hk]
    exact ⟨rfl, h⟩

theorem readMarks (h : Near l l') (hm : l.mode = .line) :
    l'.readMarks.1 = l.readMarks.1 ∧ Near l.readMarks.2 l'.readMarks.2 := by
  simp only [Lexer.readMarks, H.kind_iff h (k := .slash) (by decide) (by decide)]
  split
  · rename_i hk
    exact H.readSpaceMarks (H.within h hm (by rw [Lexer.endsLine, hk]; rfl)) hm _
  · exact H.readSpaceMarks h hm _

end Together

/-! ### Places on the way of a reading -/

section Ways

variable (l : Lexer)

theorem passes_readAttribute_of_sign :
    l.readAttribute.Passes l.next.passSpace l.next.passSpace.Stuck := by
  constructor
  · simp only [readAttribute]
    split
    · rename_i hs
      have hvalue := (advances_next (by simp [hs])).reaches.trans
        (reaches_passSpace l.next.passSpace.next)
      split
      · rename_i hv
        exact hvalue.trans (advances_next (by rcases hv with hv | hv <;> simp [hv])).reaches
      · exact hvalue
    · exact .refl _
  · rintro (hk | hk) <;>
    · simp only [readAttribute, hk]
      exact ⟨_, rfl⟩

theorem passes_readAttribute_of_value (hs : l.next.passSpace.kind = .equals) :
    l.readAttribute.Passes l.next.passSpace.next.passSpace
      l.next.passSpace.next.passSpace.Stuck := by
  constructor
  · simp only [readAttribute, hs, if_true]
    split
    · rename_i hv
      exact (advances_next (by rcases hv with hv | hv <;> simp [hv])).reaches
    · exact .refl _
  · rintro (hk | hk) <;>
    · simp only [readAttribute, hs, hk]
      exact ⟨_, rfl⟩

theorem passes_readAttributes : l.readAttributes.Passes l l.Stuck := by
  refine ⟨reaches_readAttributes l, ?_⟩
  rintro (hk | hk) <;>
  · rw [readAttributes.eq_def, hk]
    exact ⟨_, rfl⟩

theorem passes_readAttributes_of_attribute (hk : l.kind = .attributeName) :
    l.readAttributes.Passes l.readAttribute.lexer l.readAttribute.Fails := by
  rw [readAttributes.eq_def, hk]
  simp only
  cases hv : l.readAttribute.value with
  | error e => exact ⟨.refl _, fun _ => ⟨e, rfl⟩⟩
  | ok a => exact ⟨reaches_readAttributes _, fun h => absurd h (Reading.not_fails hv)⟩

theorem passes_readHashEntry_of_sign :
    l.readHashEntry.Passes l.next.passSpace l.next.passSpace.Stuck := by
  constructor
  · have he := reaches_readExpression l.next.passSpace
    simp only [readHashEntry]
    split
    · split
      · exact he
      · split <;> exact he
    · exact .refl _
  · rintro (hk | hk) <;>
    · simp only [readHashEntry, hk]
      exact ⟨_, rfl⟩

theorem passes_readHashEntry_of_expression (hs : l.next.passSpace.kind = .colon) :
    l.readHashEntry.Passes l.next.passSpace.scanExpression.lexer
      l.next.passSpace.scanExpression.Fails := by
  constructor
  · simp only [readHashEntry, hs, if_true]
    split
    · exact .refl _
    · split <;> exact .refl _
  · rintro ⟨d, hd⟩
    have hd : l.next.passSpace.readExpression.1 = .error d := hd
    simp only [readHashEntry, hs, if_true, hd]
    exact ⟨d, rfl⟩

variable {l}

theorem passes_readHashEntries_of_sign {e : Text × Text} (hk : l.passBlank.kind = .identifier)
    (he : l.passBlank.readHashEntry.value = .ok e) :
    l.readHashEntries.Passes l.passBlank.readHashEntry.lexer.next.passBlank
      l.passBlank.readHashEntry.lexer.next.passBlank.Stuck := by
  rw [readHashEntries_of_entry hk he]
  constructor
  · simp only
    split
    · rename_i hs
      exact (advances_next (by simp [hs])).reaches.trans (reaches_readHashEntries _)
    · exact .refl _
    · exact .refl _
  · rintro (hs | hs) <;>
    · simp only [hs]
      exact ⟨_, rfl⟩

theorem passes_readHashEntries_of_entry (hk : l.passBlank.kind = .identifier) :
    l.readHashEntries.Passes l.passBlank.readHashEntry.lexer l.passBlank.readHashEntry.Fails := by
  cases he : l.passBlank.readHashEntry.value with
  | error d =>
    rw [readHashEntries_of_refused hk he]
    exact ⟨.refl _, fun _ => ⟨d, rfl⟩⟩
  | ok e =>
    have hcolon : l.passBlank.readHashEntry.lexer.kind ≠ .eof := by simp [kind_readHashEntry he]
    exact ⟨((advances_next hcolon).reaches.trans (reaches_passBlank _)).trans
      (passes_readHashEntries_of_sign hk he).reaches, fun h => absurd h (Reading.not_fails he)⟩

theorem passes_readHashEntries_of_key :
    l.readHashEntries.Passes l.passBlank l.passBlank.Stuck := by
  by_cases hi : l.passBlank.kind = .identifier
  · exact ⟨(advances_readHashEntry (by simp [hi])).reaches.trans
      (passes_readHashEntries_of_entry hi).reaches, by rintro (hk | hk) <;> simp [hi] at hk⟩
  · by_cases hc : l.passBlank.kind = .closeBrace
    · rw [readHashEntries_of_closed hc]
      exact ⟨.refl _, by rintro (hk | hk) <;> simp [hc] at hk⟩
    · rw [readHashEntries_of_noKey hc hi]
      exact ⟨.refl _, fun _ => ⟨_, rfl⟩⟩

/-- A list that stands here is left, closed or not, behind where its attributes end. -/
theorem passes_readAttributeList (hk : l.kind = .openParen) :
    l.readAttributeList.Passes (l.inMode .list).next.readAttributes.lexer
      (l.inMode .list).next.readAttributes.Fails := by
  have hline := reaches_line (l.inMode .list).next.readAttributes.lexer
  simp only [readAttributeList, hk, if_true]
  split
  · rename_i as hv
    exact ⟨hline.trans (advances_next (by simp [kind_readAttributes _ _ hv])).reaches,
      fun h => absurd h (Reading.not_fails hv)⟩
  · exact ⟨hline, fun _ => ⟨_, rfl⟩⟩

theorem passes_readAttributeHash (hk : l.kind = .openBrace) :
    l.readAttributeHash.Passes (l.inMode .hash).next.readHashEntries.lexer
      (l.inMode .hash).next.readHashEntries.Fails := by
  have hline := reaches_line (l.inMode .hash).next.readHashEntries.lexer
  simp only [readAttributeHash, hk, if_true]
  split
  · rename_i es hv
    exact ⟨hline.trans (advances_next (by simp [kind_readHashEntries _ _ hv])).reaches,
      fun h => absurd h (Reading.not_fails hv)⟩
  · exact ⟨hline, fun _ => ⟨_, rfl⟩⟩

end Ways

/-! ### Attribute lists -/

namespace Lockstep

variable {L : Likeness} {Near Past : Lexer → Lexer → Prop} {Lost : Prop → Lexer → Lexer → Prop}
  (H : Lockstep L Near Past Lost) {l l' : Lexer}

include H

/-- Lexers that were lost on the way are lost where the readings end. -/
theorem astray {α : Type} {R : α → α → Prop} {After : Lexer → Lexer → Prop} {r r' : Reading α}
    {P : Prop} (h : Lost P l l') (hr : r.Passes l P) (hr' : l'.Reaches r'.lexer) :
    r.Agree L Near After Lost R r' :=
  .lost (H.lost h hr.reaches hr' hr.fails)

theorem passSpace (h : Aside Near Lost l l') : Aside Near Lost l.passSpace l'.passSpace := by
  rcases h with h | h
  · simp only [Lexer.passSpace, H.kind_iff h (k := .space) (by decide) (by decide)]
    split
    · rename_i hk
      exact H.next h (by simp [hk])
    · exact .inl h
  · refine .inr (H.lost h (reaches_passSpace l) (reaches_passSpace l') fun hs => ?_)
    rwa [Lexer.passSpace, if_neg (by rcases hs with hk | hk <;> simp [hk])]

theorem passBlank (h : Aside Near Lost l l') : Aside Near Lost l.passBlank l'.passBlank := by
  have hlost {k k' : Lexer} (h : Lost k.Stuck k k') : Aside Near Lost k.passBlank k'.passBlank := by
    refine .inr (H.lost h (reaches_passBlank k) (reaches_passBlank k') fun hs => ?_)
    rwa [Lexer.passBlank, if_neg (by rcases hs with hk | hk <;> simp [hk])]
  rcases h with h | h
  case inr => exact hlost h
  suffices hall : ∀ m, Near l m → Aside Near Lost l.passBlank m.passBlank from hall l' h
  clear h
  fun_induction Lexer.passBlank l with
  | case1 l hk ih =>
    intro m h
    have hne : l.kind ≠ .eof := by rcases hk with hk | hk <;> simp [hk]
    rw [Lexer.passBlank.eq_def m, H.kind_eq h hne, if_pos hk]
    rcases H.next h hne with h | h
    · exact ih _ h
    · exact hlost h
  | case2 l hk =>
    intro m h
    rw [Lexer.passBlank.eq_def m]
    rcases H.kind h with heq | ⟨hl, hm⟩
    · rw [heq, if_neg hk]
      exact .inl h
    · -- The last line end is passed, and nothing follows it.
      obtain ⟨hnear, hend⟩ := H.finish h hl hm
      rw [if_pos (.inr hm), Lexer.passBlank.eq_def, if_neg (by simp [hend])]
      exact .inl hnear

theorem readAttribute (h : Near l l') (hk : l.kind = .attributeName) :
    l.readAttribute.Agree L Near (Aside Near Lost) Lost Eq l'.readAttribute := by
  have hl : l.endsLine = false := by rw [Lexer.endsLine, hk]; rfl
  rcases H.passSpace (H.next h (by simp [hk])) with hsign | hsign
  case inr =>
    exact H.astray hsign l.passes_readAttribute_of_sign l'.passes_readAttribute_of_sign.reaches
  have hequals := H.kind_iff hsign (k := .equals) (by decide) (by decide)
  by_cases hs : l.next.passSpace.kind = .equals
  case neg =>
    have hs' := mt hequals.1 hs
    simp only [Lexer.readAttribute, hs, hs', if_false]
    exact .fault rfl rfl (H.refused hsign _) hsign .nil
  have hs' := hequals.2 hs
  rcases H.passSpace (H.next hsign (by simp [hs])) with hvalue | hvalue
  case inr =>
    exact H.astray hvalue (l.passes_readAttribute_of_value hs)
      (l'.passes_readAttribute_of_value hs').reaches
  have hquoted := H.kind_iff hvalue (k := .quoted) (by decide) (by decide)
  have hname := H.kind_iff hvalue (k := .attributeName) (by decide) (by decide)
  simp only [Lexer.readAttribute, hs, hs', if_true, hquoted, hname]
  split
  · rename_i hv
    have hv : l.next.passSpace.next.passSpace.endsLine = false := by
      rcases hv with hv | hv <;> rw [Lexer.endsLine, hv] <;> rfl
    refine .ok rfl rfl ?_ (H.next hvalue (kind_ne_eof_of_not_endsLine hv)) .nil
    rw [H.text_eq h hl, H.text_eq hvalue hv]
  · exact .fault rfl rfl (H.refused hvalue _) hvalue .nil

theorem readAttributes (h : Aside Near Lost l l') :
    l.readAttributes.Agree L Near Near Lost Eq l'.readAttributes := by
  -- Lexers that were lost are not followed any further.
  have haside {k k' : Lexer}
      (hnear : ∀ m, Near k m → k.readAttributes.Agree L Near Near Lost Eq m.readAttributes)
      (h : Aside Near Lost k k') : k.readAttributes.Agree L Near Near Lost Eq k'.readAttributes :=
    h.elim (hnear k') fun h => H.astray h k.passes_readAttributes (reaches_readAttributes k')
  refine haside (fun m => ?_) h
  clear h
  fun_induction Lexer.readAttributes l generalizing m with
  | case1 l hk =>
    intro h
    rw [Lexer.readAttributes.eq_def m, H.kind_eq h (by simp [hk]), hk]
    exact .ok rfl rfl rfl h .nil
  | case2 l hk e he =>
    intro h
    have hkm : m.kind = .attributeName := (H.kind_eq h (by simp [hk])).trans hk
    cases H.readAttribute h hk with
    | lost ha =>
      exact .lost (H.lost ha (.refl _) (m.passes_readAttributes_of_attribute hkm).reaches
        fun _ => ⟨e, rfl⟩)
    | ok hv => simp [he] at hv
    | @fault d d' hd hd' hD ha =>
      obtain rfl : d = e := by simpa [he] using hd.symm
      rw [Lexer.readAttributes.eq_def m, hkm]
      simp only [hd']
      exact .fault rfl rfl hD ha .nil
  | case3 l hk a ha r ih =>
    intro h
    have hkm : m.kind = .attributeName := (H.kind_eq h (by simp [hk])).trans hk
    cases H.readAttribute h hk with
    | lost hlost =>
      exact .lost (H.lost hlost (reaches_readAttributes _)
        (m.passes_readAttributes_of_attribute hkm).reaches
        fun h => absurd h (Reading.not_fails ha))
    | @ok v v' hv hv' heq haside' _ =>
      obtain rfl : v = a := by simpa [ha] using hv.symm
      subst heq
      rw [Lexer.readAttributes.eq_def m, hkm]
      simp only [hv']
      exact (haside ih haside').map (fun v v' hv => congrArg (_ :: ·) hv) fun _ => .nil
    | fault hd => simp [ha] at hd
  | case4 l hk ih =>
    intro h
    have hne : l.kind ≠ .eof := by simp [hk]
    rw [Lexer.readAttributes.eq_def m, H.kind_eq h hne, hk]
    exact haside ih (H.next h hne)
  | case5 l hk ih =>
    intro h
    have hne : l.kind ≠ .eof := by simp [hk]
    rw [Lexer.readAttributes.eq_def m, H.kind_eq h hne, hk]
    exact haside ih (H.next h hne)
  | case6 l h₁ h₂ h₃ h₄ =>
    intro h
    rw [Lexer.readAttributes.eq_def m]
    rcases H.kind h with heq | ⟨hl, hm⟩
    · rw [heq]
      cases hk : l.kind <;> first | exact .fault rfl rfl (H.refused h _) h .nil | contradiction
    · obtain ⟨hnear, hend⟩ := H.finish h hl hm
      rw [hm]
      simp only
      rw [Lexer.readAttributes.eq_def, hend]
      exact .fault rfl rfl (H.refused hnear _) hnear .nil

theorem readAttributeList (h : Near l l') :
    l.readAttributeList.Agree L Near Near Lost Eq l'.readAttributeList := by
  have hparen := H.kind_iff h (k := .openParen) (by decide) (by decide)
  by_cases hk : l.kind = .openParen
  case neg =>
    simp only [Lexer.readAttributeList, hk, mt hparen.1 hk, if_false]
    exact .ok rfl rfl rfl h .nil
  have hk' := hparen.2 hk
  cases H.readAttributes (H.next (H.inMode h .list) (by simp [hk])) with
  | lost ha =>
    exact H.astray ha (passes_readAttributeList hk) (passes_readAttributeList hk').reaches
  | @ok v v' hv hv' heq hnear _ =>
    have hclosed : ((l.inMode .list).next.readAttributes.lexer.inMode .line).endsLine = false := by
      rw [endsLine_inMode, endsLine, kind_readAttributes _ _ hv]
      rfl
    simp only [Lexer.readAttributeList, hk, hk', if_true, hv, hv']
    exact .ok rfl rfl heq (H.within (H.inMode hnear .line) rfl hclosed) .nil
  | fault hd hd' hD hnear _ =>
    simp only [Lexer.readAttributeList, hk, hk', if_true, hd, hd']
    exact .fault rfl rfl hD (H.inMode hnear .line) .nil

/-! ### Attribute hashes -/

theorem readHashEntry (h : Near l l') (hk : l.kind = .identifier) :
    l.readHashEntry.Agree L Near Near Lost L.entry l'.readHashEntry := by
  have hkey : l'.token.text = l.token.text := H.text_eq h (by rw [Lexer.endsLine, hk]; rfl)
  rcases H.passSpace (H.next h (by simp [hk])) with hsign | hsign
  case inr =>
    exact H.astray hsign l.passes_readHashEntry_of_sign l'.passes_readHashEntry_of_sign.reaches
  have hcolon := H.kind_iff hsign (k := .colon) (by decide) (by decide)
  by_cases hs : l.next.passSpace.kind = .colon
  case neg =>
    have hs' := mt hcolon.1 hs
    simp only [Lexer.readHashEntry, hs, hs', if_false]
    exact .fault rfl rfl (H.refused hsign _) hsign .nil
  have hs' := hcolon.2 hs
  cases H.expression hsign hs with
  | lost ha =>
    exact H.astray ha (l.passes_readHashEntry_of_expression hs)
      (l'.passes_readHashEntry_of_expression hs').reaches
  | @ok e e' he he' heq hnear hp =>
    have he : l.next.passSpace.readExpression.1 = .ok e := he
    have he' : l'.next.passSpace.readExpression.1 = .ok e' := he'
    simp only [scanExpression, he, he'] at hp hnear
    simp only [Lexer.readHashEntry, hs, hs', if_true, he, he', L.text_isEmpty heq, hkey]
    split
    · exact .fault rfl rfl (H.refused hnear _) hnear hp
    · exact .ok rfl rfl ⟨rfl, heq⟩ hnear hp
  | @fault d d' hd hd' hD hnear hp =>
    have hd : l.next.passSpace.readExpression.1 = .error d := hd
    have hd' : l'.next.passSpace.readExpression.1 = .error d' := hd'
    simp only [scanExpression, hd, hd'] at hp hnear
    simp only [Lexer.readHashEntry, hs, hs', if_true, hd, hd']
    exact .fault rfl rfl hD hnear hp

theorem readHashEntries (h : Aside Near Lost l l') :
    l.readHashEntries.Agree L Near Near Lost (List.Forall₂ L.entry) l'.readHashEntries := by
  induction hn : l.remaining using Nat.strongRecOn generalizing l l' with
  | _ n ih =>
  rcases H.passBlank h with hkey | hkey
  case inr =>
    exact H.astray hkey passes_readHashEntries_of_key passes_readHashEntries_of_key.reaches
  have hident := H.kind_iff hkey (k := .identifier) (by decide) (by decide)
  have hbrace := H.kind_iff hkey (k := .closeBrace) (by decide) (by decide)
  by_cases hi : l.passBlank.kind = .identifier
  case neg =>
    by_cases hc : l.passBlank.kind = .closeBrace
    · rw [readHashEntries_of_closed hc, readHashEntries_of_closed (hbrace.2 hc)]
      exact .ok rfl rfl .nil hkey .nil
    · rw [readHashEntries_of_noKey hc hi,
        readHashEntries_of_noKey (mt hbrace.1 hc) (mt hident.1 hi)]
      exact .fault rfl rfl (H.refused hkey _) hkey .nil
  have hi' := hident.2 hi
  cases H.readHashEntry hkey hi with
  | lost ha =>
    exact H.astray ha (passes_readHashEntries_of_entry hi)
      (passes_readHashEntries_of_entry hi').reaches
  | fault hd hd' hD hnear hp =>
    rw [readHashEntries_of_refused hi hd, readHashEntries_of_refused hi' hd']
    exact .fault rfl rfl hD hnear hp
  | @ok e e' he he' heq hnear hp =>
    -- Behind an entry the lexers go on to the sign that parts it from the next one.
    rcases H.passBlank (H.next hnear (by simp [kind_readHashEntry he])) with hsign | hsign
    case inr =>
      exact H.astray hsign (passes_readHashEntries_of_sign hi he)
        (passes_readHashEntries_of_sign hi' he').reaches
    have hcomma := H.kind_iff hsign (k := .comma) (by decide) (by decide)
    have hclose := H.kind_iff hsign (k := .closeBrace) (by decide) (by decide)
    rw [readHashEntries_of_entry hi he, readHashEntries_of_entry hi' he']
    by_cases hs : l.passBlank.readHashEntry.lexer.next.passBlank.kind = .comma
    · simp only [hs, hcomma.2 hs]
      have hless : l.passBlank.readHashEntry.lexer.next.passBlank.next.remaining < n := by
        have hsign := ((reaches_passBlank l).advances
          (advances_hashSeparator (by simp [hi]) he)).remaining_lt
        have hnext := remaining_next_le l.passBlank.readHashEntry.lexer.next.passBlank
        omega
      exact (ih _ hless (H.next hsign (by simp [hs])) rfl).map
        (fun _ _ hes => .cons heq hes) fun hmore => List.rel_append hp hmore
    · by_cases hc : l.passBlank.readHashEntry.lexer.next.passBlank.kind = .closeBrace
      · simp only [hc, hclose.2 hc]
        exact .ok rfl rfl (.cons heq .nil) hsign hp
      · have hs' := mt hcomma.1 hs
        have hc' := mt hclose.1 hc
        simp only
        exact .fault rfl rfl (H.refused hsign _) hsign hp

theorem readAttributeHash (h : Near l l') :
    l.readAttributeHash.Agree L Near Near Lost (List.Forall₂ L.entry) l'.readAttributeHash := by
  have hbrace := H.kind_iff h (k := .openBrace) (by decide) (by decide)
  by_cases hk : l.kind = .openBrace
  case neg =>
    simp only [Lexer.readAttributeHash, hk, mt hbrace.1 hk, if_false]
    exact .ok rfl rfl .nil h .nil
  have hk' := hbrace.2 hk
  cases H.readHashEntries (H.next (H.inMode h .hash) (by simp [hk])) with
  | lost ha =>
    exact H.astray ha (passes_readAttributeHash hk) (passes_readAttributeHash hk').reaches
  | @ok v v' hv hv' heq hnear hp =>
    have hclosed : ((l.inMode .hash).next.readHashEntries.lexer.inMode .line).endsLine = false := by
      rw [endsLine_inMode, endsLine, kind_readHashEntries _ _ hv]
      rfl
    simp only [Lexer.readAttributeHash, hk, hk', if_true, hv, hv']
    exact .ok rfl rfl heq (H.within (H.inMode hnear .line) rfl hclosed) hp
  | fault hd hd' hD hnear hp =>
    simp only [Lexer.readAttributeHash, hk, hk', if_true, hd, hd']
    exact .fault rfl rfl hD (H.inMode hnear .line) hp

end Lockstep

end Lexer

end Haml
