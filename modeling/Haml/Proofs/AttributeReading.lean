import Haml.Proofs.MergedAttributes
import Haml.Proofs.RunLines
import Haml.Proofs.SeamRows

/-!
# Reading static attributes back

The static attributes of a tag are written between double quotes as they are. Where no value has
a double quote they are read back. A value can have one only if it is given between single
quotes; then it ends its own attribute, and what follows the quote is read as something else.
-/

namespace Haml

namespace Html

def isNameSign (c : Char) : Bool := c != ' ' && c != '=' && c != '"'

/-- One attribute at the start of a text, and the text behind it. The value goes up to the next
double quote. -/
def readAttribute? (t : Text) : Option ((Text × Text) × Text) :=
  (Text.after? " " t).bind fun u =>
    (Text.after? "=\"" (u.dropWhile isNameSign)).bind fun v =>
      (Text.after? "\"" (v.dropWhile (· != '"'))).map fun rest =>
        ((u.takeWhile isNameSign, v.takeWhile (· != '"')), rest)

def readAttributes? (t : Text) : Option (List (Text × Text)) :=
  if t = [] then some []
  else
    match readAttribute? t with
    | none => none
    | some r => if r.2.length < t.length then (readAttributes? r.2).map (r.1 :: ·) else none
termination_by t.length

theorem readAttribute?_asMarkup {p : Text × Text} (hn : ∀ c ∈ p.1, isNameSign c = true)
    (hv : '"' ∉ p.2) (rest : Text) : readAttribute? (asMarkup p ++ rest) = some (p, rest) := by
  have hvalue : ∀ c ∈ p.2, (c != '"') = true := by
    intro c hc
    simpa using ne_of_mem_of_not_mem hc hv
  have hcut : asMarkup p ++ rest =
      " ".toList ++ (p.1 ++ ("=\"".toList ++ (p.2 ++ '"' :: rest))) := by
    simp [asMarkup]
  have hname : (p.1 ++ ("=\"".toList ++ (p.2 ++ '"' :: rest))).takeWhile isNameSign = p.1 := by
    rw [List.takeWhile_append_of_pos hn]
    simp [isNameSign]
  have hsign : (p.1 ++ ("=\"".toList ++ (p.2 ++ '"' :: rest))).dropWhile isNameSign =
      "=\"".toList ++ (p.2 ++ '"' :: rest) := by
    rw [List.dropWhile_append_of_pos hn]
    simp [isNameSign]
  have htake : (p.2 ++ '"' :: rest).takeWhile (· != '"') = p.2 := by
    rw [List.takeWhile_append_of_pos hvalue]
    simp
  have hdrop : (p.2 ++ '"' :: rest).dropWhile (· != '"') = "\"".toList ++ rest := by
    rw [List.dropWhile_append_of_pos hvalue]
    simp
  rw [hcut, readAttribute?, Text.after?_append, Option.bind_some, hsign, Text.after?_append,
    Option.bind_some, hdrop, Text.after?_append, hname, htake]
  rfl

theorem readAttributes?_flatMap {ps : List (Text × Text)}
    (h : ∀ p ∈ ps, (∀ c ∈ p.1, isNameSign c = true) ∧ '"' ∉ p.2) :
    readAttributes? (ps.flatMap asMarkup) = some ps := by
  induction ps with
  | nil =>
    rw [List.flatMap_nil, readAttributes?]
    rfl
  | cons p ps ih =>
    obtain ⟨hn, hv⟩ := h p (List.mem_cons_self ..)
    have hne : asMarkup p ++ ps.flatMap asMarkup ≠ [] := by simp [asMarkup]
    have hlt : (ps.flatMap asMarkup).length < (asMarkup p ++ ps.flatMap asMarkup).length := by
      rw [List.length_append]
      exact Nat.lt_add_of_pos_left (by simp [asMarkup])
    rw [List.flatMap_cons, readAttributes?, if_neg hne, readAttribute?_asMarkup hn hv]
    simp only [if_pos hlt]
    rw [ih fun q hq => h q (List.mem_cons_of_mem p hq)]
    rfl

/-- No value that is read has a double quote. -/
theorem not_mem_of_readAttributes? {t : Text} {ps : List (Text × Text)}
    (h : readAttributes? t = some ps) : ∀ p ∈ ps, '"' ∉ p.2 := by
  have hone {t : Text} {r : (Text × Text) × Text} (hr : readAttribute? t = some r) :
      '"' ∉ r.1.2 := by
    obtain ⟨u, -, hu⟩ := Option.bind_eq_some_iff.1 hr
    obtain ⟨v, -, hv⟩ := Option.bind_eq_some_iff.1 hu
    obtain ⟨rest, -, rfl⟩ := Option.map_eq_some_iff.1 hv
    intro hmem
    simpa using List.mem_takeWhile_imp hmem
  fun_induction readAttributes? t generalizing ps with
  | case1 =>
    cases h
    exact fun p hp => absurd hp (List.not_mem_nil)
  | case2 => cases h
  | case3 t _ r hr _ ih =>
    obtain ⟨more, hmore, rfl⟩ := Option.map_eq_some_iff.1 h
    intro p hp
    rcases List.mem_cons.1 hp with rfl | hp
    · exact hone hr
    · exact ih hmore p hp
  | case4 => cases h

/-- Attributes are read back exactly if no value has a double quote. -/
theorem readAttributes?_eq_iff {ps : List (Text × Text)}
    (h : ∀ p ∈ ps, ∀ c ∈ p.1, isNameSign c = true) :
    readAttributes? (ps.flatMap asMarkup) = some ps ↔ ∀ p ∈ ps, '"' ∉ p.2 :=
  ⟨not_mem_of_readAttributes?, fun hv => readAttributes?_flatMap fun p hp => ⟨h p hp, hv p hp⟩⟩

/-! ### Where a double quote comes from -/

/-- A character of a merged value that is not in the name and does not join values is in one of
the values. -/
theorem mem_of_mem_mergedValue {c : Char} {n : Text} {vs : List Text}
    (h : c ∈ mergedValue n vs) (hn : c ∉ n) (hc : c ≠ '-' ∧ c ≠ ' ') : ∃ v ∈ vs, c ∈ v := by
  unfold mergedValue at h
  split at h
  · exact (Text.mem_join h).resolve_left (by simpa using hc.1)
  · split at h
    · exact (Text.mem_join h).resolve_left (by simpa using hc.2)
    · split at h
      · exact absurd h hn
      · match hv : vs.getLast? with
        | none =>
          rw [List.getLastD_eq_getLast?, hv] at h
          cases h
        | some v =>
          rw [List.getLastD_eq_getLast?, hv] at h
          exact ⟨v, List.mem_of_getLast? hv, h⟩

theorem mem_givenPairs {ids classes : List Text} {pairs : List (Text × Text)} {p : Text × Text}
    (h : p ∈ givenPairs ids classes pairs) :
    p.1 = "id" ∧ p.2 ∈ ids ∨ p.1 = "class" ∧ p.2 ∈ classes ∨ p ∈ pairs := by
  have hmem := List.mem_of_mem_filter h
  rw [List.mem_append, List.mem_append, List.mem_map, List.mem_map] at hmem
  rcases hmem with (⟨i, hi, rfl⟩ | ⟨i, hi, rfl⟩) | hp
  · exact .inl ⟨rfl, hi⟩
  · exact .inr (.inl ⟨rfl, hi⟩)
  · exact .inr (.inr hp)

/-- The names of merged attributes can be read. -/
theorem isNameSign_of_mem_mergedPairs {ids classes : List Text} {pairs : List (Text × Text)}
    (hnames : ∀ p ∈ pairs, ∀ c ∈ p.1, isNameSign c = true) {p : Text × Text}
    (hp : p ∈ mergedPairs (givenPairs ids classes pairs)) : ∀ c ∈ p.1, isNameSign c = true := by
  obtain ⟨n, hn, rfl⟩ := List.mem_map.1 hp
  obtain ⟨w, hw⟩ := mem_namesOf.1 hn
  rcases mem_givenPairs hw with ⟨rfl, -⟩ | ⟨rfl, -⟩ | hw
  · exact List.all_eq_true.1 rfl
  · exact List.all_eq_true.1 rfl
  · exact hnames (n, w) hw

/-- A double quote in a merged value stands in a value of the attribute list, if the selectors
have none and the names can be read. -/
theorem exists_of_mem_mergedPairs {ids classes : List Text} {pairs : List (Text × Text)}
    (hids : ∀ i ∈ ids, '"' ∉ i) (hclasses : ∀ i ∈ classes, '"' ∉ i)
    (hnames : ∀ p ∈ pairs, ∀ c ∈ p.1, isNameSign c = true) {p : Text × Text}
    (hp : p ∈ mergedPairs (givenPairs ids classes pairs)) (hq : '"' ∈ p.2) :
    ∃ v, (p.1, v) ∈ pairs ∧ '"' ∈ v := by
  have hname : '"' ∉ p.1 := by
    intro hmem
    cases isNameSign_of_mem_mergedPairs hnames hp '"' hmem
  obtain ⟨n, -, rfl⟩ := List.mem_map.1 hp
  obtain ⟨v, hv, hqv⟩ := mem_of_mem_mergedValue hq hname (by decide)
  obtain ⟨⟨m, u⟩, hmem, rfl⟩ := List.mem_map.1 hv
  obtain ⟨hgiven, hm⟩ := List.mem_filter.1 hmem
  obtain rfl : m = n := of_decide_eq_true hm
  rcases mem_givenPairs hgiven with ⟨-, hi⟩ | ⟨-, hi⟩ | hpair
  · exact absurd hqv (hids _ hi)
  · exact absurd hqv (hclasses _ hi)
  · exact ⟨u, hpair, hqv⟩

end Html

/-! ### The texts of tokens -/

namespace Lexeme

variable {mode : Mode} {t : Text} {x : Lexeme}

/-- A lexeme of a kind that no single sign has is read by a rule of that kind. -/
theorem rule_of_read? (h : read? mode t = some x) (hk : ∀ c, signKind c ≠ x.kind) :
    ∃ r ∈ rules mode, ∃ m, r.pattern t = some m ∧ x = ⟨r.kind, m, r.cut.apply m⟩ := by
  cases t with
  | nil => cases h
  | cons c t =>
    rcases read?_cases h with ⟨r, hr, hx⟩ | ⟨-, rfl⟩
    · obtain ⟨m, hm, rfl⟩ := Option.map_eq_some_iff.1 hx
      exact ⟨r, hr, m, hm, rfl⟩
    · exact absurd rfl (hk c)

theorem signKind_ne_value {c : Char} :
    signKind c ≠ .attributeName ∧ signKind c ≠ .quoted ∧ signKind c ≠ .idSelector ∧
      signKind c ≠ .classSelector := by
  simp only [signKind]
  split <;> exact ⟨by decide, by decide, by decide, by decide⟩

/-- How the rules cut out selectors and the names and values of attribute lists. -/
theorem cut_of_mem_rules {r : Rule} (h : r ∈ rules mode) :
    (r.kind = .attributeName →
      r.pattern = Pattern.headed Char.isAlpha (fun c => c.isAlphanum || c == '-') ∧
        r.cut = .whole) ∧
    (r.kind = .idSelector ∨ r.kind = .classSelector →
      (r.pattern = signed "#" (Pattern.many1 isSelectorChar) ∨
        r.pattern = signed "." (Pattern.many1 isSelectorChar)) ∧ r.cut = .afterSign) ∧
    (r.kind = .quoted → r.cut = .betweenMarks) := by
  revert r
  cases mode <;> simp [rules, commonRules, lineRules, listRules, hashRules]

theorem all_of_headed {p q : Char → Bool} {t m : Text} (h : Pattern.headed p q t = some m)
    (hpq : ∀ c, p c = true → q c = true) : ∀ c ∈ m, q c = true := by
  cases t with
  | nil => cases h
  | cons d t =>
    simp only [Pattern.headed] at h
    split at h
    · rename_i hd
      cases h
      intro c hc
      rcases List.mem_cons.1 hc with rfl | hc
      · exact hpq c hd
      · exact List.mem_takeWhile_imp hc
    · cases h

/-- The name of an attribute has no sign that a tag gives a meaning to. -/
theorem name_of_read? (h : read? mode t = some x) (hk : x.kind = .attributeName) :
    ∀ c ∈ x.text, Html.isNameSign c = true := by
  obtain ⟨r, hr, m, hm, rfl⟩ := rule_of_read? h fun c => by
    rw [hk]
    exact signKind_ne_value.1
  obtain ⟨hpattern, hcut⟩ := (cut_of_mem_rules hr).1 hk
  rw [hpattern] at hm
  simp only [hcut, Cut.apply]
  intro c hc
  have hsign := all_of_headed hm (by simp +contextual [Char.isAlphanum]) c hc
  by_contra hn
  simp only [Html.isNameSign, Bool.and_eq_true, bne_iff_ne, not_and_or, not_not] at hn
  rcases hn with (rfl | rfl) | rfl <;> cases hsign

/-- A selector has no double quote. -/
theorem selector_of_read? (h : read? mode t = some x)
    (hk : x.kind = .idSelector ∨ x.kind = .classSelector) : '"' ∉ x.text := by
  obtain ⟨r, hr, m, hm, rfl⟩ := rule_of_read? h fun c hc =>
    hk.elim (fun hk => signKind_ne_value.2.2.1 (hc.trans hk))
      fun hk => signKind_ne_value.2.2.2 (hc.trans hk)
  obtain ⟨hrule, hcut⟩ := (cut_of_mem_rules hr).2.1 hk
  obtain ⟨sign, hpattern⟩ : ∃ sign, r.pattern = signed [sign] (Pattern.many1 isSelectorChar) :=
    hrule.elim (fun h => ⟨'#', h⟩) fun h => ⟨'.', h⟩
  rw [hpattern, signed] at hm
  obtain ⟨a, b, rfl, ha, hb⟩ := Pattern.andThen_eq_some hm
  obtain rfl : a = [sign] := by
    simp only [Pattern.exactly] at ha
    split at ha <;> simp_all
  simp only [hcut, Cut.apply, List.singleton_append, List.drop_one, List.tail_cons]
  intro hq
  cases all_of_headed hb (fun _ hc => hc) '"' hq

/-- A quoted value is what stands between two equal quotes, and has no such quote. -/
theorem quotes_of_read? (h : read? mode t = some x) (hk : x.kind = .quoted) :
    ∃ q, (q = '\'' ∨ q = '"') ∧ x.matched = q :: (x.text ++ [q]) ∧ q ∉ x.text := by
  obtain ⟨r, hr, m, hm, rfl⟩ := rule_of_read? h fun c => by
    rw [hk]
    exact signKind_ne_value.2.1
  obtain ⟨-, q, hq, hpattern⟩ := quotedRule_of_mem hr hk
  rw [hpattern] at hm
  obtain ⟨a, u, rfl, -, ha⟩ := quotedBy_eq_some.1 hm
  have htext : r.cut.apply (q :: (a ++ [q])) = a := by
    rw [(cut_of_mem_rules hr).2.2 hk]
    simp [Cut.apply]
  simp only [htext]
  refine ⟨q, hq, rfl, fun hmem => ?_⟩
  simpa using ha q hmem

end Lexeme

namespace Lexer

variable {source : Text} {l : Lexer}

/-- A token is a lexeme of a text that stands in the source. -/
theorem OnToken.lexeme (h : l.OnToken source) (hk : l.kind ≠ .eof) :
    ∃ mode t x, Lexeme.read? mode t = some x ∧ l.kind = x.kind ∧ l.token.text = x.text ∧
      x.matched <:+: source := by
  obtain ⟨mode, c, ⟨before, rest, hsource, -, rfl⟩, hscan⟩ := h.scanned
  cases hx : Lexeme.read? mode rest with
  | none =>
    rw [scan_of_nil (Lexeme.read?_eq_none.1 hx)] at hscan
    exact absurd (by rw [kind, ← (Prod.mk.inj hscan).1]) hk
  | some x =>
    have hx' : Lexeme.read? mode (Cursor.counted before rest).rest = some x := hx
    simp only [scan, hx'] at hscan
    obtain ⟨htoken, -⟩ := Prod.mk.inj hscan
    obtain ⟨r, hrest, -⟩ := Lexeme.read?_cuts hx
    refine ⟨mode, rest, x, hx, ?_, ?_, before, r, ?_⟩
    · rw [kind, ← htoken]
    · rw [← htoken]
    · rw [hsource, hrest, List.append_assoc]

/-- What is known of an attribute that is read from a list: its name is one, and a value with a
double quote stands in the source between single quotes. -/
structure Delivered (source : Text) (p : Text × Text) : Prop where
  name : ∀ c ∈ p.1, Html.isNameSign c = true
  value : '"' ∈ p.2 → '\'' ∉ p.2 ∧ '\'' :: (p.2 ++ ['\'']) <:+: source

theorem OnToken.name (h : l.OnToken source) (hk : l.kind = .attributeName) :
    ∀ c ∈ l.token.text, Html.isNameSign c = true := by
  obtain ⟨mode, t, x, hx, hkind, htext, -⟩ := h.lexeme (by rw [hk]; decide)
  rw [htext]
  exact Lexeme.name_of_read? hx (hkind.symm.trans hk)

theorem OnToken.quotes (h : l.OnToken source) (hk : l.kind = .quoted) (hq : '"' ∈ l.token.text) :
    '\'' ∉ l.token.text ∧ '\'' :: (l.token.text ++ ['\'']) <:+: source := by
  obtain ⟨mode, t, x, hx, hkind, htext, hsource⟩ := h.lexeme (by rw [hk]; decide)
  obtain ⟨q, hquote, hmatched, hnot⟩ := Lexeme.quotes_of_read? hx (hkind.symm.trans hk)
  rw [htext] at hq ⊢
  rcases hquote with rfl | rfl
  · exact ⟨hnot, hmatched ▸ hsource⟩
  · exact absurd hq hnot

theorem OnToken.selector (h : l.OnToken source)
    (hk : l.kind = .idSelector ∨ l.kind = .classSelector) : '"' ∉ l.token.text := by
  have hne : l.kind ≠ .eof := by rcases hk with hk | hk <;> rw [hk] <;> decide
  obtain ⟨mode, t, x, hx, hkind, htext, -⟩ := h.lexeme hne
  rw [htext]
  exact Lexeme.selector_of_read? hx (by rwa [← hkind])

theorem OnToken.selectors (h : l.OnToken source) :
    (∀ i ∈ l.readSelectors.1.1, '"' ∉ i) ∧ ∀ i ∈ l.readSelectors.1.2, '"' ∉ i := by
  fun_induction Lexer.readSelectors l with
  | case1 l hk r ih =>
    exact ⟨List.forall_mem_cons.2 ⟨h.selector (.inl hk), (ih h.next).1⟩, (ih h.next).2⟩
  | case2 l _ hk r ih =>
    exact ⟨(ih h.next).1, List.forall_mem_cons.2 ⟨h.selector (.inr hk), (ih h.next).2⟩⟩
  | case3 l _ _ => simp

/-- One attribute that is read. -/
theorem OnToken.delivered (h : l.OnToken source) (hk : l.kind = .attributeName) {p : Text × Text}
    (hv : l.readAttribute.value = .ok p) :
    Delivered source p ∧ l.readAttribute.lexer.OnToken source := by
  have hvalue := h.next.passSpace.next.passSpace
  simp only [readAttribute] at hv ⊢
  split at hv
  · split at hv
    · rename_i hs hkind
      cases hv
      rw [if_pos hs, if_pos hkind]
      refine ⟨⟨h.name hk, fun hq => ?_⟩, hvalue.next⟩
      -- A value without quotes is read by the rule for names, so it has no double quote.
      rcases hkind with hkind | hkind
      · exact hvalue.quotes hkind hq
      · cases hvalue.name hkind '"' hq
    · cases hv
  · cases hv

theorem OnToken.delivered_readAttributes (h : l.OnToken source) :
    ∀ ps, l.readAttributes.value = .ok ps → ∀ p ∈ ps, Delivered source p := by
  fun_induction Lexer.readAttributes l with
  | case1 l _ =>
    intro ps hv
    cases hv
    simp
  | case2 l _ e _ =>
    intro ps hv
    cases hv
  | case3 l hk a ha r ih =>
    intro ps hv
    obtain ⟨as, has⟩ := ok_of_map_ok hv
    obtain ⟨hone, hbehind⟩ := h.delivered hk ha
    simp only [has, Except.map] at hv
    cases hv
    exact List.forall_mem_cons.2 ⟨hone, ih hbehind as has⟩
  | case4 l _ ih => exact ih h.next
  | case5 l _ ih => exact ih h.next
  | case6 l =>
    intro ps hv
    cases hv

theorem OnToken.delivered_readAttributeList (h : l.OnToken source) {ps : List (Text × Text)}
    (hv : l.readAttributeList.value = .ok ps) : ∀ p ∈ ps, Delivered source p := by
  simp only [Lexer.readAttributeList] at hv
  split at hv
  · split at hv
    · rename_i as has
      cases hv
      exact (h.inMode .list).next.delivered_readAttributes _ has
    · cases hv
  · cases hv
    simp

/-- What is known of the attributes of a tag that is read. -/
theorem OnToken.delivered_readTag (h : l.OnToken source) {depth : Nat} {head : TagHead}
    (hv : (l.readTag depth).value = .ok head) :
    (∀ i ∈ head.attributes.ids, '"' ∉ i) ∧ (∀ i ∈ head.attributes.classes, '"' ∉ i) ∧
      ∀ p ∈ head.attributes.pairs, Delivered source p := by
  obtain ⟨pairs, entries, hl, hh⟩ := ok_of_readTag hv
  have hlist := h.readName.readSelectors.readReference.delivered_readAttributeList hl
  obtain ⟨hids, hclasses⟩ := h.readName.selectors
  rw [readTag_of_ok depth hl hh] at hv
  split at hv
  · cases hv
  · cases hv
    exact ⟨hids, hclasses, hlist⟩

/-- A line is a tag only if it starts with one that is read. -/
theorem tag_of_readLine {depth : Nat} {head : TagHead} {contents : Contents}
    (hv : (l.readLine depth).value = .ok (.tag head contents)) :
    l.startsTag = true ∧ (l.readTag depth).value = .ok head := by
  by_cases ht : l.startsTag = true
  · refine ⟨ht, ?_⟩
    cases htag : (l.readTag depth).value with
    | error d =>
      rw [readLine_refused ht htag] at hv
      cases hv
    | ok head' =>
      rw [readLine_tag ht htag] at hv
      obtain ⟨c, hc⟩ := ok_of_map_ok hv
      simp only [hc, Except.map] at hv
      cases hv
      rfl
  · simp only [readLine_eq] at hv
    split at hv
    iterate 5 cases hv
    split at hv
    · cases hv
    · obtain ⟨c, hc⟩ := ok_of_map_ok hv
      simp only [hc, Except.map] at hv
      cases hv

end Lexer

/-- The name and the static attributes of a tag are written one after the other. -/
theorem TagHead.infix_opening_of_static {head : TagHead}
    (h : head.attributes.isDynamic = false) (depth : Nat) (framed : Bool) :
    let a := head.attributes
    [.markup ("<" ++ head.name), .markup (Html.staticAttributes a.ids a.classes a.pairs)] <:+:
      head.opening depth framed := by
  intro a
  have hattributes : head.attributeInstruction =
      .markup (Html.staticAttributes a.ids a.classes a.pairs) := by
    simp [attributeInstruction, h, a]
  rw [← hattributes, opening]
  exact List.infix_append _ _ _

namespace Context

variable {l : Lexer}

/-- The instructions that open the element of a line stand in the events of its step. -/
theorem infix_step (ctx : Context) (stack : ElementStack) {head : TagHead} {contents : Contents}
    (ht : l.passSpace.startsTag = true)
    (hv : (l.passSpace.readLine l.token.depth).value = .ok (.tag head contents)) :
    ∃ framed, (head.opening l.token.depth framed).map .emit <:+: (ctx.step stack l).events := by
  have hend := Lexer.endsLine_of_startsTag ht
  have hfilter : l.passSpace.kind ≠ .filter := by
    intro hk
    simp [Lexer.startsTag, hk] at ht
  let closed := stack.close l.token.depth l.passSpace.upcoming
  refine ⟨closed.2.framesLines l.token.depth, ?_⟩
  rw [step_of_line hend hfilter hv]
  simp only [lineStep_of_ok hv]
  -- In front of the line stand its depth and what it closes, then its depth again.
  refine List.IsInfix.trans ?_ (List.suffix_cons _ _).isInfix
  refine List.IsInfix.trans ?_ (List.suffix_append closed.1 _).isInfix
  refine List.IsInfix.trans ?_ (List.suffix_cons _ _).isInfix
  refine List.IsInfix.trans ?_ (List.suffix_append _ _).isInfix
  simp only [Line.events, TagHead.events, List.append_assoc]
  exact (List.prefix_append _ _).isInfix

end Context

/-- Wherever a run has come to, the static attributes of the tag that is read next are written
as a text that reads back as the merged attributes exactly if none of their values has a double
quote. A value has one only if the attribute list gives it between single quotes. -/
theorem Context.static_attributes_read_back (ctx : Context) (source : Text) {events : List Event}
    {stack : ElementStack} {l : Lexer} {head : TagHead} {contents : Contents}
    (h : ctx.Steps {} (Lexer.ofText source).next events stack l)
    (hv : (l.passSpace.readLine l.token.depth).value = .ok (.tag head contents)) :
    let a := head.attributes
    let written := Html.staticAttributes a.ids a.classes a.pairs
    let merged := Html.mergedPairs (Html.givenPairs a.ids a.classes a.pairs)
    (a.isDynamic = false →
      [.emit (.markup ("<" ++ head.name)), .emit (.markup written)] <:+:
        (ctx.step stack l).events) ∧
    (Html.readAttributes? written = some merged ↔ ∀ p ∈ merged, '"' ∉ p.2) ∧
    ∀ p ∈ merged, '"' ∈ p.2 → ∃ v, (p.1, v) ∈ a.pairs ∧ '"' ∈ v ∧ '\'' ∉ v ∧
      '\'' :: (v ++ ['\'']) <:+: source := by
  intro a written merged
  obtain ⟨ht, htag⟩ := Lexer.tag_of_readLine hv
  have htoken := (h.betweenLines (.inl (Lexer.atLine_ofText source)) rfl).onToken.passSpace
  obtain ⟨hids, hclasses, hpairs⟩ := htoken.delivered_readTag htag
  have hnames : ∀ p ∈ a.pairs, ∀ c ∈ p.1, Html.isNameSign c = true :=
    fun p hp => (hpairs p hp).name
  refine ⟨fun hstatic => ?_, ?_, ?_⟩
  · obtain ⟨framed, hevents⟩ := infix_step ctx stack ht hv
    exact ((TagHead.infix_opening_of_static hstatic _ framed).map Event.emit).trans hevents
  · have hwritten : written = merged.flatMap Html.asMarkup := by
      rw [← Html.AttributeSet.flatten_renderAttribute, Html.givenPairs,
        ← Html.AttributeSet.foldl_combine]
      rfl
    rw [hwritten]
    exact Html.readAttributes?_eq_iff fun p hp => Html.isNameSign_of_mem_mergedPairs hnames hp
  · intro p hp hq
    obtain ⟨v, hmem, hquote⟩ := Html.exists_of_mem_mergedPairs hids hclasses hnames hp hq
    obtain ⟨hsingle, hsource⟩ := (hpairs _ hmem).value hquote
    exact ⟨v, hmem, hquote, hsingle, hsource⟩

/-- A line below another with values of all three forms and an id in two parts. -/
theorem Context.static_attributes_read_back_below :
    let source : Text := "%ul\n  %li#a.b(id='c' title=\"it's\" lang=en)\n"
    let ctx : Context := ⟨false, .builtin⟩
    let first := ctx.step {} (Lexer.ofText source).next
    let l := first.lexer
    let written : Text := " id=\"a-c\" class=\"b\" title=\"it's\" lang=\"en\""
    ctx.Steps {} (Lexer.ofText source).next first.events first.stack l ∧
      (∃ head contents,
        (l.passSpace.readLine l.token.depth).value = .ok (.tag head contents)) ∧
      [.emit (.markup "<li"), .emit (.markup written)] <:+: (ctx.step first.stack l).events ∧
      Html.readAttributes? written =
        some [("id".toList, "a-c".toList), ("class".toList, "b".toList),
          ("title".toList, "it's".toList), ("lang".toList, "en".toList)] := by
  intro source ctx first l written
  have hstep : ctx.Steps {} (Lexer.ofText source).next first.events first.stack l :=
    .single (by decide +kernel) (by decide +kernel)
  let pairs : List (Text × Text) := [("id", "c"), ("title", "it's"), ("lang", "en")]
  let head : TagHead :=
    { name := "li", attributes := ⟨["a"], ["b"], pairs, [], none⟩, options := {}
      point := ⟨3, 0, []⟩ }
  have hv : (l.passSpace.readLine l.token.depth).value =
      .ok (.tag head (.text [] true 0 "\n")) := by decide +kernel
  obtain ⟨hevents, hread, -⟩ := static_attributes_read_back ctx source hstep hv
  have hwritten : Html.staticAttributes ["a"] ["b"] pairs = written := by decide +kernel
  have hmerged : Html.mergedPairs (Html.givenPairs ["a"] ["b"] pairs) =
      [("id".toList, "a-c".toList), ("class".toList, "b".toList),
        ("title".toList, "it's".toList), ("lang".toList, "en".toList)] := by decide +kernel
  rw [hwritten] at hevents hread
  rw [hmerged] at hread
  exact ⟨hstep, ⟨head, _, hv⟩, hevents rfl, hread.2 (by decide +kernel)⟩

/-- A value between single quotes ends at its first double quote when it is read back, and
what follows the quote is another attribute. -/
theorem Context.value_starts_attribute :
    let source : Text := "%a(title='x\" onclick=\"y')\n"
    let ctx : Context := ⟨false, .builtin⟩
    let l := (Lexer.ofText source).next
    let given := ("title".toList, "x\" onclick=\"y".toList)
    let written := Html.staticAttributes [] [] [given]
    (ctx.step {} l).fault = none ∧ .emit (.markup written) ∈ (ctx.step {} l).events ∧
      Html.mergedPairs (Html.givenPairs [] [] [given]) = [given] ∧
      Html.readAttributes? written =
        some [("title".toList, "x".toList), ("onclick".toList, "y".toList)] := by
  decide +kernel

end Haml
