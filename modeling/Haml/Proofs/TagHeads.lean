import Haml.Proofs.ExpressionEnds
import Haml.Proofs.FaultIsolation

/-!
# Written tag heads

A tag head is written as its name, the selectors, the object reference, the attribute
list, the attribute hash and the marks, one behind the other. Each part starts with a sign
of its own, and none of these signs can go on with the part before it, so that every part
is read to its end and no further. Reading a line that holds a written head gives the head.
-/

namespace Haml

abbrev SelectorName := Word Lexeme.isSelectorChar Lexeme.isSelectorChar

/-- A name of the code: an object, or the key of a hash entry. -/
abbrev CodeName := Word Lexeme.isNameStart Lexeme.isNameChar

inductive Selector where
  | ofId (name : SelectorName)
  | ofClass (name : SelectorName)

namespace Selector

def lexeme : Selector → Lexeme
  | ofId name => ⟨.idSelector, '#' :: name.text, name.text⟩
  | ofClass name => ⟨.classSelector, '.' :: name.text, name.text⟩

def text (s : Selector) : Text := s.lexeme.matched

theorem oneLine_text (s : Selector) : OneLine s.text := by
  have hname (name : SelectorName) : OneLine name.text :=
    name.oneLine_text ⟨rfl, rfl⟩ ⟨rfl, rfl⟩
  cases s with
  | ofId name => exact OneLine.append (s := ['#']) (by decide) (hname name)
  | ofClass name => exact OneLine.append (s := ['.']) (by decide) (hname name)

def id? : Selector → Option Text
  | ofId name => some name.text
  | ofClass _ => none

def class? : Selector → Option Text
  | ofId _ => none
  | ofClass name => some name.text

end Selector

/-- A value that can be written between double quotes. -/
structure QuotedValue where
  text : Text
  oneLine : OneLine text
  unquoted : '"' ∉ text

structure HashValue where
  text : Text
  ne_nil : text ≠ []
  trimmed : text.trim = text
  oneLine : OneLine text
  balanced : Expression.Balanced text
  undivided : Expression.Undivided text

structure Pair where
  name : AttributeName
  value : QuotedValue

structure Entry where
  key : CodeName
  value : HashValue

def Pair.text (p : Pair) : Text := p.name.text ++ '=' :: '"' :: (p.value.text ++ ['"'])

def Entry.text (e : Entry) : Text := e.key.text ++ ':' :: ' ' :: e.value.text

/-- What a tag head is written from. A list or a hash without attributes may be written
or left out. -/
structure WrittenHead where
  name : ElementName
  selectors : List Selector
  reference : Option CodeName
  pairs : Option (List Pair)
  entries : Option (List Entry)
  slash : Bool
  greater : Bool
  less : Bool

namespace WrittenHead

def referenceText : Option CodeName → Text
  | none => []
  | some name => '[' :: name.text ++ [']']

def listText : Option (List Pair) → Text
  | none => []
  | some ps => '(' :: Text.join [' '] (ps.map Pair.text) ++ [')']

def hashText : Option (List Entry) → Text
  | none => []
  | some es => '\x7b' :: Text.join [',', ' '] (es.map Entry.text) ++ ['\x7d']

def markText (sign : Char) (written : Bool) : Text := if written then [sign] else []

def text (h : WrittenHead) : Text :=
  '%' :: h.name.text ++ (h.selectors.flatMap Selector.text ++ (referenceText h.reference ++
    (listText h.pairs ++ (hashText h.entries ++
      (markText '/' h.slash ++ (markText '>' h.greater ++ markText '<' h.less))))))

def attributes (h : WrittenHead) : Attributes where
  ids := h.selectors.filterMap Selector.id?
  classes := h.selectors.filterMap Selector.class?
  pairs := (h.pairs.getD []).map fun p => (p.name.text, p.value.text)
  hash := (h.entries.getD []).map fun e => (e.key.text, e.value.text)
  reference := h.reference.map Word.text

/-- The options of the tag, with or without a deeper line below it. -/
def options (h : WrittenHead) (deeper : Bool) : TagOptions where
  selfClosing := h.slash || (isSelfClosingName h.name.text && !deeper)
  inner := !h.less
  outer := !h.greater

end WrittenHead

/-- The signs with which the parts of a tag start, in the order of the parts, and the
characters with which the line ends. Counted from zero, selectors come from 0 on, the
object reference from 2, the list from 3, the hash from 4, the marks from 5, and the line
ends from 8. -/
def partSigns : Text := ['#', '.', '[', '(', '\x7b', '/', '>', '<', '\r', '\n']

/-- The text starts with a part of a tag, from the given place in the order on. -/
def StartsFrom (k : Nat) (t : Text) : Prop := ∃ c u, t = c :: u ∧ c ∈ partSigns.drop k

namespace StartsFrom

variable {j k : Nat} {t : Text}

theorem mono (hjk : j ≤ k) (h : StartsFrom k t) : StartsFrom j t := by
  obtain ⟨c, u, rfl, hc⟩ := h
  exact ⟨c, u, rfl, List.drop_subset_drop_left partSigns hjk hc⟩

/-- A part that may be missing starts with its sign, or what is behind it does. -/
theorem append {part : Text} (h : StartsFrom k t) (hjk : j ≤ k)
    (hpart : ∀ c u, part = c :: u → c ∈ partSigns.drop j) : StartsFrom j (part ++ t) := by
  cases part with
  | nil => exact h.mono hjk
  | cons c u => exact ⟨c, u ++ t, rfl, hpart c u rfl⟩

theorem selectors (h : StartsFrom 2 t) (ss : List Selector) :
    StartsFrom 0 (ss.flatMap Selector.text ++ t) := by
  refine h.append (by decide) fun c u hcu => ?_
  cases ss with
  | nil => cases hcu
  | cons s ss => cases s <;> cases hcu <;> decide

theorem reference (h : StartsFrom 3 t) (name : Option CodeName) :
    StartsFrom 2 (WrittenHead.referenceText name ++ t) := by
  refine h.append (by decide) fun c u hcu => ?_
  cases name <;> cases hcu
  decide

theorem list (h : StartsFrom 4 t) (ps : Option (List Pair)) :
    StartsFrom 3 (WrittenHead.listText ps ++ t) := by
  refine h.append (by decide) fun c u hcu => ?_
  cases ps <;> cases hcu
  decide

theorem hash (h : StartsFrom 5 t) (es : Option (List Entry)) :
    StartsFrom 4 (WrittenHead.hashText es ++ t) := by
  refine h.append (by decide) fun c u hcu => ?_
  cases es <;> cases hcu
  decide

theorem mark {s : Char} (h : StartsFrom (k + 1) t) (hs : s ∈ partSigns.drop k) (written : Bool) :
    StartsFrom k (WrittenHead.markText s written ++ t) := by
  refine h.append (Nat.le_succ k) fun c u hcu => ?_
  cases written <;> cases hcu
  exact hs

/-- No name goes on behind a part. -/
theorem ends_name (h : StartsFrom k t) : ∃ c u, t = c :: u ∧ Lexeme.isSelectorChar c = false := by
  obtain ⟨c, u, rfl, hc⟩ := h.mono (Nat.zero_le k)
  refine ⟨c, u, rfl, ?_⟩
  simp only [partSigns, List.drop_zero, List.mem_cons, List.not_mem_nil, or_false] at hc
  rcases hc with rfl | rfl | rfl | rfl | rfl | rfl | rfl | rfl | rfl | rfl <;> rfl

end StartsFrom

def Token.Kind.sign? : Token.Kind → Option Char
  | .idSelector => some '#'
  | .classSelector => some '.'
  | .reference => some '['
  | .openParen => some '('
  | .openBrace => some '\x7b'
  | .slash => some '/'
  | .greater => some '>'
  | .less => some '<'
  | _ => none

namespace Lexeme

variable {c s : Char} {t : Text}

theorem signed_of_ne (h : c ≠ s) (p : Pattern) (t : Text) : signed [s] p (c :: t) = none := by
  simp [signed, Pattern.andThen, Pattern.exactly, Ne.symm h]

theorem eq_of_signed {p : Pattern} {m : Text} (h : signed [s] p (c :: t) = some m) : c = s := by
  by_contra hne
  cases (signed_of_ne hne p t).symm.trans h

/-- Each of the tokens that a part of a tag starts with has its own sign. -/
theorem eq_sign_of_read? {x : Lexeme} (h : read? .line (c :: t) = some x)
    (hs : x.kind.sign? = some s) : c = s := by
  rcases read?_cases h with ⟨r, hr, hx⟩ | ⟨-, rfl⟩
  · obtain ⟨m, hm, rfl⟩ := Option.map_eq_some_iff.1 hx
    simp only [rules, commonRules, lineRules, List.cons_append, List.nil_append, List.mem_cons,
      List.not_mem_nil, or_false] at hr
    rcases hr with rfl | rfl | rfl | rfl | rfl | rfl | rfl | rfl | rfl | rfl | rfl | rfl <;>
      cases hs <;> exact eq_of_signed hm
  · simp only [signKind] at hs
    split at hs <;> cases hs <;> rfl

theorem read?_selector (x : Selector) (hc : isSelectorChar c = false) (t : Text) :
    read? .line (x.text ++ c :: t) = some x.lexeme := by
  have hword (sign : Char) (name : SelectorName) :
      signed [sign] (Pattern.headed isSelectorChar isSelectorChar)
        (sign :: (name.text ++ c :: t)) = some (sign :: name.text) := by
    rw [signed_cons, name.headed_text hc]
    rfl
  have hrules : (rules .line).findSome? (·.read? (x.text ++ c :: t)) = some x.lexeme := by
    cases x <;>
      simp [Selector.text, Selector.lexeme, rules, commonRules, lineRules, Rule.read?, hword,
        signed_of_ne, Pattern.lineEnd, Pattern.many1, Pattern.headed, isIndent, Cut.apply]
  cases x <;>
  · rw [Selector.text, Selector.lexeme, List.cons_append] at hrules ⊢
    rw [read?, hrules]
    rfl

theorem read?_reference (name : CodeName) (t : Text) :
    read? .line ('[' :: (name.text ++ ']' :: t)) =
      some ⟨.reference, '[' :: (name.text ++ [']']), name.text⟩ := by
  have hword : signed ['['] (Pattern.andThen (Pattern.headed isNameStart isNameChar)
      (Pattern.exactly [']'])) ('[' :: (name.text ++ ']' :: t)) =
      some ('[' :: (name.text ++ [']'])) := by
    rw [signed_cons, Pattern.andThen, name.headed_text rfl]
    simp [Pattern.exactly]
  have hrules : (rules .line).findSome? (·.read? ('[' :: (name.text ++ ']' :: t))) =
      some ⟨.reference, '[' :: (name.text ++ [']']), name.text⟩ := by
    simp [rules, commonRules, lineRules, Rule.read?, hword, signed_of_ne, Pattern.lineEnd,
      Pattern.many1, Pattern.headed, isIndent, Cut.apply, Pattern.exactly]
  rw [read?, hrules]
  rfl

theorem read?_quoted (v : QuotedValue) (t : Text) :
    read? .list ('"' :: (v.text ++ '"' :: t)) =
      some ⟨.quoted, '"' :: (v.text ++ ['"']), v.text⟩ := by
  have hrun : (v.text ++ '"' :: t).takeWhile (fun c => c != '"' && c != '\n') = v.text := by
    rw [List.takeWhile_append_of_pos]
    · simp
    · intro c hc
      have hquote : c ≠ '"' := fun h => v.unquoted (h ▸ hc)
      have hline : c ≠ '\n' := by
        rintro rfl
        cases v.oneLine _ hc
      simp [hquote, hline]
  have hword : quotedBy '"' ('"' :: (v.text ++ '"' :: t)) = some ('"' :: (v.text ++ ['"'])) := by
    rw [quotedBy, signed_cons, Pattern.andThen, Pattern.many, hrun]
    simp [Pattern.exactly]
  have hother : quotedBy '\'' ('"' :: (v.text ++ '"' :: t)) = none := signed_of_ne (by decide) _ _
  have hrules : (rules .list).findSome? (·.read? ('"' :: (v.text ++ '"' :: t))) =
      some ⟨.quoted, '"' :: (v.text ++ ['"']), v.text⟩ := by
    simp [rules, commonRules, listRules, Rule.read?, hword, hother, Pattern.lineEnd,
      Pattern.many1, Pattern.headed, isIndent, Cut.apply]
  rw [read?, hrules]
  rfl

theorem read?_identifier (name : CodeName) (hc : isNameChar c = false) (t : Text) :
    read? .hash (name.text ++ c :: t) = some ⟨.identifier, name.text, name.text⟩ :=
  read?_word rfl ⟨rfl, rfl⟩ ⟨rfl, rfl⟩ name hc t

end Lexeme

theorem Text.join_cons_cons (sep a b : Text) (ts : List Text) :
    join sep (a :: b :: ts) = a ++ (sep ++ join sep (b :: ts)) := by
  simp [join]

theorem Text.head?_join (sep : Text) (c : Char) (s : Text) (ts : List Text) (t : Text) :
    (join sep ((c :: s) :: ts) ++ t).head? = some c := by
  cases ts with
  | nil => simp [join]
  | cons u ts => simp [join_cons_cons]

theorem Text.trim_space {t : Text} (h : t.trim = t) : trim (' ' :: t) = t := h

namespace Lexer

open WrittenHead

variable {l : Lexer} {n k : Nat} {t : Text}

theorem Reads.exists_lexeme {mode : Mode} {c : Char} (h : l.Reads mode n (c :: t)) :
    ∃ x, Lexeme.read? mode (c :: t) = some x ∧ l.kind = x.kind ∧ l.token.text = x.text := by
  obtain ⟨-, cursor, hrest, -, hscan⟩ := h
  rw [scan, hrest] at hscan
  have htoken := (Prod.mk.inj hscan).1
  exact ⟨_, rfl, congrArg Token.kind htoken, congrArg Token.text htoken⟩

/-- A part of the tag that comes later in the order is not taken for one that comes sooner. -/
theorem Reads.kind_ne {kind : Token.Kind} {s : Char} (h : l.Reads .line n t) (ht : StartsFrom k t)
    (hs : kind.sign? = some s) (hk : s ∉ partSigns.drop k) : l.kind ≠ kind := by
  obtain ⟨c, u, rfl, hc⟩ := ht
  obtain ⟨x, hx, hkind, -⟩ := h.exists_lexeme
  intro heq
  rw [← heq, hkind] at hs
  exact hk (Lexeme.eq_sign_of_read? hx hs ▸ hc)

theorem Reads.readSelectors {ss : List Selector}
    (h : l.Reads .line n (ss.flatMap Selector.text ++ t)) (ht : StartsFrom 2 t) :
    ∃ l', l.readSelectors = ((ss.filterMap Selector.id?, ss.filterMap Selector.class?), l') ∧
      l'.Reads .line n t := by
  induction ss generalizing l with
  | nil =>
    exact ⟨l, readSelectors_of_ne (h.kind_ne ht rfl (by decide)) (h.kind_ne ht rfl (by decide)), h⟩
  | cons s ss ih =>
    obtain ⟨c, u, hcu, hc⟩ := (ht.selectors ss).ends_name
    rw [List.flatMap_cons, List.append_assoc, hcu] at h
    have hon : l.On .line n s.lexeme (c :: u) :=
      Reads.on h (Lexeme.read?_selector s hc u) s.oneLine_text
    obtain ⟨l', hread, hl'⟩ := ih (hcu ▸ hon.next)
    refine ⟨l', ?_, hl'⟩
    have htext := hon.text
    cases s with
    | ofId name =>
      have hk : l.kind = .idSelector := hon.kind
      rw [Lexer.readSelectors, if_pos hk, hread, htext]
      rfl
    | ofClass name =>
      have hk : l.kind = .classSelector := hon.kind
      rw [Lexer.readSelectors, if_neg (by rw [hk]; decide), if_pos hk, hread, htext]
      rfl

theorem Reads.readReference {name : Option CodeName}
    (h : l.Reads .line n (referenceText name ++ t)) (ht : StartsFrom 3 t) :
    ∃ l', l.readReference = (name.map Word.text, l') ∧ l'.Reads .line n t := by
  cases name with
  | none => exact ⟨l, readReference_of_ne (h.kind_ne ht rfl (by decide)), h⟩
  | some name =>
    have hon : l.On .line n ⟨.reference, '[' :: (name.text ++ [']']), name.text⟩ t := by
      refine Reads.on h ?_ (OneLine.append (s := ['[']) (by decide)
        ((name.oneLine_text ⟨rfl, rfl⟩ ⟨rfl, rfl⟩).append (by decide)))
      rw [List.cons_append, List.append_assoc]
      exact Lexeme.read?_reference name t
    refine ⟨l.next, ?_, hon.next⟩
    rw [Lexer.readReference, if_pos hon.kind, hon.text]
    rfl

/-- A single space is read before anything that does not prolong it. -/
theorem Reads.on_space {mode : Mode} (h : l.Reads mode n (' ' :: t))
    (ht : ∀ c, t.head? = some c → isIndent c = false) : l.On mode n ⟨.space, [' '], [' ']⟩ t := by
  have hrun : t.takeWhile isIndent = [] := by
    cases t with
    | nil => rfl
    | cons c t => simp [ht c rfl]
  have hx := read?_indent (c := ' ') rfl mode t
  rw [hrun] at hx
  exact Reads.on h hx (by decide)

theorem On.passSpace {mode : Mode} {x : Lexeme} (h : l.On mode n x t) (hx : x.kind ≠ .space) :
    l.passSpace = l := if_neg (h.kind ▸ hx)

theorem Reads.readAttribute {p : Pair} (h : l.Reads .list n (p.text ++ t)) :
    l.kind = .attributeName ∧ ∃ l',
      l.readAttribute = { value := .ok (p.name.text, p.value.text), lexer := l' } ∧
        l'.Reads .list n t := by
  have htext : p.text ++ t = p.name.text ++ '=' :: '"' :: (p.value.text ++ '"' :: t) := by
    simp [Pair.text]
  rw [htext] at h
  have hname : l.On .list n ⟨.attributeName, p.name.text, p.name.text⟩ _ :=
    Reads.on h (Lexeme.read?_attributeName p.name rfl _)
      (p.name.oneLine_text ⟨rfl, rfl⟩ ⟨rfl, rfl⟩)
  have hsign : l.next.On .list n ⟨.equals, ['='], ['=']⟩ _ := Reads.on hname.next rfl (by decide)
  have hvalue : l.next.next.On .list n
      ⟨.quoted, '"' :: (p.value.text ++ ['"']), p.value.text⟩ t := by
    have hread := hsign.next
    have hlexeme := Lexeme.read?_quoted p.value t
    have hquoted : '"' :: (p.value.text ++ '"' :: t) = '"' :: (p.value.text ++ ['"']) ++ t := by
      simp
    rw [hquoted] at hread hlexeme
    exact Reads.on hread hlexeme
      (OneLine.append (s := ['"']) (by decide) (p.value.oneLine.append (by decide)))
  refine ⟨hname.kind, l.next.next.next, ?_, hvalue.next⟩
  have hk : l.next.kind = .equals := hsign.kind
  have hk' : l.next.next.kind = .quoted := hvalue.kind
  simp [Lexer.readAttribute, hsign.passSpace (by decide), hvalue.passSpace (by simp), hk, hk',
    hname.text, hvalue.text]

section Attributes

variable {l' : Lexer} {a : Text × Text}

theorem readAttributes_of_closed (hk : l.kind = .closeParen) :
    l.readAttributes = { value := .ok [], lexer := l } := by
  rw [readAttributes]
  split <;> simp_all

theorem readAttributes_of_space (hk : l.kind = .space) :
    l.readAttributes = l.next.readAttributes := by
  rw [readAttributes]
  split <;> simp_all

theorem readAttributes_of_attribute (hk : l.kind = .attributeName)
    (ha : l.readAttribute = { value := .ok a, lexer := l' }) :
    l.readAttributes =
      { value := l'.readAttributes.value.map (a :: ·), lexer := l'.readAttributes.lexer } := by
  rw [readAttributes]
  split <;> simp_all

end Attributes

/-- Reading attributes gives the pairs and stops at the parenthesis before `t`. -/
def GivesPairs (l : Lexer) (n : Nat) (ps : List Pair) (t : Text) : Prop :=
  ∃ l', l.readAttributes =
      { value := .ok (ps.map fun p => (p.name.text, p.value.text)), lexer := l' } ∧
    l'.On .list n ⟨.closeParen, [')'], [')']⟩ t

theorem Reads.givesPairs_cons {p : Pair} {ps : List Pair} {u : Text}
    (h : l.Reads .list n (p.text ++ u))
    (hrest : ∀ l' : Lexer, l'.Reads .list n u → l'.GivesPairs n ps t) :
    l.GivesPairs n (p :: ps) t := by
  obtain ⟨hk, l', hread, hl'⟩ := h.readAttribute
  obtain ⟨l'', hread', hl''⟩ := hrest l' hl'
  exact ⟨l'', by rw [readAttributes_of_attribute hk hread, hread']; rfl, hl''⟩

theorem Reads.givesPairs {ps : List Pair}
    (h : l.Reads .list n (Text.join [' '] (ps.map Pair.text) ++ ')' :: t)) :
    l.GivesPairs n ps t := by
  induction ps generalizing l with
  | nil =>
    have hclosed : l.On .list n ⟨.closeParen, [')'], [')']⟩ t := Reads.on h rfl (by decide)
    exact ⟨l, readAttributes_of_closed hclosed.kind, hclosed⟩
  | cons p ps ih =>
    cases ps with
    | nil => exact Reads.givesPairs_cons (u := ')' :: t) (by simpa [Text.join] using h) fun _ => ih
    | cons q ps =>
      rw [List.map_cons, List.map_cons, Text.join_cons_cons, List.append_assoc] at h
      refine h.givesPairs_cons fun l' hl' => ?_
      have hspace := Reads.on_space (t := Text.join [' '] ((q :: ps).map Pair.text) ++ ')' :: t) hl'
        fun c hc => by
          cases (Text.head?_join _ q.name.head _ _ _).symm.trans hc
          exact isIndent_eq_false rfl rfl q.name.head_mem
      obtain ⟨l'', hread, hl''⟩ := ih hspace.next
      exact ⟨l'', by rw [readAttributes_of_space hspace.kind, hread], hl''⟩

theorem Reads.readAttributeList {ps : Option (List Pair)} (h : l.Reads .line n (listText ps ++ t))
    (ht : StartsFrom 4 t) :
    ∃ l', l.readAttributeList =
        { value := .ok ((ps.getD []).map fun p => (p.name.text, p.value.text)), lexer := l' } ∧
      l'.Reads .line n t := by
  cases ps with
  | none => exact ⟨l, readAttributeList_of_ne (h.kind_ne ht rfl (by decide)), h⟩
  | some ps =>
    have htext : listText (some ps) ++ t =
        '(' :: (Text.join [' '] (ps.map Pair.text) ++ ')' :: t) := by
      simp [listText]
    rw [htext] at h
    have hopen : l.On .line n ⟨.openParen, ['('], ['(']⟩ _ := Reads.on h rfl (by decide)
    obtain ⟨l', hread, hl'⟩ := (hopen.inMode .list).next.givesPairs
    refine ⟨(l'.inMode .line).next, ?_, (hl'.inMode .line).next⟩
    have hk : l.kind = .openParen := hopen.kind
    simp only [Lexer.readAttributeList, hk, if_true, hread, Option.getD_some]

theorem readExpression_value (v : HashValue) {c : Char} (hc : c = ',' ∨ c = '\x7d')
    (h : l.rest = ' ' :: v.text ++ c :: t) :
    l.readExpression = (.ok v.text, l.skip (' ' :: v.text)) := by
  have hspace {s : Text} : Expression.Balanced (' ' :: s) ↔ Expression.Balanced s := by
    rw [Expression.balanced_iff, Expression.balanced_iff]
    rfl
  have hundivided : Expression.Undivided (' ' :: v.text) := by
    intro a b hab ha
    cases a with
    | nil => cases hab
    | cons d a =>
      obtain ⟨rfl, htext⟩ := List.cons.inj hab
      exact v.undivided a b htext (hspace.1 ha)
  have hends : Expression.EndsExpression (c :: t) := by
    rintro _ ⟨⟩
    exact hc.imp_right .inl
  have hread := readExpression_of_balanced h (OneLine.append (s := [' ']) (by decide) v.oneLine)
    (hspace.2 v.balanced) hundivided hends
  rwa [Text.trim_space v.trimmed] at hread

theorem Reads.readHashEntry {e : Entry} {c : Char} (hc : c = ',' ∨ c = '\x7d')
    (h : l.Reads .hash n (e.text ++ c :: t)) :
    l.kind = .identifier ∧ ∃ l' probes,
      l.readHashEntry =
          { value := .ok (e.key.text, e.value.text), lexer := l', probes := probes } ∧
        l'.next.Reads .hash n (c :: t) := by
  have htext : e.text ++ c :: t = e.key.text ++ ':' :: (' ' :: e.value.text ++ c :: t) := by
    simp [Entry.text]
  rw [htext] at h
  have hkey : l.On .hash n ⟨.identifier, e.key.text, e.key.text⟩ _ :=
    Reads.on h (Lexeme.read?_identifier e.key rfl _) (e.key.oneLine_text ⟨rfl, rfl⟩ ⟨rfl, rfl⟩)
  have hsign : l.next.On .hash n ⟨.colon, [':'], [':']⟩ _ := Reads.on hkey.next rfl (by decide)
  have hk : l.next.kind = .colon := hsign.kind
  have hread := readExpression_value e.value hc hsign.rest
  have hvalue : OneLine (' ' :: e.value.text) :=
    OneLine.append (s := [' ']) (by decide) e.value.oneLine
  have hnext := skip_next_reads hsign.rest hvalue
  rw [hsign.mode, hsign.line] at hnext
  refine ⟨hkey.kind, _, [⟨l.next.cursor.position,
    (l.next.skip (' ' :: e.value.text)).cursor.position, some e.value.text⟩], ?_, hnext⟩
  simp [Lexer.readHashEntry, hsign.passSpace (by decide), hk, hread, hkey.text, e.value.ne_nil,
    Except.toOption]

def GivesEntries (l : Lexer) (n : Nat) (es : List Entry) (t : Text) : Prop :=
  ∃ l' probes, l.readHashEntries =
      { value := .ok (es.map fun e => (e.key.text, e.value.text)), lexer := l', probes := probes } ∧
    l'.On .hash n ⟨.closeBrace, ['\x7d'], ['\x7d']⟩ t

theorem passBlank_of_ne (hs : l.kind ≠ .space) (he : l.kind ≠ .lineEnd) : l.passBlank = l := by
  rw [passBlank, if_neg (not_or.2 ⟨hs, he⟩)]

theorem readHashEntries_of_space (hk : l.kind = .space) :
    l.readHashEntries = l.next.readHashEntries := by
  have hpass : l.passBlank = l.next.passBlank := by rw [passBlank, if_pos (.inl hk)]
  rw [readHashEntries.eq_def, hpass, ← readHashEntries.eq_def]

/-- Behind an entry, a brace ends the hash, and a comma leads to more entries. -/
theorem Reads.givesEntries_cons {e : Entry} {es : List Entry} {c : Char} {u : Text}
    (h : l.Reads .hash n (e.text ++ c :: u))
    (hrest : c = '\x7d' ∧ u = t ∧ es = [] ∨
      c = ',' ∧ ∀ l' : Lexer, l'.Reads .hash n u → l'.GivesEntries n es t) :
    l.GivesEntries n (e :: es) t := by
  have hc : c = ',' ∨ c = '\x7d' := hrest.symm.imp And.left And.left
  obtain ⟨hk, l', probes, hread, hl'⟩ := h.readHashEntry hc
  have hpass : l.passBlank = l := passBlank_of_ne (by rw [hk]; decide) (by rw [hk]; decide)
  rw [← hpass] at hk hread
  have hentries := readHashEntries_of_entry hk (congrArg Reading.value hread)
  rcases hrest with ⟨rfl, rfl, rfl⟩ | ⟨rfl, hmore⟩
  · have hon : l'.next.On .hash n ⟨.closeBrace, ['\x7d'], ['\x7d']⟩ u :=
      Reads.on hl' rfl (by decide)
    have hsign : l'.next.kind = .closeBrace := hon.kind
    have hpass' : l'.next.passBlank = l'.next :=
      passBlank_of_ne (by rw [hsign]; decide) (by rw [hsign]; decide)
    simp only [hread, hpass', hsign] at hentries
    exact ⟨l'.next, probes, hentries, hon⟩
  · have hon : l'.next.On .hash n ⟨.comma, [','], [',']⟩ u := Reads.on hl' rfl (by decide)
    have hsign : l'.next.kind = .comma := hon.kind
    have hpass' : l'.next.passBlank = l'.next :=
      passBlank_of_ne (by rw [hsign]; decide) (by rw [hsign]; decide)
    obtain ⟨l'', more, hread', hl''⟩ := hmore _ hon.next
    simp only [hread, hpass', hsign, hread'] at hentries
    exact ⟨l'', probes ++ more, hentries, hl''⟩

theorem Reads.givesEntries {es : List Entry}
    (h : l.Reads .hash n (Text.join [',', ' '] (es.map Entry.text) ++ '\x7d' :: t)) :
    l.GivesEntries n es t := by
  induction es generalizing l with
  | nil =>
    have hon : l.On .hash n ⟨.closeBrace, ['\x7d'], ['\x7d']⟩ t := Reads.on h rfl (by decide)
    have hk : l.kind = .closeBrace := hon.kind
    have hpass : l.passBlank = l := passBlank_of_ne (by rw [hk]; decide) (by rw [hk]; decide)
    have hentries := readHashEntries_of_closed (hpass.symm ▸ hk)
    rw [hpass] at hentries
    exact ⟨l, [], hentries, hon⟩
  | cons e es ih =>
    cases es with
    | nil =>
      exact Reads.givesEntries_cons (c := '\x7d') (u := t) (by simpa [Text.join] using h)
        (.inl ⟨rfl, rfl, rfl⟩)
    | cons f es =>
      rw [List.map_cons, List.map_cons, Text.join_cons_cons, List.append_assoc] at h
      refine Reads.givesEntries_cons h (.inr ⟨rfl, fun l' hl' => ?_⟩)
      have hspace := Reads.on_space
        (t := Text.join [',', ' '] ((f :: es).map Entry.text) ++ '\x7d' :: t) hl' fun c hc => by
          cases (Text.head?_join _ f.key.head _ _ _).symm.trans hc
          exact isIndent_eq_false rfl rfl f.key.head_mem
      obtain ⟨l'', probes, hread, hl''⟩ := ih hspace.next
      exact ⟨l'', probes, by rw [readHashEntries_of_space hspace.kind, hread], hl''⟩

theorem Reads.readAttributeHash {es : Option (List Entry)}
    (h : l.Reads .line n (hashText es ++ t)) (ht : StartsFrom 5 t) :
    ∃ l' probes, l.readAttributeHash =
        { value := .ok ((es.getD []).map fun e => (e.key.text, e.value.text))
          lexer := l'
          probes := probes } ∧
      l'.Reads .line n t := by
  cases es with
  | none => exact ⟨l, [], readAttributeHash_of_ne (h.kind_ne ht rfl (by decide)), h⟩
  | some es =>
    have htext : hashText (some es) ++ t =
        '\x7b' :: (Text.join [',', ' '] (es.map Entry.text) ++ '\x7d' :: t) := by
      simp [hashText]
    rw [htext] at h
    have hopen : l.On .line n ⟨.openBrace, ['\x7b'], ['\x7b']⟩ _ := Reads.on h rfl (by decide)
    obtain ⟨l', probes, hread, hl'⟩ := (hopen.inMode .hash).next.givesEntries
    refine ⟨(l'.inMode .line).next, probes, ?_, (hl'.inMode .line).next⟩
    have hk : l.kind = .openBrace := hopen.kind
    simp only [Lexer.readAttributeHash, hk, if_true, hread, Option.getD_some]

theorem Reads.readLess {less : Bool} {o : TagOptions} (ho : o.inner = true)
    (h : l.Reads .line n (markText '<' less ++ t)) (ht : StartsFrom 8 t) :
    ∃ l', l.readSpaceMarks o = ({ o with inner := !less }, l') ∧ l'.Reads .line n t := by
  have hgreater : l.kind ≠ .greater := h.kind_ne (ht.mark (by decide) less) rfl (by decide)
  cases less with
  | false =>
    refine ⟨l, ?_, h⟩
    rw [readSpaceMarks_of_ne hgreater (h.kind_ne ht rfl (by decide)), Bool.not_false, ← ho]
  | true =>
    have hon : l.On .line n ⟨.less, ['<'], ['<']⟩ t := Reads.on h rfl (by decide)
    have hnext := hon.next
    refine ⟨l.next, ?_, hnext⟩
    rw [Lexer.readSpaceMarks, if_neg fun h => hgreater h.1, if_pos ⟨hon.kind, ho⟩,
      readSpaceMarks_of_ne (hnext.kind_ne ht rfl (by decide)) (hnext.kind_ne ht rfl (by decide))]
    rfl

theorem Reads.readSpaceMarks {greater less : Bool} {o : TagOptions} (ho : o.outer = true)
    (hi : o.inner = true) (h : l.Reads .line n (markText '>' greater ++ (markText '<' less ++ t)))
    (ht : StartsFrom 8 t) :
    ∃ l', l.readSpaceMarks o = ({ o with inner := !less, outer := !greater }, l') ∧
      l'.Reads .line n t := by
  cases greater with
  | false =>
    obtain ⟨l', hread, hl'⟩ := Reads.readLess hi h ht
    exact ⟨l', by rw [hread, Bool.not_false, ← ho], hl'⟩
  | true =>
    have hon : l.On .line n ⟨.greater, ['>'], ['>']⟩ (markText '<' less ++ t) :=
      Reads.on h rfl (by decide)
    obtain ⟨l', hread, hl'⟩ := Reads.readLess (o := { o with outer := false }) hi hon.next ht
    exact ⟨l', by rw [Lexer.readSpaceMarks, if_pos ⟨hon.kind, ho⟩, hread]; rfl, hl'⟩

theorem Reads.readMarks {slash greater less : Bool}
    (h : l.Reads .line n (markText '/' slash ++ (markText '>' greater ++ (markText '<' less ++ t))))
    (ht : StartsFrom 8 t) :
    ∃ l', l.readMarks = (⟨slash, !less, !greater⟩, l') ∧ l'.Reads .line n t := by
  have hbehind : StartsFrom 6 (markText '>' greater ++ (markText '<' less ++ t)) :=
    (ht.mark (by decide) less).mark (by decide) greater
  cases slash with
  | false =>
    obtain ⟨l', hread, hl'⟩ := Reads.readSpaceMarks (o := {}) rfl rfl h ht
    exact ⟨l', by rw [Lexer.readMarks, if_neg (h.kind_ne hbehind rfl (by decide)), hread], hl'⟩
  | true =>
    have hon : l.On .line n ⟨.slash, ['/'], ['/']⟩ _ := Reads.on h rfl (by decide)
    obtain ⟨l', hread, hl'⟩ :=
      Reads.readSpaceMarks (o := { selfClosing := true }) rfl rfl hon.next ht
    exact ⟨l', by rw [Lexer.readMarks, if_pos hon.kind, hread], hl'⟩

theorem startsFrom_lineEnd {e more : Text} (he : Pattern.lineEnd (e ++ more) = some e) :
    StartsFrom 8 (e ++ more) := by
  unfold Pattern.lineEnd at he
  split at he <;> cases he <;> exact ⟨_, _, rfl, by decide⟩

/-- The blanks at the start of a line give the depth of its first token. -/
theorem Reads.depth_of_indent (h : l.Reads .line n t) :
    l.token.depth = indentDepth (t.takeWhile isIndent) := by
  cases t with
  | nil =>
    have hk : l.kind ≠ .space := by rw [h.kind_eof]; decide
    exact if_neg hk
  | cons c t =>
    obtain ⟨x, hx, hkind, htext⟩ := h.exists_lexeme
    cases hc : isIndent c with
    | false =>
      have hk : l.kind ≠ .space := by
        intro hk
        obtain ⟨⟨d, u, hdu, hd⟩, -⟩ := Lexeme.read?_space_cases hx (hkind.symm.trans hk)
        cases hdu
        rw [hc] at hd
        cases hd
      rw [List.takeWhile_cons_of_neg (by simp [hc])]
      exact if_neg hk
    | true =>
      obtain rfl := Option.some.inj ((read?_indent hc .line t).symm.trans hx)
      rw [List.takeWhile_cons_of_pos hc, Token.depth, htext]
      exact if_pos hkind

/-- A written head is read as it was written. -/
theorem Reads.readTag {h : WrittenHead} {e more : Text}
    (hl : l.Reads .line n (h.text ++ (e ++ more))) (he : Pattern.lineEnd (e ++ more) = some e)
    (depth : Nat) :
    l.kind = .element ∧ ∃ l' probes point, l.readTag depth =
        { value := .ok ⟨h.name.text, h.attributes,
            h.options (decide (depth < indentDepth (more.takeWhile isIndent))), point⟩
          lexer := l'
          probes := probes } ∧
      l'.On .line (n + 1) ⟨.lineEnd, e, e⟩ more := by
  -- What each part is followed by, from the end of the line back to the name.
  have hend := startsFrom_lineEnd he
  have hmarks := ((hend.mark (s := '<') (by decide) h.less).mark (s := '>') (by decide)
    h.greater).mark (s := '/') (by decide) h.slash
  have hlist := hmarks.hash h.entries
  have hreference := hlist.list h.pairs
  have hselectors := hreference.reference h.reference
  obtain ⟨c, u, hcu, hc⟩ := (hselectors.selectors h.selectors).ends_name
  have hname : l.On .line n ⟨.element, '%' :: h.name.text, h.name.text⟩ (c :: u) := by
    simp only [text, List.append_assoc, hcu] at hl
    refine Reads.on hl (Lexeme.read?_element h.name ?_ u) (Container.tag h.name).lineBody.oneLine
    exact (Bool.or_eq_false_iff.1 (Bool.or_eq_false_iff.1 hc).1).1
  have hbehind := hname.next
  rw [← hcu] at hbehind
  obtain ⟨l₁, hread₁, hl₁⟩ := Reads.readSelectors hbehind hselectors
  obtain ⟨l₂, hread₂, hl₂⟩ := hl₁.readReference hreference
  obtain ⟨l₃, hread₃, hl₃⟩ := hl₂.readAttributeList hlist
  obtain ⟨l₄, probes, hread₄, hl₄⟩ := hl₃.readAttributeHash hmarks
  obtain ⟨l₅, hread₅, hl₅⟩ := hl₄.readMarks hend
  have hon := hl₅.on_lineEnd he
  refine ⟨hname.kind, l₅, probes, l₃.point, ?_, hon⟩
  simp only [Lexer.readTag, readName_of_element hname.kind, hread₁, hread₂, hread₃, hread₄, hread₅,
    hasInlineContents_of_lineEnd hon.kind, hasContents_of_lineEnd hon.kind, hname.text,
    hon.next.depth_of_indent, Bool.and_false, Bool.false_eq_true, if_false, Option.getD_some,
    attributes, options]

/-- Reading a line undoes the writing of its tag head. Whatever name, selectors, object
reference, attributes, hash entries and marks it is written from, a line that ends behind
them is read as a tag with just these, each kind in the order in which it was written,
and without contents. The tag closes itself if it is marked so, or has one of the names of
elements that do and no deeper line below it. The lexer is left on the next line. -/
theorem readLine_of_writtenHead (h : WrittenHead) {e more : Text} (hm : l.mode = .line)
    (hrest : l.rest = h.text ++ (e ++ more)) (he : Pattern.lineEnd (e ++ more) = some e)
    (depth : Nat) :
    ∃ point,
      (l.next.readLine depth).value = .ok (.tag
        { name := h.name.text
          attributes := h.attributes
          options := h.options (decide (depth < indentDepth (more.takeWhile isIndent)))
          point := point }
        (.text [] true 0 e)) ∧
      (l.next.readLine depth).lexer.Reads .line (l.cursor.line + 1) more := by
  have hl := next_reads l
  rw [hm, hrest] at hl
  obtain ⟨hk, l', probes, point, hread, hon⟩ := hl.readTag he depth
  have hcontents := readContents_of_lineEnd hon.kind
  refine ⟨point, ?_⟩
  simp only [readLine_eq, hk, Token.Kind.announcesExpression, startsTag, hread, hcontents,
    hon.matched]
  exact ⟨rfl, hon.next⟩

/-- A head with parts of every kind, a value that holds a quoted brace and a comma in
brackets, and no deeper line below. -/
theorem readLine_of_writtenHead_image :
    let l := ofText ("%img.wide#main.x-1[pic](alt=\"it's\" alt=\"\")".toList ++
      "\x7bsrc: f('\x7d', [1, 2]), src: _b\x7d><\r\n%p".toList)
    ∃ point, (l.next.readLine 0).value = .ok (.tag
      { name := "img"
        attributes :=
          { ids := ["main".toList]
            classes := ["wide".toList, "x-1".toList]
            pairs := [("alt".toList, "it's".toList), ("alt".toList, [])]
            hash := [("src".toList, "f('\x7d', [1, 2])".toList), ("src".toList, "_b".toList)]
            reference := some "pic".toList }
        options := { selfClosing := true, inner := false, outer := false }
        point := point }
      (.text [] true 0 "\r\n".toList)) := by
  intro l
  let h : WrittenHead :=
    { name := ⟨'i', "mg", rfl, rfl⟩
      selectors := [.ofClass ⟨'w', "ide", rfl, rfl⟩, .ofId ⟨'m', "ain", rfl, rfl⟩,
        .ofClass ⟨'x', "-1", rfl, rfl⟩]
      reference := some ⟨'p', "ic", rfl, rfl⟩
      pairs := some [⟨⟨'a', "lt", rfl, rfl⟩, ⟨"it's", by decide, by decide⟩⟩,
        ⟨⟨'a', "lt", rfl, rfl⟩, ⟨[], by decide, by decide⟩⟩]
      entries := some [⟨⟨'s', "rc", rfl, rfl⟩, ⟨"f('\x7d', [1, 2])", by decide, by decide +kernel,
          by decide, by decide +kernel, by decide +kernel⟩⟩,
        ⟨⟨'s', "rc", rfl, rfl⟩, ⟨"_b", by decide, by decide +kernel, by decide,
          by decide +kernel, by decide +kernel⟩⟩]
      slash := false
      greater := true
      less := true }
  have hrest : l.rest = h.text ++ ("\r\n".toList ++ "%p".toList) := by decide +kernel
  obtain ⟨point, hread, -⟩ := readLine_of_writtenHead h rfl hrest rfl 0
  exact ⟨point, hread⟩

end Lexer

end Haml
