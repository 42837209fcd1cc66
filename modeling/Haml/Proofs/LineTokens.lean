import Haml.Token.LogicalLine
import Mathlib.Data.List.Basic
import Mathlib.Data.List.TakeWhile

/-!
# Tokens within a line

What a token is made of stands at the start of the text it is read from, and a
token that does not end its line lies within it. A line of visible text that is
not continued starts with such a token, and taking it gives its whole text.
-/

namespace Haml

def OneLine (t : Text) : Prop := ∀ c ∈ t, isLineBreak c = false

/-- A text that is not continued on the next line. -/
def Unbarred (t : Text) : Prop := (Text.dropEndWhile isIndent t).getLast? ≠ some '|'

instance (t : Text) : Decidable (OneLine t) := List.decidableBAll _ t

instance (t : Text) : Decidable (Unbarred t) := inferInstanceAs (Decidable (_ ≠ _))

theorem OneLine.append {s t : Text} (hs : OneLine s) (ht : OneLine t) : OneLine (s ++ t) := by
  intro c hc
  rcases List.mem_append.1 hc with h | h
  · exact hs c h
  · exact ht c h

theorem OneLine.of_append_right {s t : Text} (h : OneLine (s ++ t)) : OneLine t :=
  fun c hc => h c (List.mem_append_right s hc)

/-- A class of characters without `a` and `b` has neither of them. -/
theorem beq_or_beq_eq_false {p : Char → Bool} {a b c : Char} (ha : p a = false) (hb : p b = false)
    (hc : p c = true) : (c == a || c == b) = false := by
  cases h : c == a || c == b with
  | false => rfl
  | true =>
    have heq : c = a ∨ c = b := by simpa using h
    rcases heq with rfl | rfl
    · rw [ha] at hc; cases hc
    · rw [hb] at hc; cases hc

theorem isLineBreak_eq_false {p : Char → Bool} (hn : p '\n' = false) (hr : p '\r' = false)
    {c : Char} (hc : p c = true) : isLineBreak c = false := beq_or_beq_eq_false hn hr hc

theorem isIndent_eq_false {p : Char → Bool} (hs : p ' ' = false) (ht : p '\t' = false)
    {c : Char} (hc : p c = true) : isIndent c = false := beq_or_beq_eq_false hs ht hc

theorem oneLine_of_all {p : Char → Bool} (hn : p '\n' = false) (hr : p '\r' = false) {t : Text}
    (h : ∀ c ∈ t, p c = true) : OneLine t :=
  fun c hc => isLineBreak_eq_false hn hr (h c hc)

/-- What may follow a line: a line end, or nothing. -/
def AfterLine (r : Text) : Prop := ∀ c, r.head? = some c → isLineBreak c = true

theorem afterLine_nil : AfterLine [] := fun _ hc => by cases hc

theorem afterLine_lineFeed (more : Text) : AfterLine ('\n' :: more) := by
  rintro c ⟨⟩
  rfl

theorem takeWhile_line {t r : Text} (h : OneLine t) (hr : AfterLine r) :
    ((t ++ r).takeWhile fun c => !isLineBreak c) = t := by
  rw [List.takeWhile_append_of_pos fun c hc => by simp [h c hc]]
  cases r with
  | nil => simp
  | cons c r => simp [hr c rfl]

theorem Text.dropEndWhile_append (p : Char → Bool) (s t : Text) :
    dropEndWhile p (s ++ t) =
      if dropEndWhile p t = [] then dropEndWhile p s else s ++ dropEndWhile p t := by
  simp only [dropEndWhile, List.reverse_append, List.dropWhile_append, List.reverse_eq_nil_iff,
    List.isEmpty_iff]
  split <;> simp

theorem Unbarred.append {s t : Text} (hs : Unbarred s) (ht : Unbarred t) : Unbarred (s ++ t) := by
  rw [Unbarred, Text.dropEndWhile_append]
  split
  · exact hs
  · rename_i hne
    rw [List.getLast?_append_of_ne_nil _ hne]
    exact ht

theorem Unbarred.of_append_right {s t : Text} (h : Unbarred (s ++ t)) : Unbarred t := by
  intro ht
  have hne : Text.dropEndWhile isIndent t ≠ [] := by
    intro hnil
    rw [hnil] at ht
    cases ht
  rw [Unbarred, Text.dropEndWhile_append, if_neg hne, List.getLast?_append_of_ne_nil _ hne] at h
  exact h ht

theorem unbarred_of_not_mem {t : Text} (h : '|' ∉ t) : Unbarred t := by
  intro hb
  apply h
  have hm : '|' ∈ Text.dropEndWhile isIndent t := List.mem_of_getLast? hb
  have hd : '|' ∈ t.reverse.dropWhile isIndent := List.mem_reverse.1 hm
  exact List.mem_reverse.1 ((List.dropWhile_sublist isIndent).mem hd)

namespace Pattern

/-- A pattern that matches a beginning of the text, and one without line ends. -/
structure Inline (p : Pattern) : Prop where
  isPrefix : ∀ t m, p t = some m → m <+: t
  oneLine : ∀ t m, p t = some m → OneLine m

theorem inline_exactly {lead : Text} (h : OneLine lead) : Inline (exactly lead) := by
  constructor <;> intro t m hm <;> simp only [exactly] at hm <;> split at hm <;> cases hm
  · rename_i hp
    exact List.isPrefixOf_iff_prefix.1 hp
  · exact h

theorem inline_headed {p q : Char → Bool} (hp : ∀ c, p c = true → isLineBreak c = false)
    (hq : ∀ c, q c = true → isLineBreak c = false) : Inline (headed p q) := by
  constructor <;> intro t m hm <;> cases t <;> simp only [headed] at hm <;> try cases hm
  · split at hm <;> cases hm
    exact List.cons_prefix_cons.2 ⟨rfl, List.takeWhile_prefix q⟩
  · split at hm <;> cases hm
    rename_i c t hc
    intro x hx
    rcases List.mem_cons.1 hx with rfl | hx
    · exact hp _ hc
    · exact hq _ (List.mem_takeWhile_imp hx)

theorem inline_andThen {p q : Pattern} (hp : Inline p) (hq : Inline q) :
    Inline (andThen p q) := by
  have hcut : ∀ t m, andThen p q t = some m → ∃ a b, m = a ++ b ∧ p t = some a ∧
      q (t.drop a.length) = some b := by
    intro t m hm
    simp only [andThen] at hm
    split at hm
    · cases hm
    · rename_i a ha
      obtain ⟨b, hb, rfl⟩ := Option.map_eq_some_iff.1 hm
      exact ⟨a, b, rfl, ha, hb⟩
  constructor <;> intro t m hm <;> obtain ⟨a, b, rfl, ha, hb⟩ := hcut t m hm
  · obtain ⟨u, rfl⟩ := hp.isPrefix t a ha
    rw [List.drop_left] at hb
    exact (List.prefix_append_right_inj a).2 (hq.isPrefix _ b hb)
  · exact (hp.oneLine t a ha).append (hq.oneLine _ b hb)

theorem lineEnd_eq_none {c : Char} {t : Text} :
    lineEnd (c :: t) = none ↔ isLineBreak c = false := by
  by_cases hn : c = '\n'
  · subst hn
    simp [lineEnd, isLineBreak]
  · by_cases hr : c = '\r'
    · subst hr
      simp only [lineEnd, isLineBreak]
      split <;> simp_all
    · simp [lineEnd, isLineBreak, hn, hr]

end Pattern

namespace Lexeme

theorem signed_cons (c : Char) (p : Pattern) (t : Text) :
    signed [c] p (c :: t) = (p t).map (c :: ·) := by
  simp [signed, Pattern.andThen, Pattern.exactly]

/-- The rules of a template line whose tokens do not end it. -/
theorem inline_of_mem_rules {r : Rule} (h : r ∈ rules .line) (hk : r.kind.endsLine = false) :
    r.pattern.Inline := by
  have hall {p : Char → Bool} (hn : p '\n' = false) (hr : p '\r' = false) :
      ∀ c, p c = true → isLineBreak c = false := fun _ => isLineBreak_eq_false hn hr
  have hsign {sign : Text} {p q : Char → Bool} (hs : OneLine sign)
      (hp : ∀ c, p c = true → isLineBreak c = false)
      (hq : ∀ c, q c = true → isLineBreak c = false) :
      (signed sign (Pattern.headed p q)).Inline :=
    Pattern.inline_andThen (Pattern.inline_exactly hs) (Pattern.inline_headed hp hq)
  simp only [rules, commonRules, lineRules, List.cons_append, List.nil_append,
    List.mem_cons, List.not_mem_nil, or_false] at h
  rcases h with rfl | rfl | rfl | rfl | rfl | rfl | rfl | rfl | rfl | rfl | rfl | rfl
  · cases hk
  · exact Pattern.inline_headed (hall rfl rfl) (hall rfl rfl)
  · cases hk
  · exact hsign (by decide) (hall rfl rfl) (hall rfl rfl)
  · exact hsign (by decide) (hall rfl rfl) (hall rfl rfl)
  · exact hsign (by decide) (hall rfl rfl) (hall rfl rfl)
  · exact Pattern.inline_exactly (by decide)
  · exact Pattern.inline_exactly (by decide)
  · exact Pattern.inline_exactly (by decide)
  · exact Pattern.inline_andThen (Pattern.inline_exactly (by decide))
      (Pattern.inline_andThen (Pattern.inline_headed (hall rfl rfl) (hall rfl rfl))
        (Pattern.inline_exactly (by decide)))
  · exact Pattern.inline_exactly (by decide)
  · exact hsign (by decide) (hall rfl rfl) (hall rfl rfl)

theorem read?_lineEnd {t e : Text} (he : Pattern.lineEnd t = some e) (mode : Mode) :
    read? mode t = some ⟨.lineEnd, e, e⟩ := by
  cases t with
  | nil => cases he
  | cons c t => simp [read?, rules, commonRules, Rule.read?, he, Cut.apply]

/-- A lexeme comes from a rule, or is a character that is no blank of its own. -/
theorem read?_cases {mode : Mode} {c : Char} {t : Text} {x : Lexeme}
    (h : read? mode (c :: t) = some x) :
    (∃ r ∈ rules mode, r.read? (c :: t) = some x) ∨
      (isLineBreak c = false ∧ x = ⟨signKind c, [c], [c]⟩) := by
  simp only [read?, Option.some.injEq] at h
  cases hf : (rules mode).findSome? (·.read? (c :: t)) with
  | some y =>
    rw [hf] at h
    cases h
    exact .inl (List.exists_of_findSome?_eq_some hf)
  | none =>
    rw [hf] at h
    have hend : Pattern.lineEnd (c :: t) = none := by
      have hr := List.findSome?_eq_none_iff.1 hf { kind := .lineEnd, pattern := Pattern.lineEnd }
        (by simp [rules, commonRules])
      simpa [Rule.read?] using hr
    exact .inr ⟨Pattern.lineEnd_eq_none.1 hend, h.symm⟩

/-- A token that does not end its line lies within it, at the start of the text. -/
theorem inline_of_read? {t : Text} {x : Lexeme} (h : read? .line t = some x)
    (hk : x.kind.endsLine = false) : x.matched <+: t ∧ OneLine x.matched := by
  cases t with
  | nil => cases h
  | cons c t =>
    rcases read?_cases h with ⟨r, hr, hx⟩ | ⟨hc, rfl⟩
    · obtain ⟨m, hm, rfl⟩ := Option.map_eq_some_iff.1 hx
      have hi := inline_of_mem_rules hr hk
      exact ⟨hi.isPrefix _ m hm, hi.oneLine _ m hm⟩
    · refine ⟨List.cons_prefix_cons.2 ⟨rfl, List.nil_prefix⟩, ?_⟩
      intro a ha
      rw [List.mem_singleton.1 ha]
      exact hc

end Lexeme

/-- The text of a line behind its indentation: it is not blank, and the line is
not continued. -/
structure LineBody (b : Text) : Prop where
  oneLine : OneLine b
  unbarred : Unbarred b
  visible : ∃ c t, b = c :: t ∧ isIndent c = false

/-- A bar continues a line only if nothing but blanks follows it. -/
theorem continuation_eq_none {b : Text} (hb : LineBody b) (r : Text) :
    Lexeme.signed "|" (Pattern.andThen (Pattern.many isIndent) Pattern.lineEnd)
      (b ++ r) = none := by
  obtain ⟨c, t, rfl, -⟩ := hb.visible
  by_cases hc : c = '|'
  · subst hc
    have ht : t = t.takeWhile isIndent ++ t.dropWhile isIndent :=
      List.takeWhile_append_dropWhile.symm
    have hw : ∀ c ∈ t.takeWhile isIndent, isIndent c = true :=
      fun c hc => List.mem_takeWhile_imp hc
    cases hv : t.dropWhile isIndent with
    | nil =>
      -- The bar would be the last visible character.
      exfalso
      apply hb.unbarred
      have hall : t.reverse.dropWhile isIndent = [] := by
        rw [List.dropWhile_eq_nil_iff]
        intro c hc
        rw [hv, List.append_nil] at ht
        exact hw c (ht ▸ List.mem_reverse.1 hc)
      rw [← List.singleton_append, Text.dropEndWhile_append, Text.dropEndWhile, hall]
      rfl
    | cons a v =>
      have ha : isIndent a = false := by
        have := List.head?_dropWhile_not isIndent t
        rw [hv] at this
        simpa using this
      have hab : isLineBreak a = false := by
        apply hb.oneLine
        rw [ht, hv]
        simp
      rw [hv] at ht
      have hrest : t ++ r = t.takeWhile isIndent ++ a :: (v ++ r) := by
        conv_lhs => rw [ht]
        simp
      have hend : Pattern.lineEnd (a :: (v ++ r)) = none :=
        Pattern.lineEnd_eq_none.2 hab
      have htake : (t ++ r).takeWhile isIndent = t.takeWhile isIndent := by
        rw [hrest, List.takeWhile_append_of_pos hw]
        simp [ha]
      have hafter : Pattern.andThen (Pattern.many isIndent) Pattern.lineEnd (t ++ r) =
          none := by
        simp only [Pattern.andThen, Pattern.many, htake]
        rw [hrest, List.drop_left, hend]
        rfl
      change Lexeme.signed ['|'] _ ('|' :: (t ++ r)) = none
      rw [Lexeme.signed_cons, hafter]
      rfl
  · simp [Lexeme.signed, Pattern.andThen, Pattern.exactly, Ne.symm hc]

/-- The first token of a line is neither a blank nor the end of the line. -/
theorem LineBody.kind {b r : Text} {x : Lexeme} (hb : LineBody b)
    (hx : Lexeme.read? .line (b ++ r) = some x) :
    x.kind.endsLine = false ∧ x.kind ≠ .space := by
  obtain ⟨c, t, hct, hc⟩ := hb.visible
  have hbreak : isLineBreak c = false := hb.oneLine c (by simp [hct])
  have hcont := continuation_eq_none hb r
  subst hct
  rcases Lexeme.read?_cases hx with ⟨rule, hr, hx⟩ | ⟨-, rfl⟩
  · obtain ⟨m, hm, rfl⟩ := Option.map_eq_some_iff.1 hx
    simp only [Lexeme.rules, Lexeme.commonRules, Lexeme.lineRules, List.cons_append,
      List.nil_append, List.mem_cons, List.not_mem_nil, or_false] at hr
    rcases hr with rfl | rfl | rfl | rfl | rfl | rfl | rfl | rfl | rfl | rfl | rfl | rfl
    · exact absurd hm (by simp [Pattern.lineEnd_eq_none.2 hbreak])
    · exact absurd hm (by simp [Pattern.many1, Pattern.headed, hc])
    · cases hcont.symm.trans hm
    all_goals exact ⟨rfl, by simp⟩
  · simp only [Lexeme.signKind]
    split <;> exact ⟨rfl, by simp⟩

end Haml
