import Haml.Proofs.CodeLines

/-!
# Reading up to a line end

Tokens, logical lines and expressions that are read from a text which ends with a
whole line end are the same whatever follows that line end. Two kinds of reading
are exceptions, and both fail if nothing follows: a quoted attribute value may go
on behind a carriage return, and an expression behind a line end that a backslash
hides.
-/

namespace Haml

/-- The last line of the text ends with a bar, blanks aside. -/
def EndsBarred (t : Text) : Prop :=
  ∃ u b e, t = u ++ '|' :: (b ++ e) ∧ (∀ c ∈ b, isIndent c = true) ∧ Pattern.lineEnd e = some e

/-- A text that ends with a line end, which neither continues its line nor goes on
in `more`. -/
structure Terminated (t more : Text) : Prop where
  ends : ∃ c, t.getLast? = some c ∧ isLineBreak c = true
  unsplit : Unsplit t more
  unbarred : ¬EndsBarred t

namespace Terminated

variable {t more : Text}

theorem ne_nil (h : Terminated t more) : t ≠ [] := by
  rintro rfl
  obtain ⟨c, hc, -⟩ := h.ends
  cases hc

theorem not_oneLine (h : Terminated t more) : ¬OneLine t := by
  intro ho
  obtain ⟨c, hc, hb⟩ := h.ends
  rw [ho c (List.mem_of_getLast? hc)] at hb
  cases hb

/-- What is left behind a beginning of the text is such a text again. -/
theorem right {m r : Text} (h : Terminated (m ++ r) more) (hr : r ≠ []) : Terminated r more := by
  have hlast : (m ++ r).getLast? = r.getLast? := List.getLast?_append_of_ne_nil _ hr
  refine ⟨hlast ▸ h.ends, fun hs => h.unsplit (hlast ▸ hs), ?_⟩
  rintro ⟨u, b, e, rfl, hb, he⟩
  exact h.unbarred ⟨m ++ u, b, e, (List.append_assoc m u _).symm, hb, he⟩

/-- Something is left behind a beginning that has no line end. -/
theorem right_of_oneLine {m r : Text} (h : Terminated (m ++ r) more) (hm : OneLine m) :
    Terminated r more := by
  apply h.right
  rintro rfl
  rw [List.append_nil] at h
  exact h.not_oneLine hm

theorem takeWhile_append {p : Char → Bool} (h : Terminated t more) (hn : p '\n' = false)
    (hr : p '\r' = false) : (t ++ more).takeWhile p = t.takeWhile p := by
  rw [List.takeWhile_append, if_neg]
  intro hlength
  have hall : t.takeWhile p = t :=
    (List.takeWhile_prefix p).eq_of_length hlength
  exact h.not_oneLine (oneLine_of_all hn hr fun c hc => List.mem_takeWhile_imp (hall ▸ hc))

end Terminated

namespace Pattern

/-- What the pattern matches in a text that ends with a line end does not depend on
what follows. -/
def Local (p : Pattern) : Prop := ∀ t more, Terminated t more → p (t ++ more) = p t

theorem local_exactly {lead : Text} (h : OneLine lead) : Local (exactly lead) := by
  intro t more ht
  have hiff : lead <+: t ++ more ↔ lead <+: t := by
    constructor
    · intro hp
      rcases List.prefix_or_prefix_of_prefix hp (List.prefix_append t more) with hl | hl
      · exact hl
      · exact absurd (fun c hc => h c (hl.subset hc)) ht.not_oneLine
    · exact fun hp => hp.trans (List.prefix_append t more)
  simp only [exactly, List.isPrefixOf_iff_prefix, hiff]

theorem local_many {p : Char → Bool} (hn : p '\n' = false) (hr : p '\r' = false) :
    Local (many p) := by
  intro t more ht
  rw [many, many, ht.takeWhile_append hn hr]

theorem local_headed {p q : Char → Bool} (hpn : p '\n' = false) (hpr : p '\r' = false)
    (hqn : q '\n' = false) (hqr : q '\r' = false) : Local (headed p q) := by
  intro t more ht
  cases t with
  | nil => exact absurd rfl ht.ne_nil
  | cons c t =>
    simp only [List.cons_append, headed]
    split
    · rename_i hc
      have hone : OneLine [c] := by
        intro a ha
        rw [List.mem_singleton.1 ha]
        exact isLineBreak_eq_false hpn hpr hc
      have ht' : Terminated t more := ht.right_of_oneLine (m := [c]) hone
      rw [ht'.takeWhile_append hqn hqr]
    · rfl

theorem local_andThen {p q : Pattern} (hp : Local p) (hi : Inline p) (hq : Local q) :
    Local (andThen p q) := by
  intro t more ht
  simp only [andThen, hp t more ht]
  cases hm : p t with
  | none => rfl
  | some m =>
    obtain ⟨r, rfl⟩ := hi.isPrefix t m hm
    have hr := ht.right_of_oneLine (hi.oneLine _ m hm)
    simp only [List.append_assoc, List.drop_left, hq r more hr]

theorem inline_many {p : Char → Bool} (hn : p '\n' = false) (hr : p '\r' = false) :
    Inline (many p) := by
  constructor <;> intro t m hm <;> cases hm
  · exact List.takeWhile_prefix p
  · exact oneLine_of_all hn hr fun c hc => List.mem_takeWhile_imp hc

theorem local_lineEnd : Local lineEnd := by
  intro t more ht
  cases t with
  | nil => exact absurd rfl ht.ne_nil
  | cons c t =>
    cases hb : isLineBreak c with
    | false => rw [List.cons_append, lineEnd_eq_none.2 hb, lineEnd_eq_none.2 hb]
    | true =>
      have hc : c = '\n' ∨ c = '\r' := by simpa [isLineBreak] using hb
      rcases hc with rfl | rfl
      · rfl
      · cases t with
        | cons d t => by_cases hd : d = '\n' <;> simp [lineEnd, hd]
        | nil =>
          -- A carriage return at the very end takes no line feed from `more`.
          cases more with
          | nil => rfl
          | cons d more =>
            have hd : d ≠ '\n' := by
              rintro rfl
              exact ht.unsplit ⟨rfl, rfl⟩
            simp [lineEnd, hd]

theorem lineEnd_self {t m : Text} (h : lineEnd t = some m) : lineEnd m = some m := by
  unfold lineEnd at h
  split at h <;> cases h <;> rfl

/-- No match of the pattern ends with a line end. -/
def Solid (p : Pattern) : Prop :=
  ∀ t m, p t = some m → ∀ c, m.getLast? = some c → isLineBreak c = false

theorem Inline.solid {p : Pattern} (h : Inline p) : Solid p :=
  fun t m hm c hc => h.oneLine t m hm c (List.mem_of_getLast? hc)

theorem solid_andThen {p q : Pattern} (hq : Solid q) (hne : Proper q) : Solid (andThen p q) := by
  intro t m hm c hc
  obtain ⟨a, b, rfl, -, hb⟩ := andThen_eq_some hm
  rw [List.getLast?_append_of_ne_nil _ (hne _ b hb)] at hc
  exact hq _ b hb c hc

end Pattern

namespace Lexeme

open Pattern

theorem local_signed {sign : Text} {p : Pattern} (hs : OneLine sign) (hp : Local p) :
    Local (signed sign p) := local_andThen (local_exactly hs) (inline_exactly hs) hp

/-- Only quoted values may go on behind a line end. -/
theorem local_of_mem_rules {mode : Mode} {r : Rule} (h : r ∈ rules mode) (hk : r.kind ≠ .quoted) :
    Local r.pattern := by
  have hword {sign : Text} {p q : Char → Bool} (hs : OneLine sign) (hpn : p '\n' = false)
      (hpr : p '\r' = false) (hqn : q '\n' = false) (hqr : q '\r' = false) :
      Local (signed sign (headed p q)) := local_signed hs (local_headed hpn hpr hqn hqr)
  rcases List.mem_append.1 h with h | h
  · simp only [commonRules, List.mem_cons, List.not_mem_nil, or_false] at h
    rcases h with rfl | rfl
    · exact local_lineEnd
    · exact local_headed rfl rfl rfl rfl
  · cases mode with
    | line =>
      simp only [lineRules, List.mem_cons, List.not_mem_nil, or_false] at h
      rcases h with rfl | rfl | rfl | rfl | rfl | rfl | rfl | rfl | rfl | rfl
      · exact local_signed (by decide)
          (local_andThen (local_many rfl rfl) (inline_many rfl rfl) local_lineEnd)
      · exact hword (by decide) rfl rfl rfl rfl
      · exact hword (by decide) rfl rfl rfl rfl
      · exact hword (by decide) rfl rfl rfl rfl
      · exact local_exactly (by decide)
      · exact local_exactly (by decide)
      · exact local_exactly (by decide)
      · have hall {p : Char → Bool} (hn : p '\n' = false) (hr : p '\r' = false) :
            ∀ c, p c = true → isLineBreak c = false := fun _ => isLineBreak_eq_false hn hr
        exact local_signed (by decide)
          (local_andThen (local_headed rfl rfl rfl rfl)
            (inline_headed (hall rfl rfl) (hall rfl rfl)) (local_exactly (by decide)))
      · exact local_exactly (by decide)
      · exact hword (by decide) rfl rfl rfl rfl
    | list =>
      simp only [listRules, List.mem_cons, List.not_mem_nil, or_false] at h
      rcases h with rfl | rfl | rfl
      · exact local_headed rfl rfl rfl rfl
      · exact absurd rfl hk
      · exact absurd rfl hk
    | hash =>
      simp only [hashRules, List.mem_cons, List.not_mem_nil, or_false] at h
      subst h
      exact local_headed rfl rfl rfl rfl

theorem quotedBy_of_ne {q c : Char} (h : q ≠ c) (t : Text) : quotedBy q (c :: t) = none := by
  simp [quotedBy, signed, andThen, exactly, h]

/-- A quoted value is what stands between a quote and the next one on the line. -/
theorem quotedBy_eq_some {q : Char} {t m : Text} :
    quotedBy q t = some m ↔
      ∃ a r, m = q :: (a ++ [q]) ∧ t = m ++ r ∧ ∀ c ∈ a, (c != q && c != '\n') = true := by
  constructor
  · intro h
    cases t with
    | nil => simp [quotedBy, signed, andThen, exactly] at h
    | cons c t =>
      by_cases hc : q = c
      · subst hc
        rw [quotedBy, signed_cons] at h
        obtain ⟨m, hm, rfl⟩ := Option.map_eq_some_iff.1 h
        obtain ⟨a, b, rfl, ha, hb⟩ := andThen_eq_some hm
        obtain ⟨u, hu⟩ := leading_many _ t a ha
        have hrun : ∀ c ∈ a, (c != q && c != '\n') = true := by
          cases ha
          exact fun c hc => List.mem_takeWhile_imp (p := fun c => c != q && c != '\n') hc
        subst hu
        rw [List.drop_left] at hb
        simp only [exactly] at hb
        split at hb
        · rename_i hp
          cases hb
          obtain ⟨r, rfl⟩ := List.isPrefixOf_iff_prefix.1 hp
          exact ⟨a, r, rfl, by simp, hrun⟩
        · cases hb
      · rw [quotedBy_of_ne hc] at h
        cases h
  · rintro ⟨a, r, rfl, rfl, hrun⟩
    -- The run ends at the closing quote.
    have htake : (a ++ q :: r).takeWhile (fun c => c != q && c != '\n') = a := by
      rw [List.takeWhile_append_of_pos hrun]
      simp
    have hafter : andThen (many fun c => c != q && c != '\n') (exactly [q]) (a ++ q :: r) =
        some (a ++ [q]) := by
      simp only [andThen, many, htake, List.drop_left, exactly]
      simp
    rw [List.cons_append, List.append_assoc, List.singleton_append, quotedBy, signed_cons, hafter]
    rfl

/-- A quoted value that is closed stays as it is. -/
theorem quotedBy_append {q : Char} {t m : Text} (h : quotedBy q t = some m) (more : Text) :
    quotedBy q (t ++ more) = some m := by
  obtain ⟨a, r, hm, rfl, hrun⟩ := quotedBy_eq_some.1 h
  exact quotedBy_eq_some.2 ⟨a, r ++ more, hm, List.append_assoc _ _ _, hrun⟩

/-- A quoted value that is closed only by what follows a text is longer than the text. -/
theorem length_lt_of_quotedBy_append {q : Char} {t more m : Text} (h : quotedBy q t = none)
    (hm : quotedBy q (t ++ more) = some m) : t.length < m.length := by
  obtain ⟨a, r, hquoted, ht, hrun⟩ := quotedBy_eq_some.1 hm
  by_contra hle
  have hprefix : m <+: t :=
    List.prefix_of_prefix_length_le ⟨r, ht.symm⟩ (List.prefix_append t more) (by omega)
  obtain ⟨u, rfl⟩ := hprefix
  rw [quotedBy_eq_some.2 ⟨a, u, hquoted, rfl, hrun⟩] at h
  cases h

/-- A quote that is not closed is a token of its own. -/
theorem read?_openQuote {q : Char} {t : Text} (hq : q = '\'' ∨ q = '"')
    (h : quotedBy q (q :: t) = none) : read? .list (q :: t) = some ⟨.other, [q], [q]⟩ := by
  have hend : lineEnd (q :: t) = none := lineEnd_eq_none.2 (by rcases hq with rfl | rfl <;> rfl)
  rcases hq with rfl | rfl
  · have hother := quotedBy_of_ne (q := '"') (c := '\'') (by decide) t
    simp [read?, rules, commonRules, listRules, Rule.read?, hend, many1, headed, h, hother,
      isIndent, signKind]
  · have hother := quotedBy_of_ne (q := '\'') (c := '"') (by decide) t
    simp [read?, rules, commonRules, listRules, Rule.read?, hend, many1, headed, h, hother,
      isIndent, signKind]

theorem quotedRule_of_mem {mode : Mode} {r : Rule} (h : r ∈ rules mode) (hk : r.kind = .quoted) :
    mode = .list ∧ ∃ q, (q = '\'' ∨ q = '"') ∧ r.pattern = quotedBy q := by
  rcases List.mem_append.1 h with h | h
  · simp only [commonRules, List.mem_cons, List.not_mem_nil, or_false] at h
    rcases h with rfl | rfl <;> cases hk
  · cases mode with
    | line =>
      simp only [lineRules, List.mem_cons, List.not_mem_nil, or_false] at h
      rcases h with rfl | rfl | rfl | rfl | rfl | rfl | rfl | rfl | rfl | rfl <;> cases hk
    | list =>
      simp only [listRules, List.mem_cons, List.not_mem_nil, or_false] at h
      rcases h with rfl | rfl | rfl
      · cases hk
      · exact ⟨rfl, '\'', .inl rfl, rfl⟩
      · exact ⟨rfl, '"', .inr rfl, rfl⟩
    | hash =>
      simp only [hashRules, List.mem_cons, List.not_mem_nil, or_false] at h
      subst h
      cases hk

/-- The lexeme at the start of a text is what its rules say. -/
theorem read?_congr {mode : Mode} {c : Char} {t t' : Text}
    (h : ∀ r ∈ rules mode, r.pattern (c :: t') = r.pattern (c :: t)) :
    read? mode (c :: t') = read? mode (c :: t) := by
  have hmap : (rules mode).map (·.read? (c :: t')) = (rules mode).map (·.read? (c :: t)) := by
    apply List.map_congr_left
    intro r hr
    rw [Rule.read?, Rule.read?, h r hr]
  have hfind : (rules mode).findSome? (·.read? (c :: t')) =
      (rules mode).findSome? (·.read? (c :: t)) := by
    simpa [List.findSome?_map, Function.comp_def] using congrArg (List.findSome? id) hmap
  rw [read?, hfind, read?]

theorem read?_closedQuote {q : Char} {t m : Text} (hq : q = '\'' ∨ q = '"')
    (h : quotedBy q (q :: t) = some m) :
    ∃ x, read? .list (q :: t) = some x ∧ x.kind = .quoted ∧ x.matched = m := by
  have hend : lineEnd (q :: t) = none := lineEnd_eq_none.2 (by rcases hq with rfl | rfl <;> rfl)
  rcases hq with rfl | rfl
  · simp [read?, rules, commonRules, listRules, Rule.read?, hend, many1, headed, h, isIndent]
  · have hother := quotedBy_of_ne (q := '\'') (c := '"') (by decide) t
    simp [read?, rules, commonRules, listRules, Rule.read?, hend, many1, headed, h, hother,
      isIndent]

/-- A lexeme is the same whatever follows, or it is a quoted value that is closed behind
the end of the text. -/
theorem read?_append_or {t more : Text} (h : Terminated t more) (mode : Mode) :
    read? mode (t ++ more) = read? mode t ∨
      mode = .list ∧ (∃ x, read? mode t = some x ∧ x.kind = .other) ∧
        ∃ x, read? mode (t ++ more) = some x ∧ t.length < x.matched.length := by
  obtain ⟨c, t, rfl⟩ := List.exists_cons_of_ne_nil h.ne_nil
  by_cases hrule : ∀ r ∈ rules mode, r.pattern (c :: t ++ more) = r.pattern (c :: t)
  · exact .inl (read?_congr hrule)
  · right
    obtain ⟨r, hr, hne⟩ : ∃ r ∈ rules mode, r.pattern (c :: t ++ more) ≠ r.pattern (c :: t) := by
      simpa using hrule
    have hk : r.kind = .quoted := by
      by_contra hk
      exact hne (local_of_mem_rules hr hk (c :: t) more h)
    obtain ⟨rfl, q, hq, hp⟩ := quotedRule_of_mem hr hk
    rw [hp] at hne
    by_cases hc : q = c
    · subst hc
      cases hm : quotedBy q (q :: t) with
      | some m => exact absurd ((quotedBy_append hm more).trans hm.symm) hne
      | none =>
        rw [hm] at hne
        obtain ⟨m, hm'⟩ := Option.ne_none_iff_exists'.1 hne
        obtain ⟨x, hx, -, hmatched⟩ := read?_closedQuote hq hm'
        refine ⟨rfl, ⟨_, read?_openQuote hq hm, rfl⟩, x, hx, ?_⟩
        rw [hmatched]
        exact length_lt_of_quotedBy_append hm hm'
    · rw [List.cons_append, quotedBy_of_ne hc, quotedBy_of_ne hc] at hne
      exact absurd rfl hne

/-- A lexeme is the same whatever follows, unless it is a quote that is not closed. -/
theorem read?_append {mode : Mode} {t more : Text} {x : Lexeme} (h : Terminated t more)
    (hx : read? mode t = some x) (ho : mode = .list → x.kind ≠ .other) :
    read? mode (t ++ more) = some x := by
  rcases read?_append_or h mode with hsame | ⟨hlist, ⟨y, hy, hother⟩, -⟩
  · rw [hsame, hx]
  · cases hx.symm.trans hy
    exact absurd hother (ho hlist)

/-- Only quoted values and what breaks a line can have line ends in them. -/
theorem inline_of_unquoted {mode : Mode} {r : Rule} (h : r ∈ rules mode)
    (hk : r.kind.breaksLine = false) (hq : r.kind ≠ .quoted) : r.pattern.Inline := by
  have hheaded {p q : Char → Bool} (hpn : p '\n' = false) (hpr : p '\r' = false)
      (hqn : q '\n' = false) (hqr : q '\r' = false) : Inline (headed p q) :=
    inline_headed (fun _ => isLineBreak_eq_false hpn hpr) fun _ => isLineBreak_eq_false hqn hqr
  cases mode with
  | line =>
    refine inline_of_mem_rules h ?_
    have hne : r.kind ≠ .eof := by
      clear hk hq
      revert r
      simp [rules, commonRules, lineRules]
    cases hr : r.kind <;> simp_all [Token.Kind.endsLine, Token.Kind.breaksLine]
  | list =>
    simp only [rules, commonRules, listRules, List.cons_append, List.nil_append,
      List.mem_cons, List.not_mem_nil, or_false] at h
    rcases h with rfl | rfl | rfl | rfl | rfl
    · cases hk
    · exact hheaded rfl rfl rfl rfl
    · exact hheaded rfl rfl rfl rfl
    · exact absurd rfl hq
    · exact absurd rfl hq
  | hash =>
    simp only [rules, commonRules, hashRules, List.cons_append, List.nil_append,
      List.mem_cons, List.not_mem_nil, or_false] at h
    rcases h with rfl | rfl | rfl
    · cases hk
    · exact hheaded rfl rfl rfl rfl
    · exact hheaded rfl rfl rfl rfl

theorem solid_of_mem_rules {mode : Mode} {r : Rule} (h : r ∈ rules mode)
    (hk : r.kind.breaksLine = false) : Solid r.pattern := by
  by_cases hq : r.kind = .quoted
  · obtain ⟨-, q, hq, hp⟩ := quotedRule_of_mem h hq
    have hone : OneLine [q] := by rcases hq with rfl | rfl <;> decide
    have hne : Proper (exactly [q]) := exactly_proper (List.cons_ne_nil _ _)
    rw [hp]
    refine solid_andThen (solid_andThen (inline_exactly hone).solid hne) ?_
    intro t m hm
    obtain ⟨a, b, rfl, -, hb⟩ := andThen_eq_some hm
    exact List.append_ne_nil_of_right_ne_nil a (hne _ b hb)
  · exact (inline_of_unquoted h hk hq).solid

/-- A lexeme that does not break the line does not end with a line end. -/
theorem solid_read? {mode : Mode} {t : Text} {x : Lexeme} (h : read? mode t = some x)
    (hk : x.kind.breaksLine = false) {c : Char} (hc : x.matched.getLast? = some c) :
    isLineBreak c = false := by
  cases t with
  | nil => cases h
  | cons a t =>
    rcases read?_cases h with ⟨r, hr, hx⟩ | ⟨ha, rfl⟩
    · obtain ⟨m, hm, rfl⟩ := Option.map_eq_some_iff.1 hx
      exact solid_of_mem_rules hr hk _ m hm c hc
    · obtain rfl : a = c := by simpa using hc
      exact ha

theorem lineEnd_of_read? {mode : Mode} {t : Text} {x : Lexeme} (h : read? mode t = some x)
    (hk : x.kind = .lineEnd) : lineEnd t = some x.matched := by
  cases t with
  | nil => cases h
  | cons c t =>
    rcases read?_cases h with ⟨r, hr, hx⟩ | ⟨-, rfl⟩
    · obtain ⟨m, hm, rfl⟩ := Option.map_eq_some_iff.1 hx
      have hrule : r = { kind := .lineEnd, pattern := lineEnd } := by
        revert r
        cases mode <;> simp [rules, commonRules, lineRules, listRules, hashRules]
      rwa [hrule] at hm
    · simp only [signKind] at hk
      split at hk <;> cases hk

/-- A continuation is a bar, blanks and a line end. -/
theorem bar_of_continuation {mode : Mode} {t : Text} {x : Lexeme} (h : read? mode t = some x)
    (hk : x.kind = .continuation) :
    ∃ b e, x.matched = '|' :: (b ++ e) ∧ (∀ c ∈ b, isIndent c = true) ∧ lineEnd e = some e := by
  cases t with
  | nil => cases h
  | cons c t =>
    rcases read?_cases h with ⟨r, hr, hx⟩ | ⟨-, rfl⟩
    · obtain ⟨m, hm, rfl⟩ := Option.map_eq_some_iff.1 hx
      have hrule : r = lineRules.head (by decide) := by
        revert r
        cases mode <;> simp [rules, commonRules, lineRules, listRules, hashRules]
      rw [hrule] at hm
      obtain ⟨a, b, rfl, ha, hb⟩ := andThen_eq_some hm
      obtain ⟨b, e, rfl, hb, he⟩ := andThen_eq_some hb
      have ha : a = ['|'] := by
        simp only [exactly] at ha
        split at ha
        · exact (Option.some.inj ha).symm
        · cases ha
      refine ⟨b, e, by rw [ha]; rfl, ?_, lineEnd_self he⟩
      cases hb
      exact fun c hc => List.mem_takeWhile_imp hc
    · simp only [signKind] at hk
      split at hk <;> cases hk

theorem matched_continuation {mode : Mode} {t : Text} {x : Lexeme} (h : read? mode t = some x)
    (hk : x.kind = .continuation) : EndsBarred x.matched := by
  obtain ⟨b, e, hm, hb, he⟩ := bar_of_continuation h hk
  exact ⟨[], b, e, hm, hb, he⟩

end Lexeme

/-- Whether a line is continued shows at its end. -/
theorem continued?_append {t more : Text} (h : Terminated t more) :
    continued? (t ++ more) = continued? t := by
  have hline := h.takeWhile_append (p := fun c => !isLineBreak c) rfl rfl
  have hlt : (t.takeWhile fun c => !isLineBreak c).length < t.length := by
    apply Nat.lt_of_le_of_ne (List.takeWhile_prefix _).length_le
    intro hlength
    have hall := (List.takeWhile_prefix fun c => !isLineBreak c).eq_of_length hlength
    exact h.not_oneLine (hall ▸ oneLine_takeWhile t)
  have hlt' : (t.takeWhile fun c => !isLineBreak c).length < (t ++ more).length := by
    rw [List.length_append]
    omega
  simp only [continued?, hline, hlt, hlt', and_true]

namespace Expression

/-- In a quote a character that is not a line break is read. -/
theorem scan_quoted_pos (closers : Text) (q : Char) {c : Char} (u : Text)
    (h : isLineBreak c = false) : 0 < (scan closers (some q) (c :: u)).text.length := by
  have hpush (m : Text) (s : Scanned) (hm : m ≠ []) : 0 < (s.push m).text.length := by
    rw [Scanned.push, List.length_append]
    exact Nat.add_pos_left (List.length_pos_iff.2 hm) _
  rw [scan.eq_def]
  split
  · contradiction
  · exact hpush _ _ nofun
  · exact hpush _ _ nofun
  · rename_i heq
    cases heq
    rw [h]
    exact hpush _ _ nofun
  · contradiction

/-- An expression is the same whatever follows and ends before the line does, or it goes
on in what follows: a backslash hides the line end. -/
theorem scan_append_or (closers : Text) (quote : Option Char) {t more : Text}
    (ht : Terminated t more ∨ t = [] ∧ quote.isSome) :
    (scan closers quote (t ++ more) = scan closers quote t ∧
        (scan closers quote t).text.length < t.length) ∨
      scan closers quote t = ⟨t, .unterminated⟩ ∧
        ∀ c, more.head? = some c → isLineBreak c = false →
          t.length < (scan closers quote (t ++ more)).text.length := by
  -- What is pushed in front makes no difference.
  have hpush {s s' : Scanned} {t : Text} (m : Text)
      (h : (s' = s ∧ s.text.length < t.length) ∨ s = ⟨t, .unterminated⟩ ∧
        ∀ c, more.head? = some c → isLineBreak c = false → t.length < s'.text.length) :
      (s'.push m = s.push m ∧ (s.push m).text.length < (m ++ t).length) ∨
        s.push m = ⟨m ++ t, .unterminated⟩ ∧
          ∀ c, more.head? = some c → isLineBreak c = false →
            (m ++ t).length < (s'.push m).text.length := by
    rcases h with ⟨rfl, hlt⟩ | ⟨rfl, hlt⟩
    · refine .inl ⟨rfl, ?_⟩
      simp only [Scanned.push, List.length_append]
      omega
    · refine .inr ⟨rfl, fun c hc hb => ?_⟩
      have hlt := hlt c hc hb
      simp only [Scanned.push, List.length_append]
      omega
  have hbehind {m t : Text} {q : Char} (h : Terminated (m ++ t) more) :
      Terminated t more ∨ t = [] ∧ (some q).isSome := by
    by_cases hnil : t = []
    · exact .inr ⟨hnil, rfl⟩
    · exact .inl (h.right hnil)
  induction closers, quote, t using scan_induction with
  | nil closers quote =>
    obtain ⟨q, rfl⟩ := Option.isSome_iff_exists.1 (ht.resolve_left fun ht => ht.ne_nil rfl).2
    refine .inr ⟨by simp [scan, stopped], fun c hc hb => ?_⟩
    obtain ⟨u, rfl⟩ := List.head?_eq_some_iff.1 hc
    exact scan_quoted_pos closers q u hb
  | lineEnd closers q t ih =>
    have ht := ht.resolve_right (by simp)
    exact hpush ['\\', '\r', '\n'] (ih (hbehind (m := ['\\', '\r', '\n']) ht))
  | hidden closers q c t hs ih =>
    have ht := ht.resolve_right (by simp)
    have hs' : Unsplit ['\\', c] (t ++ more) := by
      cases t with
      | nil => exact ht.unsplit
      | cons d t => exact hs
    rw [List.cons_append, List.cons_append, scan_hidden closers q hs, scan_hidden closers q hs']
    exact hpush ['\\', c] (ih (hbehind (m := ['\\', c]) ht))
  | backslash closers q =>
    have ht := ht.resolve_right (by simp)
    exact absurd (fun _ hc => List.mem_singleton.1 hc ▸ rfl) ht.not_oneLine
  | halts closers quote c t ending h =>
    rw [List.cons_append, h, h]
    exact .inl ⟨rfl, Nat.zero_lt_succ _⟩
  | reads closers quote c t closers' quote' hc _ h ih =>
    have ht := ht.resolve_right (by simp)
    have hone : OneLine [c] := fun _ hd => List.mem_singleton.1 hd ▸ hc
    rw [List.cons_append, h, h]
    exact hpush [c] (ih (.inl (ht.right_of_oneLine (m := [c]) hone)))

/-- An expression that is complete is the same whatever follows, and ends before the
line does. -/
theorem scan_append {closers : Text} {quote : Option Char} {t more : Text}
    (ht : Terminated t more ∨ t = [] ∧ quote.isSome)
    (h : (scan closers quote t).ending = .complete) :
    scan closers quote (t ++ more) = scan closers quote t ∧
      (scan closers quote t).text.length < t.length := by
  rcases scan_append_or closers quote ht with hsame | ⟨hscan, -⟩
  · exact hsame
  · rw [hscan] at h
    cases h

end Expression

end Haml
