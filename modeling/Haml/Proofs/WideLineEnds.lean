import Haml.Proofs.Locality

/-!
# Wide line ends

A source without carriage returns and its wide form, in which every line feed has a
carriage return in front, are read alike. A lexer on the one and a lexer on the other
that stand at the same place stay so: they are on tokens of one kind, the lines and
columns they count agree, and unless it ends a line the token is the same.
-/

namespace Haml

namespace Text

/-- The text with a carriage return in front of every line feed. -/
def widen (t : Text) : Text := t.flatMap fun c => if c = '\n' then ['\r', '\n'] else [c]

/-- The text with a line feed in place of each carriage return that a line feed follows
and that line feed. -/
def narrow : Text → Text
  | '\r' :: '\n' :: t => '\n' :: narrow t
  | c :: t => c :: narrow t
  | [] => []

@[simp] theorem widen_nil : widen [] = [] := rfl

@[simp] theorem widen_lineFeed (t : Text) : widen ('\n' :: t) = '\r' :: '\n' :: widen t := rfl

theorem widen_cons {c : Char} (h : c ≠ '\n') (t : Text) : widen (c :: t) = c :: widen t := by
  simp [widen, h]

@[simp] theorem widen_append (s t : Text) : widen (s ++ t) = widen s ++ widen t :=
  List.flatMap_append

theorem widen_eq_self {t : Text} (h : '\n' ∉ t) : widen t = t := by
  induction t with
  | nil => rfl
  | cons c t ih =>
    rw [widen_cons (fun hc => h (hc ▸ .head t)), ih fun hm => h (.tail c hm)]

theorem widen_eq_nil {t : Text} : widen t = [] ↔ t = [] := by
  cases t with
  | nil => simp
  | cons c t => by_cases h : c = '\n' <;> simp [h, widen_cons]

/-- No line feed stands at the start of a wide text. -/
theorem head?_widen (t : Text) : (widen t).head? ≠ some '\n' := by
  cases t with
  | nil => simp
  | cons c t =>
    by_cases h : c = '\n'
    · simp [h]
    · simpa [widen_cons h] using h

theorem narrow_cons {c : Char} {t : Text} (h : c ≠ '\r' ∨ t.head? ≠ some '\n') :
    narrow (c :: t) = c :: narrow t := by
  rw [narrow]
  rintro u rfl rfl
  simp at h

/-- Widening loses nothing. -/
@[simp] theorem narrow_widen (t : Text) : narrow (widen t) = t := by
  induction t with
  | nil => rfl
  | cons c t ih =>
    by_cases h : c = '\n'
    · rw [h, widen_lineFeed, narrow, ih]
    · rw [widen_cons h, narrow_cons (.inr (head?_widen t)), ih]

theorem narrow_eq_nil {t : Text} : narrow t = [] ↔ t = [] := by
  fun_cases narrow t <;> simp

theorem narrow_eq_self {t : Text} (h : '\r' ∉ t) : narrow t = t := by
  induction t with
  | nil => rfl
  | cons c t ih =>
    rw [narrow_cons (.inl fun hc => h (hc ▸ .head t)), ih fun hm => h (.tail c hm)]

/-- A text is narrowed part by part, unless it is split within a line end. -/
theorem narrow_append {s t : Text} (h : s.getLast? ≠ some '\r') :
    narrow (s ++ t) = narrow s ++ narrow t := by
  fun_induction narrow s with
  | case1 s ih =>
    have hs : s.getLast? ≠ some '\r' := by
      intro hl
      cases s with
      | nil => cases hl
      | cons c s => exact h (by simpa using hl)
    rw [List.cons_append, List.cons_append, narrow, ih hs, List.cons_append]
  | case2 c s hcrlf ih =>
    by_cases hnil : s = []
    · subst hnil
      have hc : c ≠ '\r' := by simpa using h
      rw [List.singleton_append, narrow_cons (.inl hc)]
      rfl
    · have hs : s.getLast? ≠ some '\r' := by
        rwa [← List.singleton_append, List.getLast?_append_of_ne_nil _ hnil] at h
      have hc : c ≠ '\r' ∨ (s ++ t).head? ≠ some '\n' := by
        by_contra hc
        obtain ⟨a, s, rfl⟩ := List.exists_cons_of_ne_nil hnil
        obtain ⟨rfl, rfl⟩ : c = '\r' ∧ a = '\n' := by simpa using hc
        exact hcrlf s rfl rfl
      rw [List.cons_append, narrow_cons hc, ih hs, List.cons_append]
  | case3 => rfl

section Classes

variable {p : Char → Bool} (h : p '\r' = p '\n')

include h

/-- A class that does not tell the two characters of a line end apart cuts a wide text
at the same place. -/
theorem takeWhile_widen (t : Text) : (widen t).takeWhile p = widen (t.takeWhile p) := by
  induction t with
  | nil => rfl
  | cons c t ih =>
    by_cases hc : c = '\n'
    · subst hc
      cases hp : p '\n' <;> simp [h, hp, ih]
    · cases hp : p c <;> simp [widen_cons hc, hp, ih]

theorem dropWhile_widen (t : Text) : (widen t).dropWhile p = widen (t.dropWhile p) := by
  induction t with
  | nil => rfl
  | cons c t ih =>
    by_cases hc : c = '\n'
    · subst hc
      cases hp : p '\n' <;> simp [h, hp, ih]
    · cases hp : p c <;> simp [widen_cons hc, hp, ih]

theorem dropEndWhile_widen (t : Text) : dropEndWhile p (widen t) = widen (dropEndWhile p t) := by
  induction t using List.reverseRecOn with
  | nil => rfl
  | append_singleton t c ih =>
    rw [widen_append, dropEndWhile_append, dropEndWhile_append]
    by_cases hc : c = '\n'
    · subst hc
      cases hp : p '\n' <;> simp [dropEndWhile, h, hp]
      simpa [dropEndWhile] using ih
    · cases hp : p c <;> simp [dropEndWhile, widen_cons hc, hp]
      simpa [dropEndWhile] using ih

end Classes

theorem trim_widen (t : Text) : trim (widen t) = widen (trim t) := by
  rw [trim, trimStart, dropWhile_widen (by decide), trimEnd, dropEndWhile_widen (by decide)]
  rfl

/-- The first line of a wide text. -/
theorem line_widen (t : Text) :
    ((widen t).takeWhile fun c => !isLineBreak c) = t.takeWhile fun c => !isLineBreak c := by
  rw [takeWhile_widen rfl, widen_eq_self]
  intro hn
  simpa [isLineBreak] using List.mem_takeWhile_imp hn

end Text

theorem OneLine.widen_eq {t : Text} (h : OneLine t) : t.widen = t :=
  Text.widen_eq_self fun hn => by simpa [isLineBreak] using h _ hn

/-- Whether a line is continued does not depend on how it ends. -/
theorem continued?_widen (t : Text) : continued? t.widen = continued? t := by
  obtain ⟨r, hr⟩ := List.takeWhile_prefix (l := t) fun c => !isLineBreak c
  have hwide : t.widen = (t.takeWhile fun c => !isLineBreak c) ++ Text.widen r := by
    conv_lhs => rw [← hr, Text.widen_append, (oneLine_takeWhile t).widen_eq]
  have hlength : t.length = (t.takeWhile fun c => !isLineBreak c).length + r.length := by
    rw [← List.length_append, hr]
  have hlt : (t.takeWhile fun c => !isLineBreak c).length < t.widen.length ↔
      (t.takeWhile fun c => !isLineBreak c).length < t.length := by
    rw [hwide, hlength, List.length_append, Nat.lt_add_right_iff_pos, Nat.lt_add_right_iff_pos,
      List.length_pos_iff, List.length_pos_iff, ne_eq, Text.widen_eq_nil]
  simp only [continued?, Text.line_widen, hlt]

namespace Pattern

/-- In the wide form of a text the pattern matches the wide form of what it matches. -/
def Widens (p : Pattern) : Prop := ∀ t, '\r' ∉ t → p t.widen = (p t).map Text.widen

theorem widens_many {p : Char → Bool} (hn : p '\n' = false) (hr : p '\r' = false) :
    Widens (many p) := by
  intro t _
  rw [many, many, Text.takeWhile_widen (hr.trans hn.symm)]
  rfl

theorem widens_headed {p q : Char → Bool} (hpn : p '\n' = false) (hpr : p '\r' = false)
    (hqn : q '\n' = false) (hqr : q '\r' = false) : Widens (headed p q) := by
  intro t _
  cases t with
  | nil => rfl
  | cons c t =>
    by_cases hc : c = '\n'
    · subst hc
      simp [headed, hpn, hpr]
    · rw [Text.widen_cons hc, headed, headed, Text.takeWhile_widen (hqr.trans hqn.symm)]
      split
      · rw [Option.map_some, Text.widen_cons hc]
      · rfl

theorem widens_exactly {lead : Text} (h : OneLine lead) : Widens (exactly lead) := by
  have hprefix : ∀ t : Text, lead.isPrefixOf t.widen = lead.isPrefixOf t := by
    induction lead with
    | nil => simp
    | cons a lead ih =>
      have ha := h a (.head lead)
      intro t
      cases t with
      | nil => rfl
      | cons c t =>
        by_cases hc : c = '\n'
        · subst hc
          have hn : a ≠ '\n' := by rintro rfl; cases ha
          have hr : a ≠ '\r' := by rintro rfl; cases ha
          have hwide : (a == '\r') = false := by simpa using hr
          have hplain : (a == '\n') = false := by simpa using hn
          simp only [Text.widen_lineFeed, List.isPrefixOf, hwide, hplain, Bool.false_and]
        · rw [Text.widen_cons hc, List.isPrefixOf, List.isPrefixOf,
            ih (fun b hb => h b (.tail a hb))]
  intro t _
  rw [exactly, exactly, hprefix]
  split
  · rw [Option.map_some, h.widen_eq]
  · rfl

theorem widens_andThen {p q : Pattern} (hp : Widens p) (hl : Leading p) (hq : Widens q) :
    Widens (andThen p q) := by
  intro t ht
  rw [andThen, andThen, hp t ht]
  cases hm : p t with
  | none => rfl
  | some m =>
    obtain ⟨r, rfl⟩ := hl t m hm
    have hr : '\r' ∉ r := fun h => ht (List.mem_append_right m h)
    simp only [Option.map_some, Text.widen_append, List.drop_left]
    rw [hq r hr]
    cases q r <;> simp

theorem widens_lineEnd : Widens lineEnd := by
  intro t ht
  cases t with
  | nil => rfl
  | cons c t =>
    by_cases hc : c = '\n'
    · subst hc
      rfl
    · have hbreak : isLineBreak c = false := by
        have hr : c ≠ '\r' := fun h => ht (h ▸ .head t)
        simp [isLineBreak, hc, hr]
      rw [Text.widen_cons hc, lineEnd_eq_none.2 hbreak, lineEnd_eq_none.2 hbreak]
      rfl

end Pattern

namespace Lexeme

open Pattern

theorem widens_signed {sign : Text} {p : Pattern} (hs : OneLine sign) (hp : Widens p) :
    Widens (signed sign p) := by
  refine widens_andThen (widens_exactly hs) (cuts_exactly ?_).leading hp
  exact fun hl => absurd (hs _ (List.mem_of_getLast? hl)) (by decide)

/-- A quoted value ends before its line does, whichever way the line ends. -/
theorem widens_quotedBy {q : Char} (hq : isLineBreak q = false) : Widens (quotedBy q) := by
  have hn : q ≠ '\n' := by rintro rfl; cases hq
  have hr : q ≠ '\r' := by rintro rfl; cases hq
  have hsingle : OneLine [q] := by simpa [OneLine] using hq
  refine widens_signed hsingle ?_
  intro t
  induction t with
  | nil => exact fun _ => rfl
  | cons c t ih =>
    intro ht
    have ht' : '\r' ∉ t := fun h => ht (.tail c h)
    by_cases hc : c = '\n'
    · subst hc
      simp [andThen, many, exactly, hn, hr.symm]
    · rw [Text.widen_cons hc]
      by_cases hcq : c = q
      · subst hcq
        simp [andThen, many, exactly, hsingle.widen_eq]
      · have hcons (u : Text) : andThen (many fun c => c != q && c != '\n') (exactly [q]) (c :: u) =
            (andThen (many fun c => c != q && c != '\n') (exactly [q]) u).map (c :: ·) := by
          simp [andThen, many, hc, hcq, Function.comp_def]
        rw [hcons, hcons, ih ht']
        cases andThen (many fun c => c != q && c != '\n') (exactly [q]) t <;>
          simp [Text.widen_cons hc]

/-- Every rule reads alike in a wide text. -/
theorem widens_of_mem_rules {mode : Mode} {r : Rule} (h : r ∈ rules mode) : Widens r.pattern := by
  have hword {p q : Char → Bool} (hpn : p '\n' = false) (hpr : p '\r' = false)
      (hqn : q '\n' = false) (hqr : q '\r' = false) {sign : Text} (hs : OneLine sign) :
      Widens (signed sign (headed p q)) := widens_signed hs (widens_headed hpn hpr hqn hqr)
  rcases List.mem_append.1 h with h | h
  · simp only [commonRules, List.mem_cons, List.not_mem_nil, or_false] at h
    rcases h with rfl | rfl
    · exact widens_lineEnd
    · exact widens_headed rfl rfl rfl rfl
  · cases mode with
    | line =>
      simp only [lineRules, List.mem_cons, List.not_mem_nil, or_false] at h
      rcases h with rfl | rfl | rfl | rfl | rfl | rfl | rfl | rfl | rfl | rfl
      · exact widens_signed (by decide)
          (widens_andThen (widens_many rfl rfl) (leading_many _) widens_lineEnd)
      · exact hword rfl rfl rfl rfl (by decide)
      · exact hword rfl rfl rfl rfl (by decide)
      · exact hword rfl rfl rfl rfl (by decide)
      · exact widens_exactly (by decide)
      · exact widens_exactly (by decide)
      · exact widens_exactly (by decide)
      · exact widens_signed (by decide) (widens_andThen (widens_headed rfl rfl rfl rfl)
          (cuts_headed rfl rfl).leading (widens_exactly (by decide)))
      · exact widens_exactly (by decide)
      · exact hword rfl rfl rfl rfl (by decide)
    | list =>
      simp only [listRules, List.mem_cons, List.not_mem_nil, or_false] at h
      rcases h with rfl | rfl | rfl
      · exact widens_headed rfl rfl rfl rfl
      · exact widens_quotedBy rfl
      · exact widens_quotedBy rfl
    | hash =>
      simp only [hashRules, List.mem_cons, List.not_mem_nil, or_false] at h
      subst h
      exact widens_headed rfl rfl rfl rfl

/-- A quoted value holds no line feed. -/
theorem lineFeed_not_mem_quotedBy {q : Char} (hq : q ≠ '\n') {t m : Text}
    (h : quotedBy q t = some m) : '\n' ∉ m := by
  obtain ⟨a, b, rfl, ha, hb⟩ := andThen_eq_some h
  obtain ⟨c, d, rfl, hc, hd⟩ := andThen_eq_some hb
  have hquote {u v : Text} (hv : exactly [q] u = some v) : '\n' ∉ v := by
    simp only [exactly] at hv
    split at hv <;> cases hv
    simpa using hq.symm
  have hrun : '\n' ∉ c := by
    cases hc
    intro hn
    simpa using List.mem_takeWhile_imp (p := fun c => c != q && c != '\n') hn
  simp [hquote ha, hquote hd, hrun]

/-- A token that does not break the line lies within it, if only line feeds end lines. -/
theorem oneLine_of_mem_rules {mode : Mode} {r : Rule} (h : r ∈ rules mode)
    (hk : r.kind.breaksLine = false) {t m : Text} (ht : '\r' ∉ t) (hm : r.pattern t = some m) :
    OneLine m := by
  have hclass {p q : Char → Bool} (hpn : p '\n' = false) (hpr : p '\r' = false)
      (hqn : q '\n' = false) (hqr : q '\r' = false) (hm : headed p q t = some m) : OneLine m :=
    (inline_headed (fun _ => isLineBreak_eq_false hpn hpr)
      fun _ => isLineBreak_eq_false hqn hqr).oneLine t m hm
  cases mode with
  | line =>
    have hend : r.kind.endsLine = false := by
      have hne : r.kind ≠ .eof := by
        clear hk hm
        revert r
        simp [rules, commonRules, lineRules]
      cases hr : r.kind <;> simp_all [Token.Kind.breaksLine, Token.Kind.endsLine]
    exact (inline_of_mem_rules h hend).oneLine t m hm
  | list =>
    have hquoted {q : Char} (hq : q ≠ '\n') (hm : quotedBy q t = some m) : OneLine m := by
      intro c hc
      obtain ⟨u, rfl⟩ := (cuts_of_mem_rules h).leading t m ‹_›
      have hr : c ≠ '\r' := fun hr => ht (List.mem_append_left u (hr ▸ hc))
      have hn : c ≠ '\n' := fun hn => lineFeed_not_mem_quotedBy hq hm (hn ▸ hc)
      simp [isLineBreak, hr, hn]
    simp only [rules, commonRules, listRules, List.cons_append, List.nil_append, List.mem_cons,
      List.not_mem_nil, or_false] at h
    rcases h with rfl | rfl | rfl | rfl | rfl
    · cases hk
    · exact hclass rfl rfl rfl rfl hm
    · exact hclass rfl rfl rfl rfl hm
    · exact hquoted (by decide) hm
    · exact hquoted (by decide) hm
  | hash =>
    simp only [rules, commonRules, hashRules, List.cons_append, List.nil_append, List.mem_cons,
      List.not_mem_nil, or_false] at h
    rcases h with rfl | rfl | rfl
    · cases hk
    · exact hclass rfl rfl rfl rfl hm
    · exact hclass rfl rfl rfl rfl hm

/-- The lexeme as it stands in a wide text: only line ends differ. -/
def widen (x : Lexeme) : Lexeme :=
  if x.kind.breaksLine then ⟨x.kind, x.matched.widen, x.text.widen⟩ else x

theorem kind_widen (x : Lexeme) : x.widen.kind = x.kind := by
  rw [widen]
  split <;> rfl

theorem cut_of_breaksLine {mode : Mode} {r : Rule} (h : r ∈ rules mode)
    (hk : r.kind.breaksLine = true) : r.cut = .whole := by
  revert r
  cases mode <;>
    simp [rules, commonRules, lineRules, listRules, hashRules, Token.Kind.breaksLine]

theorem Rule.read?_widen {mode : Mode} {r : Rule} (h : r ∈ rules mode) {t : Text}
    (ht : '\r' ∉ t) : r.read? t.widen = (r.read? t).map widen := by
  rw [Rule.read?, Rule.read?, widens_of_mem_rules h t ht]
  cases hm : r.pattern t with
  | none => rfl
  | some m =>
    simp only [Option.map_some, widen]
    split
    · rename_i hk
      rw [cut_of_breaksLine h hk]
      rfl
    · rename_i hk
      rw [(oneLine_of_mem_rules h (by simpa using hk) ht hm).widen_eq]

/-- The same lexeme stands at the start of a text and of its wide form. -/
theorem read?_widen (mode : Mode) {t : Text} (ht : '\r' ∉ t) :
    read? mode t.widen = (read? mode t).map widen := by
  have hrules : (rules mode).findSome? (·.read? t.widen) =
      ((rules mode).findSome? (·.read? t)).map widen := by
    have hread : ∀ r ∈ rules mode, r.read? t.widen = (r.read? t).map widen :=
      fun r hr => Rule.read?_widen hr ht
    generalize rules mode = rs at hread
    induction rs with
    | nil => rfl
    | cons r rs ih =>
      rw [List.findSome?_cons, List.findSome?_cons, hread r (.head rs),
        ih fun r' hr => hread r' (.tail r hr)]
      cases r.read? t <;> rfl
  cases t with
  | nil => rfl
  | cons c t =>
    by_cases hc : c = '\n'
    · subst hc
      obtain ⟨m, hm⟩ : ∃ x, (rules mode).findSome? (·.read? ('\n' :: t)) = some x := ⟨_, rfl⟩
      rw [hm] at hrules
      rw [Text.widen_lineFeed] at hrules ⊢
      simp only [read?, hrules, hm]
      rfl
    · rw [Text.widen_cons hc] at hrules ⊢
      have hsign : widen ⟨signKind c, [c], [c]⟩ = ⟨signKind c, [c], [c]⟩ := by
        refine if_neg ?_
        simp only [signKind]
        split <;> decide
      simp only [read?, hrules, Option.map_some]
      cases (rules mode).findSome? (·.read? (c :: t)) with
      | none => exact congrArg some hsign.symm
      | some x => rfl

/-- What a lexeme of a wide text covers is the wide form of what it covered. -/
theorem matched_widen {mode : Mode} {t : Text} {x : Lexeme} (ht : '\r' ∉ t)
    (h : read? mode t = some x) : x.widen.matched = x.matched.widen := by
  simp only [widen]
  split
  · rfl
  · rename_i hk
    cases t with
    | nil => cases h
    | cons c t =>
      rcases read?_cases h with ⟨r, hr, hx⟩ | ⟨hc, rfl⟩
      · obtain ⟨m, hm, rfl⟩ := Option.map_eq_some_iff.1 hx
        exact (oneLine_of_mem_rules hr (by simpa using hk) ht hm).widen_eq.symm
      · have hsingle : OneLine [c] := by simpa [OneLine] using hc
        exact hsingle.widen_eq.symm

end Lexeme

namespace Cursor

structure Widened (c c' : Cursor) : Prop where
  plain : '\r' ∉ c.rest
  rest : c'.rest = c.rest.widen
  line : c'.line = c.line
  column : c'.column = c.column
  lineTail : c'.lineTail = c.lineTail.widen

namespace Widened

variable {c c' : Cursor}

theorem point (h : Widened c c') : c'.point = c.point := by
  rw [Cursor.point, Cursor.point, h.line, h.column, h.lineTail, Text.line_widen]

/-- One step passes a line feed here and a whole line end there. -/
theorem step (h : Widened c c') : Widened c.step c'.step := by
  cases hr : c.rest with
  | nil =>
    have hr' : c'.rest = [] := by rw [h.rest, hr]; rfl
    have hs : c.step = c := by simp only [Cursor.step, hr]
    have hs' : c'.step = c' := by simp only [Cursor.step, hr']
    rw [hs, hs']
    exact h
  | cons a t =>
    have hplain : '\r' ∉ t := fun ha => h.plain (hr ▸ .tail a ha)
    by_cases ha : a = '\n'
    · subst ha
      have hs : c.step = c.breakLine 1 t := by
        simp only [Cursor.step, hr]
        rfl
      rw [hs, step_crlf (h.rest.trans (by rw [hr]; rfl))]
      exact ⟨hplain, rfl, congrArg (· + 1) h.line, rfl, rfl⟩
    · have hcr : a ≠ '\r' := fun hcr => h.plain (hr ▸ hcr ▸ .head t)
      have hbreak : isLineBreak a = false := by simp [isLineBreak, ha, hcr]
      have hr' : c'.rest = a :: Text.widen t := by rw [h.rest, hr, Text.widen_cons ha]
      have hmove {c : Cursor} {t : Text} (hr : c.rest = a :: t) : c.step =
          { c with position := c.position + a.utf8Size, rest := t, column := c.column + 1 } := by
        rw [Cursor.step, hr]
        split
        · contradiction
        · rename_i heq
          exact absurd (List.cons.inj heq).1 hcr
        · rename_i heq
          obtain ⟨rfl, rfl⟩ := List.cons.inj heq
          rw [hbreak]
          rfl
      rw [hmove hr, hmove hr']
      exact ⟨hplain, rfl, h.line, congrArg (· + 1) h.column, h.lineTail⟩

theorem skip (h : Widened c c') {m : Text} (hm : '\r' ∉ m) :
    Widened (c.skip m) (c'.skip m.widen) := by
  induction m generalizing c c' with
  | nil => exact h
  | cons a m ih =>
    have hplain : '\r' ∉ m := fun ha => hm (.tail a ha)
    have hcr : a ≠ '\r' := fun hcr => hm (hcr ▸ .head m)
    have hmove {c : Cursor} {m : Text} : Cursor.skip (a :: m) c = Cursor.skip m c.step := by
      rw [Cursor.skip]
      exact fun _ ha => absurd ha hcr
    rw [hmove]
    by_cases ha : a = '\n'
    · subst ha
      exact ih h.step hplain
    · rw [Text.widen_cons ha, hmove]
      exact ih h.step hplain

end Widened

end Cursor

structure Token.Widened (t t' : Token) : Prop where
  kind : t'.kind = t.kind
  newline : t'.newline.narrow = t.newline.narrow
  same : t.kind.breaksLine = false → t'.matched = t.matched ∧ t'.text = t.text

theorem Token.Widened.depth {t t' : Token} (h : t.Widened t') : t'.depth = t.depth := by
  simp only [Token.depth, h.kind]
  split
  · rename_i hs
    rw [(h.same (by rw [hs]; rfl)).2]
  · rfl

/-- What ends a line, as it is written, differs only in width. -/
theorem Token.newline_widen {mode : Mode} {t : Text} {x : Lexeme} (ht : '\r' ∉ t)
    (h : Lexeme.read? mode t = some x) (span span' : Token.Span) :
    (Token.mk x.widen.kind x.widen.matched x.widen.text span').newline.narrow =
      (Token.mk x.kind x.matched x.text span).newline.narrow := by
  obtain ⟨r, rfl⟩ : ∃ r, t = x.matched ++ r := by
    obtain ⟨r, hr, -⟩ := Lexeme.read?_cuts h
    exact ⟨r, hr⟩
  have hplain : '\r' ∉ x.matched := fun hr => ht (List.mem_append_left r hr)
  rw [Lexeme.kind_widen, Lexeme.matched_widen ht h]
  cases hk : x.kind with
  | lineEnd =>
    simp only [Token.newline]
    rw [Text.narrow_widen, Text.narrow_eq_self hplain]
  | continuation =>
    obtain ⟨b, e, hm, -, -⟩ := Lexeme.bar_of_continuation h hk
    have hdrop : x.matched.widen.drop 1 = Text.widen (x.matched.drop 1) := by
      rw [hm, Text.widen_cons (by decide)]
      rfl
    simp only [Token.newline, hdrop]
    rw [Text.dropWhile_widen (by decide), Text.narrow_widen, Text.narrow_eq_self]
    intro hr
    exact hplain (List.mem_of_mem_drop ((List.dropWhile_sublist _).mem hr))
  | _ => rfl

end Haml
