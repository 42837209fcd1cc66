import Haml.Proofs.Balance
import Haml.Proofs.LineReading
import Haml.Proofs.Moves

/-!
# Where expressions end

The value of a hash entry is read up to the first place at which it cannot go on: a comma
or a closing brace outside of all brackets and quotes, a closing bracket that closes none
of the open ones, or a line end that no backslash hides. What was read is an expression if
it is balanced, and every balanced text of one line is read whole.
-/

namespace Haml

namespace Expression

/-- No comma stands outside of all brackets and quotes. -/
def Undivided (s : Text) : Prop := ∀ a b, s = a ++ ',' :: b → ¬Balanced a

theorem undivided_iff {s : Text} :
    Undivided s ↔ ∀ n < s.length, s[n]? = some ',' → ¬Balanced (s.take n) := by
  constructor
  · intro h n hn hc
    obtain ⟨hlt, hc⟩ := List.getElem?_eq_some_iff.1 hc
    exact h _ (s.drop (n + 1)) (by rw [← hc, List.getElem_cons_drop, List.take_append_drop])
  · rintro h a b rfl ha
    exact h a.length (by simp) (by simp) (by simpa using ha)

instance (s : Text) : Decidable (Undivided s) := decidable_of_iff' _ undivided_iff

def EndsExpression (r : Text) : Prop :=
  ∀ c, r.head? = some c → c = ',' ∨ c = '\x7d' ∨ isLineBreak c = true

/-- A bracket or a quote is open at the end of the text. -/
def LeftOpen (s : Text) : Prop := ∃ x, LeadsTo s x ∧ x ≠ .code []

/-- Behind the text, a closing bracket does not close the innermost open one. -/
def Clashes (s : Text) (c : Char) : Prop :=
  (∃ o, (o, c) ∈ brackets) ∧ ∃ closers, Opens s closers ∧ closers.head? ≠ some c

/-- The text ends in a quote with a backslash, which hides the next character. -/
def Escapes (s : Text) : Prop := ∃ closers q, LeadsTo s (.escaping closers q)

/-- A backslash in a quote hides the line end whose character `c` stands behind the text. -/
def HidesLineEnd (s : Text) (c : Char) : Prop :=
  Escapes s ∨ c = '\n' ∧ ∃ s', s = s' ++ ['\r'] ∧ Escapes s'

/-- Behind the text, the character `c` cannot belong to the expression. -/
inductive HaltsAt (s : Text) (c : Char) : Prop where
  | comma (hs : Balanced s) (hc : c = ',')
  | closing (h : Clashes s c)
  | lineEnd (hc : isLineBreak c = true) (hs : ¬HidesLineEnd s c)

/-- No character of the text stands where the expression cannot go on. -/
def Passes (s : Text) : Prop := ∀ a c b, s = a ++ c :: b → ¬HaltsAt a c

/-- What `s`, which was read, and `r`, which was not, are like when reading ends in the
given way. -/
def Verdict (s r : Text) : Ending → Prop
  | .complete => Balanced s ∧ EndsExpression r
  | .unterminated => LeftOpen s ∧ AfterLine r
  | .unbalanced => ∃ c, r.head? = some c ∧ Clashes s c ∧ (Balanced s → c ≠ '\x7d')

section Characters

variable {c : Char}

theorem isLineBreak_closing (h : ∃ o, (o, c) ∈ brackets) : isLineBreak c = false := by
  have hc : c = ')' ∨ c = ']' ∨ c = '\x7d' := by
    simpa [isCloser, or_assoc] using isCloser_iff.2 h
  rcases hc with rfl | rfl | rfl <;> rfl

theorem ne_comma_closing (h : ∃ o, (o, c) ∈ brackets) : c ≠ ',' := by
  rintro rfl
  have hc := isCloser_iff.2 h
  cases hc

theorem isLineBreak_quote (h : c ∈ quotes) : isLineBreak c = false := by
  have hc : c = '\'' ∨ c = '"' ∨ c = '\x60' := by simpa [quotes] using h
  rcases hc with rfl | rfl | rfl <;> rfl

theorem isLineBreak_opening {d : Char} (h : (c, d) ∈ brackets) : isLineBreak c = false := by
  simp only [brackets, List.mem_cons, Prod.mk.injEq, List.not_mem_nil, or_false] at h
  rcases h with ⟨rfl, -⟩ | ⟨rfl, -⟩ | ⟨rfl, -⟩ <;> rfl

end Characters

variable {s t r closers : Text} {c q : Char}

/-- Where the text leads into a quote, only a line end halts reading. -/
theorem not_haltsAt_quoted (h : LeadsTo s (.quoted closers q))
    (hc : isLineBreak c = true → HidesLineEnd s c) : ¬HaltsAt s c := by
  rintro (⟨hs, -⟩ | ⟨-, ds, hs, -⟩ | ⟨hb, hs⟩)
  · cases h.unique (y := .code []) (.balanced hs)
  · cases h.unique (y := .code ds) hs
  · exact hs (hc hb)

theorem not_haltsAt_escaping (h : LeadsTo s (.escaping closers q)) (c : Char) : ¬HaltsAt s c := by
  rintro (⟨hs, -⟩ | ⟨-, ds, hs, -⟩ | ⟨-, hs⟩)
  · cases h.unique (y := .code []) (.balanced hs)
  · cases h.unique (y := .code ds) hs
  · exact hs (.inl ⟨closers, q, h⟩)

/-- A closing bracket goes on only with the brackets outside of the one it closes. -/
theorem Spot.head?_of_next {y : Spot} (hy : (Spot.code closers).next c = some y)
    (hc : ∃ o, (o, c) ∈ brackets) : closers.head? = some c := by
  have hcl : c = ')' ∨ c = ']' ∨ c = '\x7d' := by
    simpa [isCloser, or_assoc] using isCloser_iff.2 hc
  cases closers with
  | nil => rcases hcl with rfl | rfl | rfl <;> cases hy
  | cons d outer =>
    by_contra hne
    have hd : c ≠ d := fun h => hne (congrArg some h.symm)
    rcases hcl with rfl | rfl | rfl <;> simp [next, quotes, closer?, isCloser, hd] at hy

theorem not_haltsAt_code {y : Spot} (h : Opens s closers) (hy : (Spot.code closers).next c = some y)
    (hb : isLineBreak c = false) (hcomma : c = ',' → closers ≠ []) : ¬HaltsAt s c := by
  rintro (⟨hs, hc⟩ | ⟨hc, ds, hs, hne⟩ | ⟨hb', -⟩)
  · cases LeadsTo.unique (x := .code closers) (y := .code []) h (.balanced hs)
    exact hcomma hc rfl
  · cases LeadsTo.unique (x := .code closers) (y := .code ds) h hs
    exact hne (Spot.head?_of_next hy hc)
  · rw [hb] at hb'
    cases hb'

/-- What is read behind `s` of the text `t` stands there, goes as far as it can, and is
judged rightly. -/
structure Judged (s t : Text) (x : Scanned) : Prop where
  passes : ∀ a c b, x.text = a ++ c :: b → ¬HaltsAt (s ++ a) c
  halts : ∃ r, t = x.text ++ r ∧ (∀ c, r.head? = some c → HaltsAt (s ++ x.text) c) ∧
    Verdict (s ++ x.text) r x.ending

theorem Judged.push {x : Scanned} (h : Judged (s ++ [c]) t x) (hc : ¬HaltsAt s c) :
    Judged s (c :: t) (x.push [c]) := by
  obtain ⟨hp, r, rfl, hr, hv⟩ := h
  rw [List.append_assoc] at hr hv
  refine ⟨?_, r, rfl, hr, hv⟩
  intro a d b hab
  cases a with
  | nil =>
    obtain ⟨rfl, -⟩ := List.cons.inj (hab : c :: x.text = d :: b)
    rwa [List.append_nil]
  | cons a as =>
    obtain ⟨rfl, htext⟩ := List.cons.inj (hab : c :: x.text = a :: (as ++ d :: b))
    have hrest := hp as d b htext
    rwa [List.append_assoc] at hrest

theorem judged_of_verdict {e : Ending} (hr : ∀ c, t.head? = some c → HaltsAt s c)
    (h : Verdict s t e) : Judged s t ⟨[], e⟩ := by
  refine ⟨fun a _ b hab => (by cases a <;> cases hab), t, rfl, ?_⟩
  rw [List.append_nil]
  exact ⟨hr, h⟩

/-- A line end is hidden only in a quote. -/
theorem not_hidesLineEnd {x : Spot} (h : LeadsTo s x) (hx : ∀ ds q, x ≠ .escaping ds q)
    (hs : Unsplit s (c :: t)) : ¬HidesLineEnd s c := by
  rintro (⟨ds, q, hq⟩ | ⟨rfl, s', rfl, -⟩)
  · exact hx ds q (h.unique hq)
  · exact hs ⟨by simp, rfl⟩

/-- Reading halts before a line end, unless it is right behind a backslash in a quote. -/
theorem haltsAt_afterLine {x : Spot} (h : LeadsTo s x) (hx : ∀ ds q, x ≠ .escaping ds q)
    (hs : Unsplit s t) (ht : AfterLine t) (hc : t.head? = some c) : HaltsAt s c := by
  obtain ⟨u, rfl⟩ := List.head?_eq_some_iff.1 hc
  exact .lineEnd (ht c hc) (not_hidesLineEnd h hx hs)

/-- Outside of quotes reading may stop before the end of a line, and with all brackets
closed also before a comma or a brace. -/
theorem judged_stopped_code (h : Opens s closers) (hs : Unsplit s t) (hr : EndsExpression t)
    (hopen : closers ≠ [] → AfterLine t) : Judged s t (stopped closers none) := by
  cases closers with
  | nil =>
    refine judged_of_verdict (fun c hc => ?_) ⟨h.balanced_of_nil, hr⟩
    obtain ⟨u, rfl⟩ := List.head?_eq_some_iff.1 hc
    rcases hr c rfl with rfl | rfl | hb
    · exact .comma h.balanced_of_nil rfl
    · exact .closing ⟨isCloser_iff.1 rfl, [], h, by simp⟩
    · exact .lineEnd hb (not_hidesLineEnd (x := .code []) h (by simp) hs)
  | cons d ds =>
    have hr := hopen (List.cons_ne_nil d ds)
    exact judged_of_verdict (fun c => haltsAt_afterLine (x := .code (d :: ds)) h (by simp) hs hr)
      ⟨⟨.code (d :: ds), h, by simp⟩, hr⟩

theorem judged_stopped_quoted (h : LeadsTo s (.quoted closers q)) (hs : Unsplit s t)
    (hr : AfterLine t) : Judged s t (stopped closers (some q)) := by
  have hend : stopped closers (some q) = ⟨[], .unterminated⟩ := by simp [stopped]
  rw [hend]
  exact judged_of_verdict (fun c => haltsAt_afterLine h (by simp) hs hr) ⟨⟨_, h, by simp⟩, hr⟩

/-- Outside of quotes reading stops before a closing bracket that clashes. -/
theorem judged_unbalanced (h : Clashes s c) (hb : Balanced s → c ≠ '\x7d') (t : Text) :
    Judged s (c :: t) ⟨[], .unbalanced⟩ := by
  refine judged_of_verdict ?_ ⟨c, rfl, h, hb⟩
  rintro _ ⟨⟩
  exact .closing h

def Spot.inside (closers : Text) : Option Char → Spot
  | none => .code closers
  | some q => .quoted closers q

theorem afterLine_cons (h : isLineBreak c = true) (t : Text) : AfterLine (c :: t) := by
  rintro _ ⟨⟩
  exact h

theorem LeadsTo.mem_quotes (h : LeadsTo s (.quoted closers q)) : q ∈ quotes := by
  obtain ⟨_, _, -, -, hq, -⟩ := h
  exact hq

/-- Within a quote only the quote itself leads out of it. -/
theorem LeadsTo.next_quoted (h : LeadsTo s (.quoted closers q)) (hc : c ≠ '\\') :
    LeadsTo (s ++ [c]) (.inside closers (if c = q then none else some q)) := by
  have hnext {y : Spot} (hy : (if c = q then Spot.code closers else .quoted closers q) = y) :
      LeadsTo (s ++ [c]) y := h.next (by simp [Spot.next, hc, hy])
  exact hnext (by split <;> rfl)

/-- A backslash in a quote that nothing follows leaves the quote open. -/
theorem judged_lone_backslash (h : LeadsTo s (.quoted closers q)) :
    Judged (s ++ ['\\']) [] (scan closers (if '\\' = q then none else some q) []) := by
  have hq : '\\' ≠ q := (ne_backslash h.mem_quotes).symm
  have hend : scan closers (some q) [] = ⟨[], .unterminated⟩ := by simp [scan, stopped]
  rw [if_neg hq, hend]
  have hopen : LeftOpen (s ++ ['\\']) := ⟨.escaping closers q, h.next rfl, by simp⟩
  exact judged_of_verdict (by simp) ⟨hopen, afterLine_nil⟩

/-- Reading goes on as long as it can and judges rightly what it has read. -/
theorem judged_scan {quote : Option Char} (h : LeadsTo s (.inside closers quote))
    (hs : Unsplit s t) : Judged s t (scan closers quote t) := by
  have hescape {s closers : Text} {q : Char} (h : LeadsTo s (.quoted closers q)) :
      LeadsTo (s ++ ['\\']) (.escaping closers q) := h.next rfl
  have hgoes {s closers : Text} {q : Char} (h : LeadsTo s (.quoted closers q)) :
      ¬HaltsAt s '\\' := not_haltsAt_quoted h fun hb => by cases hb
  -- Behind anything but a carriage return no line end is split.
  have hunsplit {s t : Text} {c : Char} (hc : c ≠ '\r') : Unsplit (s ++ [c]) t :=
    unsplit_of_getLast? (by simpa using hc) t
  have hinline {c : Char} (hc : isLineBreak c = false) : c ≠ '\r' := by
    rintro rfl
    cases hc
  fun_induction scan closers quote t generalizing s with
  | case1 closers quote =>
    cases quote with
    | none => exact judged_stopped_code h hs (fun _ hc => by cases hc) fun _ => afterLine_nil
    | some q => exact judged_stopped_quoted h hs afterLine_nil
  | case2 closers q t ih =>
    have hcr : LeadsTo (s ++ ['\\'] ++ ['\r']) (.quoted closers q) := (hescape h).next rfl
    have hlf : LeadsTo (s ++ ['\\'] ++ ['\r'] ++ ['\n']) (.quoted closers q) := by
      refine hcr.next ?_
      have hq := isLineBreak_quote hcr.mem_quotes
      have hne : '\n' ≠ q := by
        rintro rfl
        cases hq
      simp [Spot.next, hne]
    -- The line feed goes along with the carriage return that the backslash hides.
    have hhidden := not_haltsAt_quoted hcr (c := '\n') fun _ =>
      .inr ⟨rfl, _, rfl, closers, q, hescape h⟩
    exact (((ih hlf (hunsplit (by decide))).push hhidden).push
      (not_haltsAt_escaping (hescape h) _)).push (hgoes h)
  | case3 closers q c t hcrlf ih =>
    have hnext : LeadsTo (s ++ ['\\'] ++ [c]) (.quoted closers q) := (hescape h).next rfl
    have hs' : Unsplit (s ++ ['\\'] ++ [c]) t := by
      rintro ⟨hl, hh⟩
      obtain rfl : c = '\r' := by simpa using hl
      obtain ⟨u, rfl⟩ := List.head?_eq_some_iff.1 hh
      exact hcrlf u rfl rfl
    exact ((ih hnext hs').push (not_haltsAt_escaping (hescape h) _)).push (hgoes h)
  | case4 closers q c t _ _ hc => exact judged_stopped_quoted h hs (afterLine_cons hc t)
  | case5 closers q c t _ htriple hc ih =>
    have hpass : ¬HaltsAt s c := not_haltsAt_quoted h fun hb => absurd hb hc
    by_cases hbackslash : c = '\\'
    · subst hbackslash
      cases t with
      | cons d t => exact absurd rfl (htriple d t rfl)
      | nil => exact (judged_lone_backslash h).push hpass
    · exact (ih (h.next_quoted hbackslash) (hunsplit (hinline (by simpa using hc)))).push hpass
  | case6 closers c t hc ih =>
    have hq := isQuote_iff.1 hc
    have hb := isLineBreak_quote hq
    have hy := Spot.next_quote hq closers
    refine (ih (LeadsTo.next h hy) (hunsplit (hinline hb))).push (not_haltsAt_code h hy hb ?_)
    rintro rfl
    cases hc
  | case7 closers c t _ d hd ih =>
    have ho := closer?_eq_some_iff.1 hd
    have hb := isLineBreak_opening ho
    have hy := Spot.next_opening ho closers
    refine (ih (LeadsTo.next h hy) (hunsplit (hinline hb))).push (not_haltsAt_code h hy hb ?_)
    rintro rfl
    cases hd
  | case8 t =>
    refine judged_stopped_code h hs ?_ fun hne => absurd rfl hne
    rintro _ ⟨⟩
    exact .inr (.inl rfl)
  | case9 c t _ _ hcl hne =>
    exact judged_unbalanced ⟨isCloser_iff.1 hcl, [], h, by simp⟩ (fun _ => hne) t
  | case10 t d outer _ _ hcl ih =>
    obtain ⟨o, ho⟩ := isCloser_iff.1 hcl
    have hb := isLineBreak_closing ⟨o, ho⟩
    have hy := Spot.next_closing ho outer
    exact (ih (LeadsTo.next h hy) (hunsplit (hinline hb))).push
      (not_haltsAt_code h hy hb fun _ => List.cons_ne_nil d outer)
  | case11 c t _ _ hcl d outer hne =>
    refine judged_unbalanced ⟨isCloser_iff.1 hcl, d :: outer, h, ?_⟩ (fun hb => ?_) t
    · rintro ⟨⟩
      exact hne rfl
    · cases LeadsTo.unique (x := .code (d :: outer)) (y := .code []) h (.balanced hb)
  | case12 closers c t _ _ _ hc =>
    have hc : isLineBreak c = true ∨ c = ',' ∧ closers = [] := by simpa using hc
    refine judged_stopped_code h hs ?_ fun hne => ?_
    · rintro _ ⟨⟩
      exact hc.elim (fun hb => .inr (.inr hb)) fun hcomma => .inl hcomma.1
    · exact hc.elim (fun hb => afterLine_cons hb t) fun hcomma => absurd hcomma.2 hne
  | case13 closers c t hq ho hcl hc ih =>
    have hc : isLineBreak c = false ∧ (c = ',' → closers ≠ []) := by simpa using hc
    have hy : (Spot.code closers).next c = some (.code closers) := by
      simp [Spot.next, ← isQuote_iff, hq, ho, hcl]
    exact (ih (LeadsTo.next h hy) (hunsplit (hinline hc.1))).push (not_haltsAt_code h hy hc.1 hc.2)

/-- No text leads anywhere over a closing bracket that clashes. -/
theorem Clashes.not_leadsTo (h : Clashes s c) (t : Text) (x : Spot) : ¬LeadsTo (s ++ c :: t) x := by
  obtain ⟨hc, closers, hs, hne⟩ := h
  intro hx
  have hread := read_eq_some_iff.2 hx
  rw [Spot.read_append, Spot.read_opens hs, Option.bind_some, Spot.read,
    Option.bind_eq_some_iff] at hread
  obtain ⟨y, hy, -⟩ := hread
  exact hne (Spot.head?_of_next hy hc)

theorem LeftOpen.not_balanced (h : LeftOpen s) : ¬Balanced s := by
  obtain ⟨x, hx, hne⟩ := h
  exact fun hb => hne (hx.unique (y := .code []) (.balanced hb))

/-- What was read and what was not decide how reading has ended. -/
theorem Verdict.unique {x y : Ending} (h : Verdict s r x) (h' : Verdict s r y) : x = y := by
  have hopen (h : Verdict s r .complete) (h' : Verdict s r .unterminated) : False :=
    h'.1.not_balanced h.1
  have hclash (h : Verdict s r .complete) (h' : Verdict s r .unbalanced) : False := by
    obtain ⟨c, hc, hclash, hbrace⟩ := h'
    rcases h.2 c hc with rfl | rfl | hb
    · exact ne_comma_closing hclash.1 rfl
    · exact hbrace h.1 rfl
    · rw [isLineBreak_closing hclash.1] at hb
      cases hb
  have hline (h : Verdict s r .unterminated) (h' : Verdict s r .unbalanced) : False := by
    obtain ⟨c, hc, hclash, -⟩ := h'
    have hb := h.2 c hc
    rw [isLineBreak_closing hclash.1] at hb
    cases hb
  cases x with
  | complete =>
    cases y with
    | complete => rfl
    | unterminated => exact (hopen h h').elim
    | unbalanced => exact (hclash h h').elim
  | unterminated =>
    cases y with
    | complete => exact (hopen h' h).elim
    | unterminated => rfl
    | unbalanced => exact (hline h h').elim
  | unbalanced =>
    cases y with
    | complete => exact (hclash h' h).elim
    | unterminated => exact (hline h' h).elim
    | unbalanced => rfl

/-- The text is read and `r` is left: reading could go on within the text, and cannot go
on behind it. -/
structure ReadsUpTo (s r : Text) : Prop where
  passes : Passes s
  halts : ∀ c, r.head? = some c → HaltsAt s c

theorem Passes.undivided (h : Passes s) : Undivided s :=
  fun a b hab ha => h a ',' b hab (.comma ha rfl)

theorem Undivided.of_append (h : Undivided (s ++ t)) : Undivided s := by
  rintro a b rfl
  exact h a (b ++ t) (by simp)

/-- A text of one line that leads somewhere is passed, unless a comma divides it. -/
theorem LeadsTo.passes {x : Spot} (h : LeadsTo s x) (hline : OneLine s) (hs : Undivided s) :
    Passes s := by
  rintro a c b rfl (⟨ha, rfl⟩ | hclash | ⟨hb, -⟩)
  · exact hs a b rfl ha
  · exact hclash.not_leadsTo b x h
  · rw [hline c (by simp)] at hb
    cases hb

/-- A balanced text of one line that no comma divides is read up to what ends an expression. -/
theorem Balanced.readsUpTo (h : Balanced s) (hline : OneLine s) (hs : Undivided s)
    (hr : EndsExpression r) : ReadsUpTo s r := by
  have hcode : LeadsTo s (.code []) := .balanced h
  refine ⟨hcode.passes hline hs, fun c hc => ?_⟩
  rcases hr c hc with rfl | rfl | hb
  · exact .comma h rfl
  · exact .closing ⟨isCloser_iff.1 rfl, [], .balanced h, by simp⟩
  · exact .lineEnd hb (not_hidesLineEnd hcode (by simp) (hline.unsplit [c]))

/-- Line ends are passed only where a backslash hides them. -/
theorem Passes.hidesLineEnd (h : Passes s) (a : Text) (c : Char) (b : Text) (hs : s = a ++ c :: b)
    (hc : isLineBreak c = true) : HidesLineEnd a c :=
  by_contra fun hn => h a c b hs (.lineEnd hc hn)

/-- Reading stops no sooner than where a text that is passed ends. -/
theorem ReadsUpTo.eq_nil_of_passes {u : Text} (h : ReadsUpTo s (u ++ t)) (hp : Passes (s ++ u)) :
    u = [] := by
  cases u with
  | nil => rfl
  | cons c u => exact absurd (h.halts c rfl) (hp s c u rfl)

/-- Where reading stops is determined by the text. -/
theorem ReadsUpTo.unique {s' r' : Text} (h : ReadsUpTo s r) (h' : ReadsUpTo s' r')
    (heq : s ++ r = s' ++ r') : s = s' ∧ r = r' := by
  rcases List.append_eq_append_iff.1 heq with ⟨u, rfl, rfl⟩ | ⟨u, rfl, rfl⟩
  · simp [h.eq_nil_of_passes h'.passes]
  · simp [h'.eq_nil_of_passes h.passes]

theorem HidesLineEnd.escapes (h : HidesLineEnd s c) (hline : OneLine s) : Escapes s := by
  rcases h with h | ⟨-, s', rfl, -⟩
  · exact h
  · cases hline '\r' (by simp)

section Line

variable {line below : Text}

/-- What is read and stays on a line that can be passed is the whole line. -/
theorem ReadsUpTo.eq_line (h : ReadsUpTo s r) (hs : OneLine s) (hline : Passes line)
    (hbelow : AfterLine below) (heq : s ++ r = line ++ below) : s = line ∧ r = below := by
  obtain ⟨u, rfl⟩ := Lexer.exists_eq_append_of_isPrefix hs ⟨r, heq⟩ hbelow
  rw [List.append_assoc] at heq
  obtain rfl := List.append_cancel_left heq
  simp [h.eq_nil_of_passes hline]

/-- What is read leaves the line only if the line goes into a quote and hides its end there. -/
theorem ReadsUpTo.leaves_line_iff (h : ReadsUpTo s r) (hline : OneLine line)
    (hbelow : AfterLine below) (heq : s ++ r = line ++ below) :
    ¬OneLine s ↔ below ≠ [] ∧ Undivided line ∧ Escapes line := by
  constructor
  · intro hs
    rcases List.append_eq_append_iff.1 heq with ⟨u, rfl, -⟩ | ⟨u, rfl, rfl⟩
    · exact absurd (fun c hc => hline c (List.mem_append_left u hc)) hs
    · cases u with
      | nil =>
        rw [List.append_nil] at hs
        exact absurd hline hs
      | cons c u =>
        have hhidden := h.passes.hidesLineEnd line c u rfl (hbelow c rfl)
        exact ⟨List.cons_ne_nil c _, h.passes.undivided.of_append, hhidden.escapes hline⟩
  · rintro ⟨hne, hundivided, closers, q, hx⟩ hs
    obtain ⟨rfl, rfl⟩ := h.eq_line hs (hx.passes hline hundivided) hbelow heq
    obtain ⟨c, u, rfl⟩ := List.exists_cons_of_ne_nil hne
    exact not_haltsAt_escaping hx c (h.halts c rfl)

end Line

end Expression

namespace Lexer

open Expression

variable {l : Lexer}

def expressionOf (l : Lexer) (s : Text) (e : Ending) : Except Diagnostic Text :=
  match e.fault? with
  | none => .ok s.trim
  | some f => .error ((l.skip s).fault f)

/-- An expression is read up to the place where it cannot go on, and the verdict on what
was read says what comes of it. -/
theorem exists_readsUpTo (l : Lexer) :
    ∃ s r e, l.rest = s ++ r ∧ Unsplit s r ∧ ReadsUpTo s r ∧ Verdict s r e ∧
      l.readExpression = (l.expressionOf s e, l.skip s) := by
  have hjudged : Judged [] l.rest (Expression.scan [] none l.rest) :=
    judged_scan (.balanced .nil) fun h => by cases h.1
  obtain ⟨hp, r, hr, hh, hv⟩ := hjudged
  obtain ⟨r', hr', hs⟩ := scan_cuts [] none l.rest
  obtain rfl : r' = r := List.append_cancel_left (hr'.symm.trans hr)
  refine ⟨_, r', _, hr, hs, ⟨hp, hh⟩, hv, ?_⟩
  simp only [readExpression, expressionOf]
  cases (Expression.scan [] none l.rest).ending.fault? <;> rfl

/-- A balanced expression on one line is read whole. -/
theorem readExpression_of_balanced {s r : Text} (hrest : l.rest = s ++ r) (hline : OneLine s)
    (hb : Balanced s) (hs : Undivided s) (hr : EndsExpression r) :
    l.readExpression = (.ok s.trim, l.skip s) := by
  obtain ⟨s', r', e, hrest', -, hreads, hv, hread⟩ := l.exists_readsUpTo
  obtain ⟨rfl, rfl⟩ := hreads.unique (hb.readsUpTo hline hs hr) (hrest'.symm.trans hrest)
  obtain rfl := hv.unique (y := .complete) ⟨hb, hr⟩
  exact hread

/-- Reading an expression accepts exactly the balanced texts. What is read goes up to the
first place where an expression cannot go on. It is given back, without the blanks around
it, if it is balanced and no comma divides it. Otherwise it is refused at that place: as
unbalanced before a closing bracket that does not close the innermost open one, and as
unterminated at the end of a line or of the source with a bracket or a quote open.
Conversely, a balanced text of one line that no comma divides is read whole if something
that ends an expression follows it. -/
theorem readExpression_accepts_balanced (l : Lexer) :
    (∃ s r, l.rest = s ++ r ∧ l.readExpression.2 = l.skip s ∧ (l.skip s).rest = r ∧
      (l.skip s).cursor.position = l.cursor.position + s.byteSize ∧ ReadsUpTo s r ∧
      (∀ e, l.readExpression.1 = .ok e ↔
        e = s.trim ∧ Balanced s ∧ Undivided s ∧ EndsExpression r) ∧
      ∀ d, l.readExpression.1 = .error d ↔
        d = (l.skip s).fault .unbalancedBrackets ∧
            (∃ c, r.head? = some c ∧ Clashes s c ∧ (Balanced s → c ≠ '\x7d')) ∨
          d = (l.skip s).fault .unterminatedExpression ∧ LeftOpen s ∧ AfterLine r) ∧
    ∀ s r, l.rest = s ++ r → OneLine s → Balanced s → Undivided s → EndsExpression r →
      l.readExpression = (.ok s.trim, l.skip s) := by
  refine ⟨?_, fun s r hrest hline hb hs hr => readExpression_of_balanced hrest hline hb hs hr⟩
  obtain ⟨s, r, e, hrest, hs, hreads, hv, hread⟩ := l.exists_readsUpTo
  obtain ⟨-, hrest', hposition⟩ := Cursor.skip_exact (c := l.cursor) hrest hs
  refine ⟨s, r, hrest, by rw [hread], hrest', hposition, hreads, fun x => ?_, fun d => ?_⟩
  · rw [hread]
    constructor
    · intro h
      cases e <;> cases h
      exact ⟨rfl, hv.1, hreads.passes.undivided, hv.2⟩
    · rintro ⟨rfl, hb, -, hr⟩
      rw [hv.unique (y := .complete) ⟨hb, hr⟩]
      rfl
  · rw [hread]
    constructor
    · intro h
      cases e <;> cases h
      · exact .inr ⟨rfl, hv⟩
      · exact .inl ⟨rfl, hv⟩
    · rintro (⟨rfl, h⟩ | ⟨rfl, h⟩)
      · rw [hv.unique (y := .unbalanced) h]
        rfl
      · rw [hv.unique (y := .unterminated) h]
        rfl

/-- A call with a quoted brace, brackets and a quote that hides one of its own, before
another entry. -/
theorem readExpression_accepts_balanced_call :
    let s : Text := "f('\x7d', [b + \"\\\"\"]) "
    let l := (ofText (s ++ ", c: 1\x7d".toList)).inMode .hash
    (OneLine s ∧ Balanced s ∧ Undivided s) ∧
      l.readExpression = (.ok "f('\x7d', [b + \"\\\"\"])".toList, l.skip s) := by
  intro s l
  have hs : OneLine s ∧ Balanced s ∧ Undivided s := by decide +kernel
  have hends : EndsExpression ", c: 1\x7d".toList := by
    rintro _ ⟨⟩
    exact .inl rfl
  have htrim : s.trim = "f('\x7d', [b + \"\\\"\"])".toList := by decide +kernel
  rw [← htrim]
  exact ⟨hs, (readExpression_accepts_balanced l).2 s _ rfl hs.1 hs.2.1 hs.2.2 hends⟩

/-- Reading an expression passes only those line ends that a backslash in a quote hides.
So it leaves its line if there is a line below, no comma divides the line, and the line
ends in a quote with a backslash, and in no other case. Otherwise what is read is of the
line, and the number of the line stays the same; a line that leaves a bracket or a quote
open is read whole then, and refused where it ends. -/
theorem readExpression_leaves_line_iff (l : Lexer) :
    ∃ s r, l.rest = s ++ r ∧ l.readExpression.2 = l.skip s ∧ (l.skip s).rest = r ∧
      (∀ a c b, s = a ++ c :: b → isLineBreak c = true → HidesLineEnd a c) ∧
      ∀ line below, l.rest = line ++ below → OneLine line → AfterLine below →
        (¬OneLine s ↔ below ≠ [] ∧ Undivided line ∧ Escapes line) ∧
        (OneLine s → (∃ u, line = s ++ u) ∧ l.readExpression.2.cursor.line = l.cursor.line) ∧
        (Undivided line → LeftOpen line → (below ≠ [] → ¬Escapes line) →
          s = line ∧
            l.readExpression.1 = .error ((l.skip line).fault .unterminatedExpression)) := by
  obtain ⟨s, r, e, hrest, hs, hreads, hv, hread⟩ := l.exists_readsUpTo
  have hbehind := (Cursor.skip_exact (c := l.cursor) hrest hs).2.1
  refine ⟨s, r, hrest, by rw [hread], hbehind, hreads.passes.hidesLineEnd, ?_⟩
  intro line below hsplit hline hbelow
  have heq : s ++ r = line ++ below := hrest.symm.trans hsplit
  have hleaves := hreads.leaves_line_iff hline hbelow heq
  refine ⟨hleaves, fun h => ⟨exists_eq_append_of_isPrefix h ⟨r, heq⟩ hbelow, ?_⟩, ?_⟩
  · rw [hread]
    exact (Cursor.skip_oneLine h hrest).2
  · intro hundivided hopen hshown
    obtain ⟨x, hx, hne⟩ := hopen
    have hstays : OneLine s := by
      by_contra h
      obtain ⟨hne, -, hescapes⟩ := hleaves.1 h
      exact hshown hne hescapes
    obtain ⟨rfl, rfl⟩ := hreads.eq_line hstays (hx.passes hline hundivided) hbelow heq
    rw [hread, hv.unique (y := .unterminated) ⟨⟨x, hx, hne⟩, hbelow⟩]
    exact ⟨rfl, rfl⟩

/-- A quote in a bracket that the line leaves open, although the next line closes both. -/
theorem readExpression_leaves_line_iff_in_quote :
    let line : Text := "[\"a', (b"
    let l := (ofText (line ++ "\n\"]\x7d".toList)).inMode .hash
    (Undivided line ∧ LeftOpen line ∧ ¬Escapes line) ∧
      l.readExpression = (.error ((l.skip line).fault .unterminatedExpression), l.skip line) ∧
      l.readExpression.2.cursor.line = 1 := by
  intro line l
  have hundivided : Undivided line := by decide +kernel
  have hline : OneLine line := by decide +kernel
  have hquote : LeadsTo line (.quoted [']'] '"') := read_eq_some_iff.1 (by decide +kernel)
  have hshown : ¬Escapes line := by
    rintro ⟨closers, q, h⟩
    cases hquote.unique h
  have hopen : LeftOpen line := ⟨_, hquote, by simp⟩
  obtain ⟨s, r, -, hskip, -, -, h⟩ := readExpression_leaves_line_iff l
  obtain ⟨-, hstays, hwhole⟩ := h line _ rfl hline (afterLine_lineFeed _)
  obtain ⟨rfl, herror⟩ := hwhole hundivided hopen fun _ => hshown
  exact ⟨⟨hundivided, hopen, hshown⟩, Prod.ext herror hskip, (hstays hline).2⟩

/-- A backslash right before the line end takes the reading of a quote to the next line. -/
theorem readExpression_over_hidden_line_end :
    let source : Text := "\"\\\n\""
    let l := (ofText source).inMode .hash
    ¬OneLine source ∧ l.rest = source ∧ l.readExpression = (.ok source, l.skip source) ∧
      l.cursor.line = 1 ∧ l.readExpression.2.cursor.line = 2 := by decide +kernel

end Lexer

end Haml
