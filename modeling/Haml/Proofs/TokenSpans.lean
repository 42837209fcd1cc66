import Haml.Proofs.CursorPlace
import Haml.Proofs.LineTokens
import Mathlib.Data.Nat.Find

/-!
# Tokens cover the source

Whatever the modes in which tokens are read, each token is the text between its
two offsets, the next one starts where it ends, and all of them together are the
source. Every pattern cuts the text off that it matches, and none of them cuts a
line end in two.
-/

namespace Haml

namespace Pattern

/-- What the pattern matches stands at the start of the text. -/
def Leading (p : Pattern) : Prop := ∀ t m, p t = some m → ∃ r, t = m ++ r

/-- The pattern matches a beginning of the text, and never half a line end. -/
def Cuts (p : Pattern) : Prop := ∀ t m, p t = some m → CutOff m t

theorem Cuts.leading {p : Pattern} (h : Cuts p) : Leading p := by
  intro t m hm
  obtain ⟨r, ht, -⟩ := h t m hm
  exact ⟨r, ht⟩

theorem leading_many (p : Char → Bool) : Leading (many p) := by
  intro t m hm
  cases hm
  exact ⟨t.dropWhile p, List.takeWhile_append_dropWhile.symm⟩

theorem cuts_exactly {lead : Text} (h : lead.getLast? ≠ some '\r') : Cuts (exactly lead) := by
  intro t m hm
  simp only [exactly] at hm
  split at hm
  · rename_i hp
    cases hm
    obtain ⟨r, rfl⟩ := List.isPrefixOf_iff_prefix.1 hp
    exact ⟨r, rfl, unsplit_of_getLast? h r⟩
  · cases hm

theorem cuts_headed {p q : Char → Bool} (hp : p '\r' = false) (hq : q '\r' = false) :
    Cuts (headed p q) := by
  intro t m hm
  cases t with
  | nil => cases hm
  | cons c t =>
    simp only [headed] at hm
    split at hm
    · rename_i hc
      cases hm
      refine ⟨t.dropWhile q, by simp, unsplit_of_getLast? ?_ _⟩
      intro hl
      rcases List.mem_cons.1 (List.mem_of_getLast? hl) with heq | hmem
      · rw [← heq, hp] at hc
        cases hc
      · have hr := List.mem_takeWhile_imp hmem
        rw [hq] at hr
        cases hr
    · cases hm

theorem cuts_lineEnd : Cuts lineEnd := by
  intro t m hm
  unfold lineEnd at hm
  split at hm
  · rename_i r
    cases hm
    exact ⟨r, rfl, unsplit_of_getLast? (by decide) r⟩
  · rename_i r
    cases hm
    exact ⟨r, rfl, unsplit_of_getLast? (by decide) r⟩
  · rename_i r hr
    cases hm
    refine ⟨r, rfl, ?_⟩
    rintro ⟨-, hn⟩
    obtain ⟨u, rfl⟩ := List.head?_eq_some_iff.1 hn
    exact hr u rfl
  · cases hm

theorem andThen_eq_some {p q : Pattern} {t m : Text} (h : andThen p q t = some m) :
    ∃ a b, m = a ++ b ∧ p t = some a ∧ q (t.drop a.length) = some b := by
  simp only [andThen] at h
  split at h
  · cases h
  · rename_i a ha
    obtain ⟨b, hb, rfl⟩ := Option.map_eq_some_iff.1 h
    exact ⟨a, b, rfl, ha, hb⟩

/-- Where the second pattern ends, the whole does. -/
theorem cuts_andThen {p q : Pattern} (hp : Leading p) (hq : Cuts q) (hne : Proper q) :
    Cuts (andThen p q) := by
  intro t m hm
  obtain ⟨a, b, rfl, ha, hb⟩ := andThen_eq_some hm
  obtain ⟨u, rfl⟩ := hp t a ha
  rw [List.drop_left] at hb
  obtain ⟨r, rfl, hs⟩ := hq u b hb
  refine ⟨r, (List.append_assoc a b r).symm, ?_⟩
  rintro ⟨hl, hr⟩
  rw [List.getLast?_append_of_ne_nil _ (hne _ b hb)] at hl
  exact hs ⟨hl, hr⟩

end Pattern

namespace Lexeme

open Pattern

theorem cuts_signed {sign : Text} (hs : sign.getLast? ≠ some '\r') {p : Pattern} (hp : Cuts p)
    (hne : Proper p) : Cuts (signed sign p) :=
  cuts_andThen (cuts_exactly hs).leading hp hne

theorem cuts_quotedBy {q : Char} (h : q ≠ '\r') : Cuts (quotedBy q) := by
  have hq : Cuts (exactly [q]) := cuts_exactly (by simpa using h)
  have hne : Proper (exactly [q]) := exactly_proper (List.cons_ne_nil _ _)
  refine cuts_signed (by simpa using h) (cuts_andThen (leading_many _) hq hne) ?_
  intro t m hm
  obtain ⟨a, b, rfl, -, hb⟩ := andThen_eq_some hm
  exact List.append_ne_nil_of_right_ne_nil a (hne _ b hb)

/-- No rule of any mode cuts a line end in two. -/
theorem cuts_of_mem_rules {mode : Mode} {r : Rule} (h : r ∈ rules mode) : Cuts r.pattern := by
  have hword {p q : Char → Bool} (hp : p '\r' = false) (hq : q '\r' = false) (sign : Text)
      (hs : sign.getLast? ≠ some '\r') : Cuts (signed sign (headed p q)) :=
    cuts_signed hs (cuts_headed hp hq) (headed_proper p q)
  rcases List.mem_append.1 h with h | h
  · simp only [commonRules, List.mem_cons, List.not_mem_nil, or_false] at h
    rcases h with rfl | rfl
    · exact cuts_lineEnd
    · exact cuts_headed rfl rfl
  · cases mode with
    | line =>
      simp only [lineRules, List.mem_cons, List.not_mem_nil, or_false] at h
      rcases h with rfl | rfl | rfl | rfl | rfl | rfl | rfl | rfl | rfl | rfl
      · refine cuts_signed (by decide)
          (cuts_andThen (leading_many _) cuts_lineEnd lineEnd_proper) ?_
        intro t m hm
        obtain ⟨a, b, rfl, -, hb⟩ := andThen_eq_some hm
        exact List.append_ne_nil_of_right_ne_nil a (lineEnd_proper _ b hb)
      · exact hword rfl rfl _ (by decide)
      · exact hword rfl rfl _ (by decide)
      · exact hword rfl rfl _ (by decide)
      · exact cuts_exactly (by decide)
      · exact cuts_exactly (by decide)
      · exact cuts_exactly (by decide)
      · exact cuts_signed (by decide)
          (cuts_andThen (cuts_headed rfl rfl).leading (cuts_exactly (by decide))
            (exactly_proper (by decide)))
          (andThen_proper (headed_proper _ _) _)
      · exact cuts_exactly (by decide)
      · exact hword rfl rfl _ (by decide)
    | list =>
      simp only [listRules, List.mem_cons, List.not_mem_nil, or_false] at h
      rcases h with rfl | rfl | rfl
      · exact cuts_headed rfl rfl
      · exact cuts_quotedBy (by decide)
      · exact cuts_quotedBy (by decide)
    | hash =>
      simp only [hashRules, List.mem_cons, List.not_mem_nil, or_false] at h
      subst h
      exact cuts_headed rfl rfl

/-- A lexeme stands at the start of its text and ends where a character, or a
whole line end, does. -/
theorem read?_cuts {mode : Mode} {t : Text} {x : Lexeme} (h : read? mode t = some x) :
    CutOff x.matched t := by
  cases t with
  | nil => cases h
  | cons c t =>
    rcases read?_cases h with ⟨r, hr, hx⟩ | ⟨hc, rfl⟩
    · obtain ⟨m, hm, rfl⟩ := Option.map_eq_some_iff.1 hx
      exact cuts_of_mem_rules hr _ m hm
    · refine ⟨t, rfl, unsplit_of_getLast? ?_ t⟩
      intro hl
      obtain rfl : c = '\r' := by simpa using hl
      cases hc

theorem signKind_ne {c : Char} : signKind c ≠ .eof ∧ signKind c ≠ .space := by
  simp only [signKind]
  split <;> exact ⟨by decide, by decide⟩

/-- What is read is never the end of the source. -/
theorem kind_ne_eof {mode : Mode} {t : Text} {x : Lexeme} (h : read? mode t = some x) :
    x.kind ≠ .eof := by
  cases t with
  | nil => cases h
  | cons c t =>
    rcases read?_cases h with ⟨r, hr, hx⟩ | ⟨-, rfl⟩
    · obtain ⟨m, -, rfl⟩ := Option.map_eq_some_iff.1 hx
      revert r
      cases mode <;> simp [rules, commonRules, lineRules, listRules, hashRules]
    · exact signKind_ne.1

theorem eq_spaceRule {mode : Mode} {r : Rule} (h : r ∈ rules mode) (hk : r.kind = .space) :
    r = { kind := .space, pattern := many1 isIndent } := by
  revert r
  cases mode <;> simp [rules, commonRules, lineRules, listRules, hashRules]

/-- A run of spaces and tabs is read as far as it goes. -/
theorem read?_space_cases {mode : Mode} {t : Text} {x : Lexeme} (h : read? mode t = some x)
    (hk : x.kind = .space) :
    (∃ c u, t = c :: u ∧ isIndent c = true) ∧
      ∀ c u, t = x.matched ++ c :: u → isIndent c = false := by
  cases t with
  | nil => cases h
  | cons c t =>
    rcases read?_cases h with ⟨r, hr, hx⟩ | ⟨-, rfl⟩
    · obtain ⟨m, hm, rfl⟩ := Option.map_eq_some_iff.1 hx
      rw [eq_spaceRule hr hk] at hm
      simp only [many1, headed] at hm
      split at hm
      · rename_i hc
        cases hm
        refine ⟨⟨c, t, rfl, hc⟩, ?_⟩
        intro a u hu
        have ht : t = t.takeWhile isIndent ++ a :: u := (List.cons.inj hu).2
        have hdrop : t.dropWhile isIndent = a :: u :=
          List.append_cancel_left (List.takeWhile_append_dropWhile.trans ht)
        have ha := List.head?_dropWhile_not isIndent t
        rw [hdrop] at ha
        simpa using ha
      · cases hm
    · exact absurd hk signKind_ne.2

end Lexeme

namespace Lexer

/-- At the end of a source the end is read, again and again. -/
theorem scan_of_nil {c : Cursor} (h : c.rest = []) (mode : Mode) :
    scan mode c = (⟨.eof, [], [], ⟨c.position, c.position, c.line, c.column + 1⟩⟩, c) := by
  rw [scan, h]
  rfl

theorem rest_skip {l : Lexer} {t r : Text} (h : l.rest = t ++ r) (hs : Unsplit t r) :
    (l.skip t).rest = r := (Cursor.skip_exact h hs).2.1

/-- The next token is the lexeme that is read, and what follows it is left. -/
theorem next_of_read? {l : Lexer} {x : Lexeme} (h : Lexeme.read? l.mode l.rest = some x) :
    ∃ r, l.rest = x.matched ++ r ∧ l.next.rest = r ∧ l.next.kind = x.kind ∧
      l.next.token.matched = x.matched ∧ l.next.token.text = x.text := by
  obtain ⟨r, hr, hs⟩ := Lexeme.read?_cuts h
  have hx : Lexeme.read? l.mode l.cursor.rest = some x := h
  refine ⟨r, hr, ?_, ?_⟩
  · simp only [next, rest, scan, hx]
    exact (Cursor.skip_exact hr hs).2.1
  · simp [next, kind, scan, hx]

/-- The lexer before its `n`-th move, if the moves are made in the given modes. -/
def tour (source : Text) (modes : Nat → Mode) : Nat → Lexer
  | 0 => ofText source
  | n + 1 => ((tour source modes n).inMode (modes n)).next

def tourToken (source : Text) (modes : Nat → Mode) (n : Nat) : Token :=
  (tour source modes (n + 1)).token

def tourTexts (source : Text) (modes : Nat → Mode) (n : Nat) : List Text :=
  (List.range n).map fun i => (tourToken source modes i).matched

variable (source : Text) (modes : Nat → Mode)

theorem tourTexts_succ (n : Nat) :
    (tourTexts source modes (n + 1)).flatten =
      (tourTexts source modes n).flatten ++ (tourToken source modes n).matched := by
  rw [tourTexts, List.range_succ, List.map_append, List.flatten_append]
  simp [tourTexts]

/-- What one move of a tour does: there is nothing left, or a lexeme is cut off. -/
theorem tour_move (n : Nat) :
    ((tour source modes n).rest = [] ∧ (tourToken source modes n).kind = .eof ∧
        (tourToken source modes n).matched = [] ∧
        (tour source modes (n + 1)).cursor = (tour source modes n).cursor) ∨
      ∃ x, Lexeme.read? (modes n) (tour source modes n).rest = some x ∧
        (tourToken source modes n).kind = x.kind ∧
        (tourToken source modes n).matched = x.matched ∧
        (tour source modes (n + 1)).cursor = (tour source modes n).cursor.skip x.matched := by
  cases hx : Lexeme.read? (modes n) (tour source modes n).rest with
  | none =>
    have hnil := Lexeme.read?_eq_none.1 hx
    have hscan := scan_of_nil hnil (modes n)
    refine .inl ⟨hnil, ?_, ?_, ?_⟩
    · exact congrArg (·.1.kind) hscan
    · exact congrArg (·.1.matched) hscan
    · exact congrArg (·.2) hscan
  | some x =>
    have hscan : scan (modes n) (tour source modes n).cursor =
        (⟨x.kind, x.matched, x.text, ⟨(tour source modes n).cursor.position,
          (tour source modes n).cursor.position + x.matched.byteSize,
          (tour source modes n).cursor.line, (tour source modes n).cursor.column + 1⟩⟩,
        (tour source modes n).cursor.skip x.matched) := by
      have hx' : Lexeme.read? (modes n) (tour source modes n).cursor.rest = some x := hx
      rw [scan, hx']
    refine .inr ⟨x, rfl, ?_, ?_, ?_⟩
    · exact congrArg (·.1.kind) hscan
    · exact congrArg (·.1.matched) hscan
    · exact congrArg (·.2) hscan

/-- A token starts where the cursor was, and spans its text. -/
theorem span_tourToken (n : Nat) :
    (tourToken source modes n).span.start = (tour source modes n).cursor.position ∧
      (tourToken source modes n).span.stop = (tour source modes n).cursor.position +
        (tourToken source modes n).matched.byteSize := by
  simp only [tourToken, tour, next, inMode, scan]
  split <;> exact ⟨rfl, rfl⟩

/-- After any number of moves the lexer stands behind the tokens read so far. -/
theorem tour_behind (n : Nat) :
    (tour source modes n).cursor.Behind (tourTexts source modes n).flatten ∧
      (tour source modes n).cursor.source = source := by
  induction n with
  | zero => exact ⟨Cursor.behind_ofText source, rfl⟩
  | succ n ih =>
    obtain ⟨hbehind, hsource⟩ := ih
    rw [tourTexts_succ]
    rcases tour_move source modes n with ⟨-, -, hm, hc⟩ | ⟨x, hx, -, hm, hc⟩
    · rw [hm, List.append_nil, hc]
      exact ⟨hbehind, hsource⟩
    · obtain ⟨r, hr, hs⟩ := Lexeme.read?_cuts hx
      rw [hm, hc]
      exact ⟨hbehind.skip hr hs, (Cursor.skip_exact hr hs).1.trans hsource⟩

theorem source_eq (n : Nat) :
    source = (tourTexts source modes n).flatten ++ (tour source modes n).rest := by
  obtain ⟨hbehind, hsource⟩ := tour_behind source modes n
  have h := hbehind.source
  rw [hsource] at h
  exact h

theorem kind_tourToken_eq_eof_iff (n : Nat) :
    (tourToken source modes n).kind = .eof ↔ (tour source modes n).rest = [] := by
  rcases tour_move source modes n with ⟨hr, hk, -⟩ | ⟨x, hx, hk, -⟩
  · exact ⟨fun _ => hr, fun _ => hk⟩
  · rw [hk]
    constructor
    · exact fun h => absurd h (Lexeme.kind_ne_eof hx)
    · intro h
      rw [h] at hx
      cases hx

/-- The end of the source is met, at the latest after as many moves as the source
has characters. -/
theorem exists_tour_end : ∃ n, (tour source modes n).rest = [] := by
  have hshrink : ∀ n, (tour source modes n).rest.length ≤ source.length - n := by
    intro n
    induction n with
    | zero => exact Nat.le_refl _
    | succ n ih =>
      have hle : (tour source modes (n + 1)).rest.length ≤ (tour source modes n).rest.length :=
        rest_length_next_le ((tour source modes n).inMode (modes n))
      by_cases hr : (tour source modes n).rest = []
      · rw [hr, List.length_nil] at hle
        omega
      · have hlt : (tour source modes (n + 1)).rest.length < (tour source modes n).rest.length :=
          rest_length_next_lt (l := (tour source modes n).inMode (modes n)) hr
        omega
  exact ⟨source.length, List.length_eq_zero_iff.1 (by have := hshrink source.length; omega)⟩

theorem tour_end_stays {n m : Nat} (h : (tour source modes n).rest = []) (hm : n ≤ m) :
    (tour source modes m).rest = [] := by
  induction hm with
  | refl => exact h
  | @step m _ ih =>
    have hle : (tour source modes (m + 1)).rest.length ≤ (tour source modes m).rest.length :=
      rest_length_next_le ((tour source modes m).inMode (modes m))
    rw [ih] at hle
    exact List.length_eq_zero_iff.1 (Nat.le_zero.1 hle)

/-- Spaces and tabs in a row are one token. -/
theorem kind_after_space {n : Nat} (h : (tourToken source modes n).kind = .space) :
    (tourToken source modes (n + 1)).kind ≠ .space := by
  intro h'
  rcases tour_move source modes n with ⟨-, hk, -⟩ | ⟨x, hx, hk, -, hc⟩
  · rw [hk] at h
    cases h
  rcases tour_move source modes (n + 1) with ⟨-, hk', -⟩ | ⟨y, hy, hk', -⟩
  · rw [hk'] at h'
    cases h'
  obtain ⟨r, hr, hs⟩ := Lexeme.read?_cuts hx
  have hrest : (tour source modes (n + 1)).rest = r := by
    rw [rest, hc]
    exact (Cursor.skip_exact hr hs).2.1
  obtain ⟨⟨c, u, hcu, hi⟩, -⟩ := Lexeme.read?_space_cases hy (hk'.symm.trans h')
  have hno := (Lexeme.read?_space_cases hx (hk.symm.trans h)).2 c u
  rw [hrest] at hcu
  rw [hno (hcu ▸ hr)] at hi
  cases hi

/-- The lexer loses and invents nothing: whatever the modes of its moves, its
tokens are the source, cut into pieces. -/
theorem tokens_partition_source :
    (∀ i, (tourToken source modes i).matched =
      source.slice (tourToken source modes i).span.start (tourToken source modes i).span.stop) ∧
    (tourToken source modes 0).span.start = 0 ∧
    (∀ i, (tourToken source modes (i + 1)).span.start = (tourToken source modes i).span.stop) ∧
    (∀ i, (tourToken source modes i).kind ≠ .eof → (tourToken source modes i).matched ≠ []) ∧
    (∀ i, (tourToken source modes i).kind = .eof ↔
      (tour source modes i).cursor.position = source.byteSize) ∧
    (∀ i j, (tourToken source modes i).kind = .eof → i ≤ j →
      (tourToken source modes j).kind = .eof ∧
      (tourToken source modes j).span.start = source.byteSize ∧
      (tourToken source modes j).span.stop = source.byteSize) ∧
    (∀ i, (tourToken source modes i).kind = .space →
      (tourToken source modes (i + 1)).kind ≠ .space) ∧
    ∃ n, (tourToken source modes n).kind = .eof ∧
      (∀ i < n, (tourToken source modes i).kind ≠ .eof) ∧
      (tourTexts source modes n).flatten = source := by
  have hend (i : Nat) : (tourToken source modes i).kind = .eof ↔
      (tour source modes i).cursor.position = source.byteSize := by
    obtain ⟨hbehind, hsource⟩ := tour_behind source modes i
    have hnil := hbehind.rest_eq_nil_iff
    rw [hsource] at hnil
    exact (kind_tourToken_eq_eof_iff source modes i).trans hnil
  refine ⟨fun i => ?_, (span_tourToken source modes 0).1, fun i => ?_, fun i hk => ?_, hend,
    fun i j hi hij => ?_, fun i => kind_after_space source modes, ?_⟩
  · obtain ⟨hstart, hstop⟩ := span_tourToken source modes i
    have hcut := source_eq source modes (i + 1)
    rw [tourTexts_succ, List.append_assoc] at hcut
    have hslice := Text.slice_append (tourTexts source modes i).flatten
      (tourToken source modes i).matched (tour source modes (i + 1)).rest
    rw [← hcut, ← (tour_behind source modes i).1.position, ← hstop, ← hstart] at hslice
    exact hslice.symm
  · rw [(span_tourToken source modes (i + 1)).1, (tour_behind source modes (i + 1)).1.position,
      tourTexts_succ, Text.byteSize_append, ← (tour_behind source modes i).1.position]
    exact (span_tourToken source modes i).2.symm
  · rcases tour_move source modes i with ⟨-, hk', -⟩ | ⟨x, hx, -, hm, -⟩
    · exact absurd hk' hk
    · rw [hm]
      exact Lexeme.matched_ne_nil hx
  · have hrest := (kind_tourToken_eq_eof_iff source modes i).1 hi
    have hj := (kind_tourToken_eq_eof_iff source modes j).2
      (tour_end_stays source modes hrest hij)
    obtain ⟨hstart, hstop⟩ := span_tourToken source modes j
    rw [(hend j).1 hj] at hstart hstop
    refine ⟨hj, hstart, ?_⟩
    rcases tour_move source modes j with ⟨-, -, hm, -⟩ | ⟨x, hx, hk, -⟩
    · rw [hstop, hm]
      rfl
    · exact absurd (hk.symm.trans hj) (Lexeme.kind_ne_eof hx)
  · have hex : ∃ n, (tourToken source modes n).kind = .eof := by
      obtain ⟨n, hn⟩ := exists_tour_end source modes
      exact ⟨n, (kind_tourToken_eq_eof_iff source modes n).2 hn⟩
    refine ⟨Nat.find hex, Nat.find_spec hex, fun i hi => Nat.find_min hex hi, ?_⟩
    have hrest := (kind_tourToken_eq_eof_iff source modes _).1 (Nat.find_spec hex)
    have hcut := source_eq source modes (Nat.find hex)
    rw [hrest, List.append_nil] at hcut
    exact hcut.symm

end Lexer

end Haml
