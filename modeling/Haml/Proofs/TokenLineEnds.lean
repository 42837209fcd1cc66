import Haml.Proofs.Locality

/-!
# Line ends in tokens

A line end is a token of its own, or the end of a bar that continues a line. No other token
goes over the end of a line, with one exception: a quoted value of an attribute list is closed
by the next quote before a line feed, and a carriage return may stand between the two.
-/

namespace Haml

def lineEnds : List Text := [['\n'], ['\r'], ['\r', '\n']]

theorem mem_lineEnds {t e : Text} (h : Pattern.lineEnd t = some e) : e ∈ lineEnds := by
  unfold Pattern.lineEnd at h
  split at h <;> cases h <;> decide

namespace Lexeme

variable {mode : Mode} {t : Text} {x : Lexeme}

/-- Of the tokens that do not break a line only quoted values can have line ends in them. -/
theorem oneLine_of_read? (h : read? mode t = some x) (hk : x.kind.breaksLine = false)
    (hq : x.kind ≠ .quoted) : OneLine x.matched := by
  cases t with
  | nil => cases h
  | cons c t =>
    rcases read?_cases h with ⟨r, hr, hx⟩ | ⟨hc, rfl⟩
    · obtain ⟨m, hm, rfl⟩ := Option.map_eq_some_iff.1 hx
      exact (inline_of_unquoted hr hk hq).oneLine _ m hm
    · intro a ha
      rw [List.mem_singleton.1 ha]
      exact hc

/-- A quoted value stands in an attribute list, between two equal quotes. Between them is
neither that quote nor a line feed. -/
theorem value_of_read? (h : read? mode t = some x) (hk : x.kind = .quoted) :
    mode = .list ∧ ∃ q value more, (q = '\'' ∨ q = '"') ∧ x.matched = q :: (value ++ [q]) ∧
      t = q :: (value ++ q :: more) ∧ q ∉ value ∧ '\n' ∉ value := by
  cases t with
  | nil => cases h
  | cons c t =>
    rcases read?_cases h with ⟨r, hr, hx⟩ | ⟨-, rfl⟩
    · obtain ⟨m, hm, rfl⟩ := Option.map_eq_some_iff.1 hx
      obtain ⟨hlist, q, hq, hpattern⟩ := quotedRule_of_mem hr hk
      rw [hpattern] at hm
      obtain ⟨value, more, rfl, ht, hvalue⟩ := quotedBy_eq_some.1 hm
      refine ⟨hlist, q, value, more, hq, rfl, by simpa using ht, fun hmem => ?_, fun hmem => ?_⟩
      · simpa using hvalue q hmem
      · simpa using hvalue '\n' hmem
    · simp only [signKind] at hk
      split at hk <;> cases hk

/-- A quote that is closed before a line feed is a quoted value, whatever else is in it. -/
theorem read?_of_value {q : Char} {value : Text} (hq : q = '\'' ∨ q = '"')
    (hclosed : q ∉ value) (hline : '\n' ∉ value) (more : Text) :
    ∃ y, read? .list (q :: (value ++ q :: more)) = some y ∧ y.kind = .quoted ∧
      y.matched = q :: (value ++ [q]) := by
  refine read?_closedQuote hq (quotedBy_eq_some.2 ⟨value, more, rfl, by simp, ?_⟩)
  intro c hc
  rw [Bool.and_eq_true, bne_iff_ne, bne_iff_ne]
  exact ⟨fun h => hclosed (h ▸ hc), fun h => hline (h ▸ hc)⟩

end Lexeme

theorem not_oneLine_iff {t : Text} : ¬OneLine t ↔ '\n' ∈ t ∨ '\r' ∈ t := by
  simp only [OneLine, not_forall, isLineBreak]
  constructor
  · rintro ⟨c, hc, hb⟩
    have hbreak : c = '\n' ∨ c = '\r' := by simpa [or_iff_not_imp_left] using hb
    rcases hbreak with rfl | rfl
    · exact .inl hc
    · exact .inr hc
  · rintro (h | h)
    · exact ⟨_, h, by decide⟩
    · exact ⟨_, h, by decide⟩

/-- A quoted value goes over a line end exactly if a carriage return is in it. -/
theorem not_oneLine_quoted {q : Char} {value : Text} (hq : q = '\'' ∨ q = '"')
    (hline : '\n' ∉ value) : ¬OneLine (q :: (value ++ [q])) ↔ '\r' ∈ value := by
  rw [not_oneLine_iff]
  rcases hq with rfl | rfl <;> simp [hline]

namespace Lexer

/-- In whatever mode and at whatever place a token is scanned: a line end is one carriage
return, one line feed, or both; a continuation is a bar, blanks and one line end; and no other
token has a line end in it but a quoted value, which may have carriage returns. It has one
exactly if, in an attribute list, one stands between a quote and the next such quote, and no
line feed does. -/
theorem line_ends_in_tokens (mode : Mode) (c : Cursor) :
    let token := (scan mode c).1
    (token.kind = .lineEnd → token.matched ∈ lineEnds) ∧
    (token.kind = .continuation → ∃ blanks, ∃ e ∈ lineEnds,
      token.matched = '|' :: (blanks ++ e) ∧ ∀ b ∈ blanks, isIndent b = true) ∧
    (token.kind ≠ .lineEnd → token.kind ≠ .continuation → token.kind ≠ .quoted →
      OneLine token.matched) ∧
    (token.kind = .quoted → ∃ q value, (q = '\'' ∨ q = '"') ∧
      token.matched = q :: (value ++ [q]) ∧ q ∉ value ∧ '\n' ∉ value) ∧
    (token.kind = .quoted ∧ ¬OneLine token.matched ↔
      mode = .list ∧ ∃ q value more, (q = '\'' ∨ q = '"') ∧ c.rest = q :: (value ++ q :: more) ∧
        q ∉ value ∧ '\n' ∉ value ∧ '\r' ∈ value) := by
  intro token
  cases hx : Lexeme.read? mode c.rest with
  | none =>
    have hrest := Lexeme.read?_eq_none.1 hx
    have htoken : token = ⟨.eof, [], [], _⟩ := congrArg Prod.fst (scan_of_nil hrest mode)
    rw [htoken, hrest]
    simp [OneLine]
  | some x =>
    have hkind : token.kind = x.kind := by simp only [token, scan, hx]
    have hmatched : token.matched = x.matched := by simp only [token, scan, hx]
    rw [hkind, hmatched]
    refine ⟨fun hk => mem_lineEnds (Lexeme.lineEnd_of_read? hx hk), fun hk => ?_,
      fun hl hc hq => ?_, fun hk => ?_, ?_⟩
    · obtain ⟨blanks, e, hm, hblanks, he⟩ := Lexeme.bar_of_continuation hx hk
      exact ⟨blanks, e, mem_lineEnds he, hm, hblanks⟩
    · refine Lexeme.oneLine_of_read? hx ?_ hq
      cases hk : x.kind <;> simp_all [Token.Kind.breaksLine]
    · obtain ⟨-, q, value, more, hq, hm, -, hclosed, hline⟩ := Lexeme.value_of_read? hx hk
      exact ⟨q, value, hq, hm, hclosed, hline⟩
    · constructor
      · rintro ⟨hk, hbreak⟩
        obtain ⟨hlist, q, value, more, hq, hm, ht, hclosed, hline⟩ := Lexeme.value_of_read? hx hk
        rw [hm, not_oneLine_quoted hq hline] at hbreak
        exact ⟨hlist, q, value, more, hq, ht, hclosed, hline, hbreak⟩
      · rintro ⟨rfl, q, value, more, hq, ht, hclosed, hline, hbreak⟩
        obtain ⟨y, hy, hk, hm⟩ := Lexeme.read?_of_value hq hclosed hline more
        rw [ht, hy] at hx
        cases hx
        rw [hm, not_oneLine_quoted hq hline]
        exact ⟨hk, hbreak⟩

/-- A quoted value that is closed on the next line is one token. -/
theorem quoted_over_line_end :
    let token := (scan .list (Cursor.ofText "'a\rb'")).1
    token.kind = .quoted ∧ token.matched = "'a\rb'" ∧ ¬OneLine token.matched := by
  decide

end Lexer

end Haml
