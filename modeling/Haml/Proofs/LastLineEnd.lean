import Haml.Proofs.Abreast
import Haml.Proofs.LineStarts

/-!
# Texts with and without their last line end

A line feed behind a text whose last line is not ended is a token of its own and changes
no other. A lexer of the text and one of the text with the line feed go along side by
side: the second is on the line feed when the first is at its end, and then at its end
too.
-/

namespace Haml

/-- A text whose last line has no end, and would not be continued if it had one. -/
structure Unended (t : Text) : Prop where
  ends : ∃ c, t.getLast? = some c ∧ isLineBreak c = false
  unbarred : ¬EndsBarred (t ++ ['\n'])

namespace Unended

variable {t : Text}

theorem ne_nil (h : Unended t) : t ≠ [] := by
  rintro rfl
  obtain ⟨c, hc, -⟩ := h.ends
  cases hc

theorem right {m r : Text} (h : Unended (m ++ r)) (hr : r ≠ []) : Unended r := by
  refine ⟨List.getLast?_append_of_ne_nil m hr ▸ h.ends, ?_⟩
  rintro ⟨u, b, e, heq, hb, he⟩
  exact h.unbarred ⟨m ++ u, b, e, by rw [List.append_assoc, heq, List.append_assoc], hb, he⟩

theorem getLast?_ne (h : Unended t) : t.getLast? ≠ some '\r' := by
  obtain ⟨c, hc, hb⟩ := h.ends
  rw [hc]
  rintro ⟨rfl⟩
  cases hb

end Unended

theorem takeWhile_lineFeed {p : Char → Bool} (hn : p '\n' = false) (t : Text) :
    (t ++ ['\n']).takeWhile p = t.takeWhile p := by
  induction t with
  | nil => simp [hn]
  | cons c t ih => simp only [List.cons_append, List.takeWhile_cons, ih]

namespace Pattern

/-- A line feed at the end of a text makes no difference to the pattern. -/
def Blind (p : Pattern) : Prop := ∀ t, p (t ++ ['\n']) = p t

theorem blind_exactly {lead : Text} (h : '\n' ∉ lead) : Blind (exactly lead) := by
  intro t
  have hiff : lead <+: t ++ ['\n'] ↔ lead <+: t := by
    rw [List.prefix_concat_iff]
    refine or_iff_right fun heq => h ?_
    simp [heq]
  simp only [exactly, List.isPrefixOf_iff_prefix, hiff]

theorem blind_many {p : Char → Bool} (hn : p '\n' = false) : Blind (many p) := by
  intro t
  rw [many, many, takeWhile_lineFeed hn]

theorem blind_headed {p q : Char → Bool} (hp : p '\n' = false) (hq : q '\n' = false) :
    Blind (headed p q) := by
  intro t
  cases t with
  | nil => simp [headed, hp]
  | cons c t => simp only [List.cons_append, headed, takeWhile_lineFeed hq]

theorem blind_andThen {p q : Pattern} (hp : Blind p) (hl : Leading p) (hq : Blind q) :
    Blind (andThen p q) := by
  intro t
  simp only [andThen, hp t]
  cases hm : p t with
  | none => rfl
  | some m =>
    obtain ⟨r, rfl⟩ := hl t m hm
    simp only [List.append_assoc, List.drop_left, hq r]

theorem lineEnd_lineFeed {t : Text} (h : Unended t) : lineEnd (t ++ ['\n']) = lineEnd t := by
  cases t with
  | nil => exact absurd rfl h.ne_nil
  | cons c t =>
    cases hb : isLineBreak c with
    | false => rw [List.cons_append, lineEnd_eq_none.2 hb, lineEnd_eq_none.2 hb]
    | true =>
      have hc : c = '\n' ∨ c = '\r' := by simpa [isLineBreak] using hb
      rcases hc with rfl | rfl
      · rfl
      · cases t with
        | nil => exact absurd rfl h.getLast?_ne
        | cons d t => by_cases hd : d = '\n' <;> simp [lineEnd, hd]

end Pattern

namespace Lexeme

open Pattern

theorem blind_signed {sign : Text} {p : Pattern} (hn : '\n' ∉ sign)
    (hr : sign.getLast? ≠ some '\r') (hp : Blind p) : Blind (signed sign p) :=
  blind_andThen (blind_exactly hn) (cuts_exactly hr).leading hp

/-- Only the rules for line ends look at a line feed at the end. -/
theorem blind_of_mem_rules {mode : Mode} {r : Rule} (h : r ∈ rules mode)
    (hk : r.kind.breaksLine = false) : Blind r.pattern := by
  have hword {sign : Text} {p q : Char → Bool} (hn : '\n' ∉ sign) (hr : sign.getLast? ≠ some '\r')
      (hp : p '\n' = false) (hq : q '\n' = false) : Blind (signed sign (headed p q)) :=
    blind_signed hn hr (blind_headed hp hq)
  have hquoted {q : Char} (hq : q = '\'' ∨ q = '"') : Blind (quotedBy q) := by
    have hn : '\n' ∉ [q] := by rcases hq with rfl | rfl <;> decide
    have hr : [q].getLast? ≠ some '\r' := by rcases hq with rfl | rfl <;> decide
    exact blind_signed hn hr
      (blind_andThen (blind_many (by simp)) (leading_many _) (blind_exactly hn))
  rcases List.mem_append.1 h with h | h
  · simp only [commonRules, List.mem_cons, List.not_mem_nil, or_false] at h
    rcases h with rfl | rfl
    · cases hk
    · exact blind_headed rfl rfl
  · cases mode with
    | line =>
      simp only [lineRules, List.mem_cons, List.not_mem_nil, or_false] at h
      rcases h with rfl | rfl | rfl | rfl | rfl | rfl | rfl | rfl | rfl | rfl
      · cases hk
      · exact hword (by decide) (by decide) rfl rfl
      · exact hword (by decide) (by decide) rfl rfl
      · exact hword (by decide) (by decide) rfl rfl
      · exact blind_exactly (by decide)
      · exact blind_exactly (by decide)
      · exact blind_exactly (by decide)
      · exact blind_signed (by decide) (by decide)
          (blind_andThen (blind_headed rfl rfl) (cuts_headed rfl rfl).leading
            (blind_exactly (by decide)))
      · exact blind_exactly (by decide)
      · exact hword (by decide) (by decide) rfl rfl
    | list =>
      simp only [listRules, List.mem_cons, List.not_mem_nil, or_false] at h
      rcases h with rfl | rfl | rfl
      · exact blind_headed rfl rfl
      · exact hquoted (.inl rfl)
      · exact hquoted (.inr rfl)
    | hash =>
      simp only [hashRules, List.mem_cons, List.not_mem_nil, or_false] at h
      subst h
      exact blind_headed rfl rfl

/-- A bar and blanks that are not the end of the text are followed by the same. -/
theorem continuation_lineFeed {t : Text} (h : Unended t) :
    signed "|" (andThen (many isIndent) lineEnd) (t ++ ['\n']) =
      signed "|" (andThen (many isIndent) lineEnd) t := by
  have hbar : '\n' ∉ ("|" : Text) := by decide
  simp only [signed, andThen, blind_exactly hbar t]
  cases hm : exactly "|" t with
  | none => rfl
  | some m =>
    have hcuts : Cuts (exactly "|") := cuts_exactly (by decide)
    obtain ⟨r, rfl⟩ := hcuts.leading t m hm
    have hm : m = ['|'] := by
      simp only [exactly] at hm
      split at hm
      · exact (Option.some.inj hm).symm
      · cases hm
    subst hm
    simp only [List.append_assoc, List.drop_left, many, takeWhile_lineFeed (p := isIndent) rfl]
    obtain ⟨u, hu⟩ := leading_many isIndent r (r.takeWhile isIndent) rfl
    have hblanks : ∀ c ∈ r.takeWhile isIndent, isIndent c = true :=
      fun c hc => List.mem_takeWhile_imp hc
    generalize r.takeWhile isIndent = b at *
    subst hu
    have hne : u ≠ [] := by
      rintro rfl
      exact h.unbarred ⟨[], b, ['\n'], by simp, hblanks, rfl⟩
    have hline : Unended u := by
      rw [← List.append_assoc] at h
      exact h.right hne
    rw [List.append_assoc, List.drop_left, List.drop_left, lineEnd_lineFeed hline]

/-- The lexeme at the start of an unended text is the same with a line feed behind the
text. -/
theorem read?_lineFeed {t : Text} (h : Unended t) (mode : Mode) :
    read? mode (t ++ ['\n']) = read? mode t := by
  have hrule : ∀ r ∈ rules mode, r.pattern (t ++ ['\n']) = r.pattern t := by
    intro r hr
    by_cases hk : r.kind.breaksLine = false
    · exact blind_of_mem_rules hr hk t
    · have hcases : r.pattern = lineEnd ∨
          r.pattern = signed "|" (andThen (many isIndent) lineEnd) := by
        revert r
        cases mode <;>
          simp [rules, commonRules, lineRules, listRules, hashRules, Token.Kind.breaksLine]
      rcases hcases with hp | hp <;> rw [hp]
      · exact lineEnd_lineFeed h
      · exact continuation_lineFeed h
  obtain ⟨c, t, rfl⟩ := List.exists_cons_of_ne_nil h.ne_nil
  exact read?_congr hrule

/-- A line end is not the end of an unended text. -/
theorem breaksLine_of_last {mode : Mode} {x : Lexeme} (h : Unended x.matched) {r : Text}
    (hx : read? mode (x.matched ++ r) = some x) : x.kind.breaksLine = false := by
  cases hk : x.kind.breaksLine with
  | false => rfl
  | true =>
    obtain ⟨c, hc, hb⟩ := lineBreak_of_breaksLine hx hk
    obtain ⟨d, hd, hs⟩ := h.ends
    rw [hc] at hd
    cases hd
    rw [hs] at hb
    cases hb

end Lexeme

theorem continued?_lineFeed {t : Text} (h : Unended t) :
    continued? (t ++ ['\n']) = continued? t := by
  have hline := takeWhile_lineFeed (p := fun c => !isLineBreak c) rfl t
  have hle := (List.takeWhile_prefix (l := t) fun c => !isLineBreak c).length_le
  simp only [continued?, hline, List.length_append, List.length_singleton]
  by_cases hlt : (t.takeWhile fun c => !isLineBreak c).length < t.length
  · simp only [hlt, Nat.lt_succ_of_lt hlt]
  · have hall : (t.takeWhile fun c => !isLineBreak c) = t :=
      (List.takeWhile_prefix _).eq_of_length (by omega)
    rw [if_neg, if_neg]
    · exact fun hc => hlt hc.2
    · rw [hall]
      rintro ⟨hbar, -⟩
      -- The text would be barred at its very end.
      have hsplit : (Text.dropEndWhile isIndent t).dropLast ++ ['|'] =
          Text.dropEndWhile isIndent t := List.dropLast_append_getLast? _ hbar
      obtain ⟨b, hb⟩ := Text.dropEndWhile_prefix isIndent t
      have hblanks : ∀ c ∈ b, isIndent c = true := by
        have hb' : b = (t.reverse.takeWhile isIndent).reverse := by
          have hrev : t = (t.reverse.dropWhile isIndent).reverse ++
              (t.reverse.takeWhile isIndent).reverse := by
            rw [← List.reverse_append, List.takeWhile_append_dropWhile, List.reverse_reverse]
          exact List.append_cancel_left (hb.trans hrev)
        intro c hc
        rw [hb'] at hc
        exact List.mem_takeWhile_imp (List.mem_reverse.1 hc)
      refine h.unbarred ⟨(Text.dropEndWhile isIndent t).dropLast, b, ['\n'], ?_, hblanks, rfl⟩
      conv_lhs => rw [← hb, ← hsplit]
      simp

namespace Expression

/-- An expression is read alike, or it is not closed and all is read: a backslash hides
the line feed. -/
theorem scan_lineFeed (closers : Text) (quote : Option Char) (hquote : quote ≠ some '\\')
    (t : Text) :
    scan closers quote (t ++ ['\n']) = scan closers quote t ∨
      scan closers quote t = ⟨t, .unterminated⟩ ∧
        scan closers quote (t ++ ['\n']) = ⟨t ++ ['\n'], .unterminated⟩ := by
  have hpush {s s' : Scanned} {t : Text} (m : Text)
      (h : s' = s ∨ s = ⟨t, .unterminated⟩ ∧ s' = ⟨t ++ ['\n'], .unterminated⟩) :
      s'.push m = s.push m ∨
        s.push m = ⟨m ++ t, .unterminated⟩ ∧ s'.push m = ⟨m ++ t ++ ['\n'], .unterminated⟩ := by
    rcases h with rfl | ⟨rfl, rfl⟩
    · exact .inl rfl
    · exact .inr ⟨rfl, by rw [Scanned.push, List.append_assoc]⟩
  induction closers, quote, t using scan_induction with
  | nil closers quote => exact .inl (scan_lineBreak closers quote rfl [])
  | lineEnd closers q t ih => exact hpush ['\\', '\r', '\n'] (ih hquote)
  | hidden closers q c t hs ih =>
    by_cases hs' : Unsplit ['\\', c] (t ++ ['\n'])
    · rw [List.cons_append, List.cons_append, scan_hidden closers q hs, scan_hidden closers q hs']
      exact hpush ['\\', c] (ih hquote)
    -- The line feed ends the line end that the backslash hides.
    · obtain ⟨hc, hhead⟩ := not_not.1 hs'
      obtain rfl : c = '\r' := by simpa using hc
      cases t with
      | nil =>
        exact .inr ⟨by simp [scan, stopped, Scanned.push], by simp [scan, stopped, Scanned.push]⟩
      | cons d t => exact absurd ⟨hc, hhead⟩ hs
  | backslash closers q =>
    have hq : '\\' ≠ q := fun heq => hquote (by rw [heq])
    rw [scan_backslash, if_neg hq]
    exact .inr ⟨by simp [stopped, Scanned.push], by simp [scan, stopped, Scanned.push]⟩
  | halts closers quote c t ending h =>
    rw [List.cons_append, h, h]
    exact .inl rfl
  | reads closers quote c t closers' quote' _ hq h ih =>
    rw [List.cons_append, h, h]
    exact hpush [c] (ih (hq hquote))

end Expression

namespace Lexer

variable {l l' : Lexer}

/-- Two lexers, of which the second has a line feed more before it. -/
inductive Twin (l l' : Lexer) : Prop where
  /-- Both are on the same token of the text. -/
  | before (mode : l'.mode = l.mode) (kind : l'.kind = l.kind)
      (matched : l'.token.matched = l.token.matched) (text : l'.token.text = l.token.text)
      (rest : l'.rest = l.rest ++ ['\n'])
      (ends : Unended l.rest ∨ l.rest = [] ∧ l.endsLine = false) (inside : l.kind ≠ .eof)
  /-- The first is at its end, the second on the line feed. -/
  | brink (kind : l.kind = .eof) (rest : l.rest = []) (kind' : l'.kind = .lineEnd)
      (matched' : l'.token.matched = ['\n']) (rest' : l'.rest = []) (mode : l'.mode = l.mode)
      (blank : l.token.matched = [] ∧ l.token.text = [])
  /-- The line feed is read, with the text or behind it. -/
  | behind (h : Abreast [] l l')

namespace Twin

theorem mode (h : Twin l l') : l'.mode = l.mode := by
  cases h with
  | before mode => exact mode
  | brink _ _ _ _ _ mode => exact mode
  | behind h => exact h.mode

theorem inMode (h : Twin l l') (mode : Mode) : Twin (l.inMode mode) (l'.inMode mode) := by
  cases h with
  | before _ kind matched text rest ends inside =>
    exact .before rfl kind matched text rest ends inside
  | brink kind rest kind' matched' rest' _ blank =>
    exact .brink kind rest kind' matched' rest' rfl blank
  | behind h => exact .behind (h.inMode mode)

/-- From the end of the text the second lexer comes to its own end. -/
theorem finish (h : Twin l l') (hk : l.kind = .eof) (hk' : l'.kind = .lineEnd) :
    Abreast [] l l'.next ∧ l'.next.kind = .eof := by
  cases h with
  | before _ kind =>
    rw [kind, hk] at hk'
    cases hk'
  | brink _ rest _ _ rest' mode blank =>
    obtain ⟨hkind, hmatched, htext, hrest⟩ := next_of_nil rest'
    exact ⟨⟨mode, hkind.trans hk.symm, hmatched.trans blank.1.symm, htext.trans blank.2.symm,
      by rw [hrest, rest]; rfl, .inl rfl⟩, hkind⟩
  | behind h =>
    rw [h.kind, hk] at hk'
    cases hk'

theorem next (h : Twin l l') (hk : l.kind ≠ .eof) : Twin l.next l'.next := by
  cases h with
  | before mode _ _ _ rest ends _ =>
    rcases ends with ends | ⟨hnil, -⟩
    · cases hx : Lexeme.read? l.mode l.rest with
      | none => exact absurd (Lexeme.read?_eq_none.1 hx) ends.ne_nil
      | some x =>
        have hx' : Lexeme.read? l'.mode l'.rest = some x := by
          rw [mode, rest, Lexeme.read?_lineFeed ends, hx]
        obtain ⟨r, hr, hrest, hkind, hmatched, htext⟩ := next_of_read? hx
        obtain ⟨r', hr', hrest', hkind', hmatched', htext'⟩ := next_of_read? hx'
        obtain rfl : r' = r ++ ['\n'] := by
          have hcut : x.matched ++ r' = x.matched ++ (r ++ ['\n']) := by
            rw [← hr', rest, hr, List.append_assoc]
          exact List.append_cancel_left hcut
        rw [hr] at ends hx
        have hinside : l.next.kind ≠ .eof := hkind ▸ Lexeme.kind_ne_eof hx
        refine .before mode (hkind'.trans hkind.symm) (hmatched'.trans hmatched.symm)
          (htext'.trans htext.symm) (by rw [hrest', hrest]) ?_ hinside
        by_cases hnil : r = []
        · rw [hnil, List.append_nil] at ends
          refine .inr ⟨hrest.trans hnil, endsLine_eq_false hinside ?_⟩
          rw [hkind, Lexeme.breaksLine_of_last ends hx]
          exact Bool.false_ne_true
        · rw [hrest]
          exact .inl (ends.right hnil)
    · obtain ⟨hkind, hmatched, htext, hrest⟩ := next_of_nil hnil
      have hx' : Lexeme.read? l'.mode l'.rest = some ⟨.lineEnd, ['\n'], ['\n']⟩ := by
        rw [rest, hnil]
        cases l'.mode <;> rfl
      obtain ⟨r', hr', hrest', hkind', hmatched', -⟩ := next_of_read? hx'
      have hr' : r' = [] := by
        rw [rest, hnil] at hr'
        simpa using hr'.symm
      exact .brink hkind hrest hkind' hmatched' (hrest'.trans hr') mode ⟨hmatched, htext⟩
  | brink kind => exact absurd kind hk
  | behind h => exact .behind (abreast_next h.mode (h.rest.trans (List.append_nil _)))

theorem skip (h : Twin l l') {m r : Text} (hr : l.rest = m ++ r) (hs : Unsplit m r)
    (hk : l.kind ≠ .eof) (hend : r ≠ [] ∨ l.endsLine = false) : Twin (l.skip m) (l'.skip m) := by
  have hrest : (l.skip m).rest = r := rest_skip hr hs
  cases h with
  | before mode kind matched text rest ends inside =>
    have hs' : Unsplit m (r ++ ['\n']) := by
      cases r with
      | cons c r => exact hs
      | nil =>
        rw [List.append_nil] at hr
        refine unsplit_of_getLast? ?_ _
        rcases ends with ends | ⟨hnil, -⟩
        · exact hr ▸ ends.getLast?_ne
        · rw [← hr, hnil]
          exact nofun
    have hrest' : (l'.skip m).rest = r ++ ['\n'] :=
      rest_skip (by rw [rest, hr, List.append_assoc]) hs'
    refine .before mode kind matched text (by rw [hrest', hrest]) ?_ inside
    rw [hrest]
    by_cases hnil : r = []
    · exact .inr ⟨hnil, hend.resolve_left (· hnil)⟩
    · rcases ends with ends | ⟨hempty, -⟩
      · rw [hr] at ends
        exact .inl (ends.right hnil)
      · rw [hr] at hempty
        exact absurd (List.append_eq_nil_iff.1 hempty).2 hnil
  | brink kind => exact absurd kind hk
  | behind h => exact .behind (h.skip hr hs (.inl rfl))

theorem continued? (h : Twin l l') (hk : l.kind ≠ .eof) :
    Haml.continued? l'.rest = Haml.continued? l.rest := by
  cases h with
  | before _ _ _ _ rest ends =>
    rw [rest]
    rcases ends with ends | ⟨hnil, -⟩
    · exact continued?_lineFeed ends
    · rw [hnil]
      rfl
  | brink kind => exact absurd kind hk
  | behind h => rw [h.rest, List.append_nil]

theorem kind_eq (h : Twin l l') : l'.kind = l.kind ∨ l.kind = .eof ∧ l'.kind = .lineEnd := by
  cases h with
  | before _ kind => exact .inl kind
  | brink kind _ kind' => exact .inr ⟨kind, kind'⟩
  | behind h => exact .inl h.kind

theorem token_eq (h : Twin l l') (hk : l'.kind = l.kind) :
    l'.token.matched = l.token.matched ∧ l'.token.text = l.token.text := by
  cases h with
  | before _ _ matched text => exact ⟨matched, text⟩
  | brink kind _ kind' =>
    rw [kind, kind'] at hk
    cases hk
  | behind h => exact ⟨h.matched, h.text⟩

/-- The end of the text is written as a line feed. -/
theorem newline (h : Twin l l') : l'.token.newline = l.token.newline := by
  cases h with
  | before _ kind matched =>
    have hk : l'.token.kind = l.token.kind := kind
    rw [Token.newline, Token.newline, hk, matched]
  | brink kind _ kind' matched' =>
    have hk : l.token.kind = .eof := kind
    have hk' : l'.token.kind = .lineEnd := kind'
    rw [Token.newline, Token.newline, hk, hk', matched']
  | behind h => exact h.newline

/-- Moves past the text before a closing bar, and onto the bar. -/
theorem next_segment (h : Twin l l') (hk : l.kind ≠ .eof) {segment : Text}
    (hs : Haml.continued? l.rest = some segment) :
    Twin (l.skip segment).next (l'.skip segment).next := by
  obtain ⟨r, hr⟩ := continued?_bar hs
  exact (h.skip hr (fun hc => by cases hc.2) hk (.inl (List.cons_ne_nil _ _))).next hk

/-- Past the rest of the line, and onto its end. -/
theorem next_lineEnd (h : Twin l l') (hl : l.endsLine = false) :
    (l'.rest.takeWhile fun c => !isLineBreak c) = (l.rest.takeWhile fun c => !isLineBreak c) ∧
      Twin (l.skip (l.rest.takeWhile fun c => !isLineBreak c)).next
        (l'.skip (l.rest.takeWhile fun c => !isLineBreak c)).next := by
  have hk := kind_ne_eof_of_not_endsLine hl
  constructor
  · cases h with
    | before _ _ _ _ rest => rw [rest, takeWhile_lineFeed rfl]
    | brink kind => exact absurd kind hk
    | behind h => rw [h.rest, List.append_nil]
  · obtain ⟨r, hr, hu⟩ := (oneLine_takeWhile l.rest).cutOff (List.takeWhile_prefix _)
    exact (h.skip hr hu hk (.inr hl)).next hk

theorem passLineEnd (h : Twin l l') : Twin l.passLineEnd l'.passLineEnd := by
  rcases h.kind_eq with heq | ⟨hk, hk'⟩
  · simp only [Lexer.passLineEnd, heq]
    split
    · rename_i hb
      exact h.next (kind_ne_eof_of_breaksLine hb)
    · exact h
  · have hstay : l.passLineEnd = l := by simp [Lexer.passLineEnd, hk, Token.Kind.breaksLine]
    have hmove : l'.passLineEnd = l'.next := by
      simp [Lexer.passLineEnd, hk', Token.Kind.breaksLine]
    rw [hstay, hmove]
    exact .behind (h.finish hk hk').1

/-- A backslash may hide the line feed, but the expression is then refused either way. -/
theorem scanExpression (h : Twin l l') (hk : l.endsLine = false) :
    l.scanExpression.Agree .inCode Twin Twin NotLost Likeness.inCode.text l'.scanExpression := by
  have heof := kind_ne_eof_of_not_endsLine hk
  obtain ⟨r, hr, hs⟩ := Expression.scan_cuts [] none l.rest
  -- The scans decide what is read and how far.
  have hsame (hscan : Expression.scan [] none l'.rest = Expression.scan [] none l.rest) :
      l.scanExpression.Agree .inCode Twin Twin NotLost Likeness.inCode.text l'.scanExpression := by
    have hskip := h.skip hr hs heof (.inr hk)
    simp only [Lexer.scanExpression, readExpression, hscan]
    split
    · exact .ok rfl rfl rfl hskip (.cons trivial .nil)
    · exact .fault rfl rfl ⟨trivial, trivial⟩ hskip (.cons trivial .nil)
  cases h with
  | before mode kind matched text rest ends inside =>
    rcases Expression.scan_lineFeed [] none (fun hq => by cases hq) l.rest
      with hscan | ⟨hscan, hscan'⟩
    · exact hsame (by rw [rest, hscan])
    · rw [← rest] at hscan'
      have hrest : (l.skip l.rest).rest = [] :=
        rest_skip (List.append_nil _).symm fun hc => by cases hc.2
      have hrest' : (l'.skip l'.rest).rest = [] :=
        rest_skip (List.append_nil _).symm fun hc => by cases hc.2
      simp only [Lexer.scanExpression, readExpression, hscan, hscan', Expression.Ending.fault?]
      exact .fault rfl rfl ⟨trivial, trivial⟩
        (.behind ⟨mode, kind, matched, text, by rw [hrest, hrest']; rfl, .inl rfl⟩)
        (.cons trivial .nil)
  | brink kind => exact absurd kind heof
  | behind h => exact hsame (by rw [h.rest, List.append_nil])

end Twin

/-- The two lexers go in lockstep, and are never lost. -/
theorem lockstep_twin : Lockstep .inCode Twin Twin NotLost where
  kind h := h.kind_eq
  token h hk _ := h.token_eq hk
  newline h := h.newline.symm
  point _ := trivial
  inMode h mode := h.inMode mode
  within h _ hl := h.next (kind_ne_eof_of_not_endsLine hl)
  continued h hk _ := h.continued? hk
  segment h _ hk _ hs := h.next_segment hk hs
  line h _ hl := h.next_lineEnd hl
  next h hk := .inl (h.next hk)
  finish h hk hk' := ⟨.behind (h.finish hk hk').1, (h.finish hk hk').2⟩
  expression h hk := h.scanExpression (by rw [Lexer.endsLine, hk]; rfl)
  lost h := h.elim
  past h _ _ := h.passLineEnd
  stay h _ := h

/-- Nothing follows the line feed at the end. -/
theorem resumes_twin : Resumes Twin Twin fun _ _ => False := by
  refine resumes_of_eof (fun h _ => h) fun h hk depth => ?_
  rcases h.kind_eq with heq | ⟨-, hk'⟩
  · exact deeperLineFollows_of_eof (heq.trans hk) depth
  · rw [deeperLineFollows_of_break (by rw [hk']; rfl)]
    exact deeperLineFollows_of_eof (h.finish hk hk').2 depth

namespace Twin

/-! ### Looking ahead -/

theorem depth_next (h : Twin l l') : l'.next.token.depth = l.next.token.depth := by
  by_cases hk : l.kind = .eof
  · have hzero {m : Lexer} (hm : m.kind = .eof) : m.token.depth = 0 := by
      have hm : m.token.kind = .eof := hm
      simp [Token.depth, hm]
    cases h with
    | before _ _ _ _ _ _ inside => exact absurd hk inside
    | brink _ rest _ _ rest' =>
      rw [hzero (next_of_nil rest').1, hzero (next_of_nil rest).1]
    | behind h => exact (abreast_next h.mode (h.rest.trans (List.append_nil _))).depth
  · exact lockstep_twin.depth (h.next hk)

theorem hasContents (h : Twin l l') (hm : l.mode = .line) (depth : Nat) :
    l'.hasContents depth = l.hasContents depth := by
  have hfirst : (l'.lookAhead 1).depth = (l.lookAhead 1).depth := h.depth_next
  simp only [Lexer.hasContents, lockstep_twin.hasInlineContents h hm]
  congr 1
  rcases h.kind_eq with heq | ⟨hk, hk'⟩
  · simp only [heq]
    cases hk : l.kind with
    | eof => rfl
    | space =>
      have hsecond : (l'.lookAhead 2).depth = (l.lookAhead 2).depth :=
        (h.next (by simp [hk])).depth_next
      simp only [hsecond]
    | _ => simp only [hfirst]
  · have hzero : (l'.lookAhead 1).depth = 0 := by
      have hk : (l'.lookAhead 1).kind = .eof := (h.finish hk hk').2
      simp [Token.depth, hk]
    simp [hk, hk', hzero]

end Twin

end Lexer

end Haml
