import Haml.Line.Reader
import Haml.Proofs.LineTokens

/-!
# Reading lines token by token

A lexer that is on the first token of a text reads on as the text alone says:
nothing before the text and no earlier move counts, apart from the number of the
line. Indentation, the rest of a line and whole lines are passed in this way.
-/

namespace Haml

namespace Cursor

theorem step_inline {c : Cursor} {ch : Char} {t : Text} (hc : c.rest = ch :: t)
    (hb : isLineBreak ch = false) : c.step.rest = t ∧ c.step.line = c.line := by
  have hr : ch ≠ '\r' := by
    intro h
    simp [h, isLineBreak] at hb
  unfold step
  rw [hc]
  split
  · contradiction
  · rename_i h
    exact absurd (List.cons.inj h).1 hr
  · rename_i h
    obtain ⟨rfl, rfl⟩ := List.cons.inj h
    simp [hb]

theorem skip_cons {ch : Char} (hb : isLineBreak ch = false) (t : Text) (c : Cursor) :
    skip (ch :: t) c = skip t c.step := by
  have hr : ch ≠ '\r' := by
    intro h
    simp [h, isLineBreak] at hb
  rw [skip]
  intro _ h
  exact absurd h hr

/-- Moving past a text within a line stays on the line. -/
theorem skip_oneLine {c : Cursor} {m t : Text} (hm : OneLine m) (hc : c.rest = m ++ t) :
    (skip m c).rest = t ∧ (skip m c).line = c.line := by
  induction m generalizing c with
  | nil => exact ⟨hc, rfl⟩
  | cons ch m ih =>
    have hb : isLineBreak ch = false := hm ch (by simp)
    obtain ⟨hr, hl⟩ := step_inline hc hb
    obtain ⟨hr', hl'⟩ := ih (fun a ha => hm a (List.mem_cons_of_mem _ ha)) hr
    rw [skip_cons hb]
    exact ⟨hr', hl'.trans hl⟩

/-- Moving past a line end comes to the start of the next line. -/
theorem skip_lineEnd {c : Cursor} {e t : Text} (hc : c.rest = e ++ t)
    (he : Pattern.lineEnd (e ++ t) = some e) :
    (skip e c).rest = t ∧ (skip e c).line = c.line + 1 := by
  generalize hu : e ++ t = u at he
  unfold Pattern.lineEnd at he
  split at he <;> cases he
  · simp [skip, step, hc, breakLine]
  · simp [skip, step, hc, isLineBreak, breakLine]
  · rename_i hcr
    have hstep : c.step = c.breakLine 1 t := by
      rw [step, hc]
      split
      · contradiction
      · rename_i hlf
        cases hlf
        cases hu
        exact absurd rfl (hcr _)
      · rename_i ch _ _ heq
        cases heq
        rfl
    simp [skip, hstep, breakLine]

end Cursor

namespace Lexer

/-- The lexer is on the first token of `t`, which starts on line `n`. -/
def Reads (l : Lexer) (mode : Mode) (n : Nat) (t : Text) : Prop :=
  l.mode = mode ∧ ∃ c : Cursor, c.rest = t ∧ c.line = n ∧ (l.token, l.cursor) = scan mode c

/-- The lexer is on the token `x`, which ends on line `n`, and `t` is behind it. -/
structure On (l : Lexer) (mode : Mode) (n : Nat) (x : Lexeme) (t : Text) : Prop where
  mode : l.mode = mode
  kind : l.kind = x.kind
  matched : l.token.matched = x.matched
  text : l.token.text = x.text
  rest : l.rest = t
  line : l.cursor.line = n

variable {l : Lexer} {mode : Mode} {n : Nat} {x : Lexeme} {t more : Text}

theorem next_reads (l : Lexer) : l.next.Reads l.mode l.cursor.line l.rest :=
  ⟨rfl, l.cursor, rfl, rfl, rfl⟩

theorem On.next (h : l.On mode n x t) : l.next.Reads mode n t := by
  have hl := next_reads l
  rwa [h.mode, h.line, h.rest] at hl

theorem On.inMode (h : l.On mode n x t) (mode' : Mode) : (l.inMode mode').On mode' n x t :=
  ⟨rfl, h.kind, h.matched, h.text, h.rest, h.line⟩

theorem Reads.on (h : l.Reads mode n (x.matched ++ t))
    (hx : Lexeme.read? mode (x.matched ++ t) = some x) (hm : OneLine x.matched) :
    l.On mode n x t := by
  obtain ⟨hmode, c, hc, hn, hs⟩ := h
  rw [scan, hc, hx] at hs
  obtain ⟨htoken, hcursor⟩ := Prod.mk.inj hs
  obtain ⟨hr, hl⟩ := Cursor.skip_oneLine hm hc
  exact ⟨hmode, by rw [kind, htoken], by rw [htoken], by rw [htoken], by rw [rest, hcursor, hr],
    by rw [hcursor, hl, hn]⟩

theorem Reads.on_lineEnd {e : Text} (h : l.Reads mode n (e ++ t))
    (he : Pattern.lineEnd (e ++ t) = some e) : l.On mode (n + 1) ⟨.lineEnd, e, e⟩ t := by
  obtain ⟨hmode, c, hc, hn, hs⟩ := h
  rw [scan, hc, Lexeme.read?_lineEnd he] at hs
  obtain ⟨htoken, hcursor⟩ := Prod.mk.inj hs
  obtain ⟨hr, hl⟩ := Cursor.skip_lineEnd hc he
  exact ⟨hmode, by rw [kind, htoken], by rw [htoken], by rw [htoken], by rw [rest, hcursor, hr],
    by rw [hcursor, hl, hn]⟩

theorem Reads.on_newline (h : l.Reads mode n ('\n' :: t)) :
    l.On mode (n + 1) ⟨.lineEnd, ['\n'], ['\n']⟩ t := h.on_lineEnd rfl

theorem Reads.kind_eof (h : l.Reads mode n []) : l.kind = .eof := by
  obtain ⟨-, c, hc, -, hs⟩ := h
  rw [scan, hc] at hs
  exact congrArg Token.kind (Prod.mk.inj hs).1

/-- The lexer is within line `n`, and `more` are the lines below it. -/
structure Within (l : Lexer) (n : Nat) (more : Text) : Prop where
  endsLine : l.endsLine = false
  line : l.cursor.line = n
  rest : ∃ u, l.rest = u ++ '\n' :: more ∧ OneLine u ∧ Unbarred u

theorem continued?_eq_none {u r : Text} (hu : OneLine u) (hb : Unbarred u) (hr : AfterLine r) :
    continued? (u ++ r) = none := by
  simp only [continued?, takeWhile_line hu hr]
  rw [if_neg]
  rintro ⟨h, -⟩
  exact hb h

theorem takeLine_eq {u r : Text} (hl : l.endsLine = false) (hrest : l.rest = u ++ r)
    (hu : OneLine u) (hb : Unbarred u) (hr : AfterLine r) :
    l.takeLine = (l.token.matched ++ u, (l.skip u).next) := by
  simp [takeLine, hl, hrest, continued?_eq_none hu hb hr, takeWhile_line hu hr]

theorem skip_next_reads {u : Text} (hr : l.rest = u ++ t) (hu : OneLine u) :
    (l.skip u).next.Reads l.mode l.cursor.line t := by
  obtain ⟨hrest, hline⟩ := Cursor.skip_oneLine hu hr
  have h := next_reads (l.skip u)
  have hrest' : (l.skip u).rest = t := hrest
  have hline' : (l.skip u).cursor.line = l.cursor.line := hline
  rw [hrest', hline'] at h
  exact h

/-- Within a line, its end is passed next. -/
theorem Within.passLine (h : l.Within n more) : l.passLine.Reads l.mode (n + 1) more := by
  obtain ⟨u, hr, hu, hb⟩ := h.rest
  have hend := (skip_next_reads hr hu).on_newline
  have hk : (l.skip u).next.kind.breaksLine = true := by rw [hend.kind]; rfl
  rw [Lexer.passLine, takeLine_eq h.endsLine hr hu hb (afterLine_lineFeed more),
    passLineEnd, if_pos hk]
  rw [← h.line]
  exact hend.next

/-- A beginning of a line and what follows that has no line end is of the line. -/
theorem exists_eq_append_of_isPrefix {m b r : Text} (hm : OneLine m) (h : m <+: b ++ r)
    (hr : AfterLine r) : ∃ u, b = m ++ u := by
  rcases List.prefix_or_prefix_of_prefix h (List.prefix_append b _) with hp | ⟨v, rfl⟩
  · obtain ⟨u, hu⟩ := hp
    exact ⟨u, hu.symm⟩
  · cases v with
    | nil => exact ⟨[], by simp⟩
    | cons a v =>
      obtain ⟨t, rfl⟩ := (List.prefix_append_right_inj b).1 h
      have ha := hr a rfl
      rw [hm a (by simp)] at ha
      cases ha

variable {b w : Text} {d k : Nat}

/-- On a line of visible text the lexer is on a token of that line. -/
theorem Reads.exists_on {r : Text} (h : l.Reads .line n (b ++ r)) (hb : LineBody b)
    (hr : AfterLine r) :
    ∃ x u, b = x.matched ++ u ∧ l.On .line n x (u ++ r) ∧
      x.kind.endsLine = false ∧ x.kind ≠ .space := by
  cases hx : Lexeme.read? .line (b ++ r) with
  | none =>
    obtain ⟨c, t, rfl, -⟩ := hb.visible
    have hnil := Lexeme.read?_eq_none.1 hx
    simp at hnil
  | some x =>
    obtain ⟨hk, hs⟩ := hb.kind hx
    obtain ⟨hp, hm⟩ := Lexeme.inline_of_read? hx hk
    obtain ⟨u, rfl⟩ := exists_eq_append_of_isPrefix hm hp hr
    rw [List.append_assoc] at h hx
    exact ⟨x, u, rfl, h.on hx hm, hk, hs⟩

theorem Reads.kind_of_visible {r : Text} (h : l.Reads .line n (b ++ r)) (hb : LineBody b)
    (hr : AfterLine r) : l.kind ≠ .space ∧ l.endsLine = false := by
  obtain ⟨x, u, -, hon, hk, hs⟩ := h.exists_on hb hr
  rw [endsLine, hon.kind]
  exact ⟨hs, hk⟩

theorem Reads.within (h : l.Reads .line n (b ++ '\n' :: more)) (hb : LineBody b) :
    l.Within n more := by
  obtain ⟨x, u, rfl, hon, hk, -⟩ := h.exists_on hb (afterLine_lineFeed more)
  exact ⟨by rw [endsLine, hon.kind, hk], hon.line, u, hon.rest, hb.oneLine.of_append_right,
    hb.unbarred.of_append_right⟩

/-- Taking a line gives its whole text. -/
theorem Reads.takeLine (h : l.Reads .line n (b ++ '\n' :: more)) (hb : LineBody b) :
    l.takeLine.1 = b ∧ l.takeLine.2.Reads .line n ('\n' :: more) := by
  obtain ⟨x, u, rfl, hon, hk, -⟩ := h.exists_on hb (afterLine_lineFeed more)
  have hu := hb.oneLine.of_append_right
  have hnext := skip_next_reads hon.rest hu
  rw [takeLine_eq (by rw [endsLine, hon.kind, hk]) hon.rest hu hb.unbarred.of_append_right
    (afterLine_lineFeed more), hon.matched]
  rw [hon.mode, hon.line] at hnext
  exact ⟨rfl, hnext⟩

theorem read?_indent {c : Char} (hc : isIndent c = true) (mode : Mode) (t : Text) :
    Lexeme.read? mode (c :: t) =
      some ⟨.space, c :: t.takeWhile isIndent, c :: t.takeWhile isIndent⟩ := by
  have hend : Pattern.lineEnd (c :: t) = none :=
    Pattern.lineEnd_eq_none.2 (isLineBreak_eq_false rfl rfl hc)
  simp [Lexeme.read?, Lexeme.rules, Lexeme.commonRules, Lexeme.Rule.read?, Pattern.many1,
    Pattern.headed, hend, hc, Lexeme.Cut.apply]

theorem read?_space {c a : Char} (hw : ∀ x ∈ c :: w, isIndent x = true) (ha : isIndent a = false)
    (mode : Mode) (t : Text) :
    Lexeme.read? mode (c :: w ++ a :: t) = some ⟨.space, c :: w, c :: w⟩ := by
  have hrun : (w ++ a :: t).takeWhile isIndent = w := by
    rw [List.takeWhile_append_of_pos fun x hx => hw x (List.mem_cons_of_mem _ hx)]
    simp [ha]
  rw [List.cons_append, read?_indent (hw c (by simp)), hrun]

def Indents (d : Nat) (w : Text) : Prop := w.all isIndent = true ∧ indentDepth w = d

instance (d : Nat) (w : Text) : Decidable (Indents d w) := inferInstanceAs (Decidable (_ ∧ _))

/-- The first token of a line gives its depth, and its text comes next. -/
theorem Reads.indented_of {r : Text} (h : l.Reads .line n (w ++ (b ++ r))) (hw : Indents d w)
    (hb : LineBody b) (hr : AfterLine r) :
    l.token.depth = d ∧ l.endsLine = false ∧ l.passSpace.Reads .line n (b ++ r) := by
  obtain ⟨hall, rfl⟩ := hw
  rw [List.all_eq_true] at hall
  cases w with
  | nil =>
    rw [List.nil_append] at h
    obtain ⟨hs, he⟩ := h.kind_of_visible hb hr
    have hp : l.passSpace = l := if_neg hs
    rw [hp]
    exact ⟨if_neg hs, he, h⟩
  | cons c w =>
    obtain ⟨a, t, rfl, ha⟩ := hb.visible
    have hon : l.On .line n ⟨.space, c :: w, c :: w⟩ (a :: t ++ r) :=
      Reads.on h (read?_space hall ha .line _) (oneLine_of_all rfl rfl hall)
    have hs : l.token.kind = .space := hon.kind
    have hp : l.passSpace = l.next := if_pos hs
    refine ⟨?_, by rw [endsLine, hon.kind]; rfl, hp ▸ hon.next⟩
    rw [Token.depth, if_pos hs, hon.text]

theorem Reads.indented (h : l.Reads .line n (w ++ (b ++ '\n' :: more))) (hw : Indents d w)
    (hb : LineBody b) :
    l.token.depth = d ∧ l.endsLine = false ∧ l.passSpace.Reads .line n (b ++ '\n' :: more) :=
  h.indented_of hw hb (afterLine_lineFeed more)

/-- Passing over deeper lines stops before a line that is not deeper. -/
theorem Reads.passDeeperLines_stop (h : l.Reads .line n (w ++ (b ++ '\n' :: more)))
    (hw : Indents k w) (hb : LineBody b) (hk : k ≤ d) :
    ∃ l', l.passDeeperLines d = .ok l' ∧ l'.Reads .line n (w ++ (b ++ '\n' :: more)) := by
  obtain ⟨hdepth, hend, hbody⟩ := h.indented hw hb
  have hne := kind_ne_eof_of_not_endsLine hend
  have hne' := kind_ne_eof_of_not_endsLine (hbody.within hb).endsLine
  have hstop : l.token.depth ≤ d ∨ l.passSpace.endsLine = true := .inl (by omega)
  rw [passDeeperLines_eq, if_neg hne, if_pos hstop]
  by_cases hs : l.kind = .space
  · have hp : l.passSpace = l.next := if_pos hs
    rw [if_pos ⟨hs, hne'⟩, hp, pushBack_next (hp ▸ hne')]
    exact ⟨_, rfl, h⟩
  · have hp : l.passSpace = l := if_neg hs
    rw [if_neg fun hc => hs hc.1, hp]
    exact ⟨l, rfl, h⟩

/-- Passing over deeper lines goes on behind a line that is deeper. -/
theorem Reads.passDeeperLines_pass (h : l.Reads .line n (w ++ (b ++ '\n' :: more)))
    (hw : Indents k w) (hb : LineBody b) (hk : d < k) :
    ∃ l' : Lexer, l.passDeeperLines d = l'.passDeeperLines d ∧ l'.Reads .line (n + 1) more := by
  obtain ⟨hdepth, hend, hbody⟩ := h.indented hw hb
  have hne := kind_ne_eof_of_not_endsLine hend
  have hin := hbody.within hb
  have hgo : ¬(l.token.depth ≤ d ∨ l.passSpace.endsLine = true) := by
    rw [hdepth, hin.endsLine]
    rintro (h | h)
    · omega
    · cases h
  refine ⟨l.passSpace.passLine, ?_, ?_⟩
  · rw [passDeeperLines_eq, if_neg hne, if_neg hgo]
  · have hpass := hin.passLine
    rwa [hbody.1] at hpass

end Lexer

end Haml
