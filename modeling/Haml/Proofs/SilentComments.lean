import Haml.Proofs.SeamRows

/-!
# The lines of a silent comment

A silent comment is a line that starts with its sign, with the deeper lines below it. All
of it is one row, which writes nothing, and reading goes on behind it.
-/

namespace Haml

/-- The whole end of a line that `after` follows; the last line of a text may have none. -/
def EndsBefore (e after : Text) : Prop :=
  Pattern.lineEnd (e ++ after) = some e ∨ e = [] ∧ after = []

instance (e after : Text) : Decidable (EndsBefore e after) :=
  inferInstanceAs (Decidable (_ ∨ _))

theorem EndsBefore.afterLine {e after : Text} (h : EndsBefore e after) :
    AfterLine (e ++ after) := by
  rcases h with h | ⟨rfl, rfl⟩
  · intro c hc
    obtain ⟨u, hu⟩ := List.head?_eq_some_iff.1 hc
    cases hb : isLineBreak c with
    | true => rfl
    | false =>
      rw [hu, Pattern.lineEnd_eq_none.2 hb] at h
      cases h
  · exact nofun

/-- Lines deeper than `depth`, none of them blank or continued, before `after`. -/
inductive DeeperLines (depth : Nat) (after : Text) : Text → Prop where
  | nil : DeeperLines depth after []
  | cons {k : Nat} {w b e more : Text} (hw : Lexer.Indents k w) (hk : depth < k) (hb : LineBody b)
      (he : EndsBefore e (more ++ after)) (h : DeeperLines depth after more) :
      DeeperLines depth after (w ++ (b ++ (e ++ more)))

/-- A silent comment at `depth` before `after`: its own line, which is not continued, and
the deeper lines below it. -/
inductive SilentComment (depth : Nat) (after : Text) : Text → Prop where
  | intro {w t e more : Text} (hw : Lexer.Indents depth w) (ht : OneLine t) (hb : Unbarred t)
      (he : EndsBefore e (more ++ after)) (h : DeeperLines depth after more) :
      SilentComment depth after (w ++ ('-' :: '#' :: t ++ (e ++ more)))

/-- A text whose first line is at `depth` and is neither blank nor continued; or no text,
at the outermost depth. -/
def StartsAt (depth : Nat) (t : Text) : Prop :=
  t = [] ∧ depth = 0 ∨
    ∃ w b r, t = w ++ (b ++ r) ∧ Lexer.Indents depth w ∧ LineBody b ∧ AfterLine r

theorem lineBody_comment {t : Text} (ht : OneLine t) (hb : Unbarred t) :
    LineBody ('-' :: '#' :: t) where
  oneLine := OneLine.append (s := ['-', '#']) (by decide) ht
  unbarred := Unbarred.append (s := ['-', '#']) (by decide) hb
  visible := ⟨'-', '#' :: t, rfl, rfl⟩

namespace Lexer

variable {after more b w r t : Text} {l : Lexer} {n d k : Nat}

/-- The first line of a text is not blank, and its first token gives its depth. -/
theorem Reads.visible (h : l.Reads .line n (w ++ (b ++ r))) (hw : Indents d w) (hb : LineBody b)
    (hr : AfterLine r) : l.onBlankLine = false ∧ l.token.depth = d := by
  obtain ⟨hdepth, he, hbody⟩ := h.indented_of hw hb hr
  have hend := (hbody.kind_of_visible hb hr).2
  refine ⟨?_, hdepth⟩
  by_cases hs : l.kind = .space
  · have hp : l.passSpace = l.next := if_pos hs
    rw [hp] at hend
    simp [onBlankLine, hs, hend, Token.Kind.breaksLine]
  · simp [onBlankLine, hs, breaksLine_eq_false he]

theorem Reads.startsAt (h : l.Reads .line n t) (ht : StartsAt d t) :
    l.onBlankLine = false ∧ l.token.depth = d := by
  rcases ht with ⟨rfl, rfl⟩ | ⟨w, b, r, rfl, hw, hb, hr⟩
  · have hk : l.token.kind = .eof := h.kind_eof
    exact ⟨by simp [onBlankLine, kind, hk, Token.Kind.breaksLine], by simp [Token.depth, hk]⟩
  · exact h.visible hw hb hr

/-- Within a line that is not continued its end is passed next. -/
theorem passLine_reads {u e : Text} (hm : l.mode = .line) (hl : l.endsLine = false)
    (hrest : l.rest = u ++ (e ++ after)) (hu : OneLine u) (hb : Unbarred u)
    (he : EndsBefore e after) : ∃ n, l.passLine.Reads .line n after := by
  rw [passLine, takeLine_eq hl hrest hu hb he.afterLine]
  have hreads := skip_next_reads hrest hu
  rw [hm] at hreads
  rcases he with he | ⟨rfl, rfl⟩
  · have hx : Lexeme.read? (l.skip u).mode (l.skip u).rest = some ⟨.lineEnd, e, e⟩ := by
      have hskip : (l.skip u).rest = e ++ after := (Cursor.skip_oneLine hu hrest).1
      have hmode : (l.skip u).mode = .line := hm
      rw [hskip, hmode]
      cases hall : e ++ after with
      | nil =>
        rw [hall] at he
        cases he
      | cons c v =>
        rw [hall] at he
        simp [Lexeme.read?, Lexeme.rules, Lexeme.commonRules, Lexeme.Rule.read?, he,
          Lexeme.Cut.apply]
    obtain ⟨r, hr, hnext, hk, -⟩ := next_of_read? hx
    have hafter : (l.skip u).next.rest = after := by
      rw [hnext]
      have hskip : (l.skip u).rest = e ++ after := (Cursor.skip_oneLine hu hrest).1
      exact List.append_cancel_left (hr.symm.trans hskip)
    have hb : (l.skip u).next.kind.breaksLine = true := by
      rw [hk]
      rfl
    rw [passLineEnd, if_pos hb]
    have hreads := next_reads (l.skip u).next
    rw [hafter] at hreads
    exact ⟨_, hm ▸ hreads⟩
  · have hk : (l.skip u).next.kind = .eof := hreads.kind_eof
    have hb : (l.skip u).next.kind.breaksLine = false := by
      rw [hk]
      rfl
    rw [passLineEnd, if_neg (by simp [hb])]
    exact ⟨_, hreads⟩

/-- A deeper line is passed on the way to the next one. -/
theorem Reads.passLine_indented {e : Text} (h : l.Reads .line n (w ++ (b ++ (e ++ after))))
    (hw : Indents k w) (hk : d < k) (hb : LineBody b) (he : EndsBefore e after) :
    ∃ n, l.passLine.Reads .line n after := by
  obtain ⟨hall, hdepth⟩ := hw
  rw [List.all_eq_true] at hall
  cases w with
  | nil =>
    have hzero : indentDepth [] = 0 := rfl
    omega
  | cons c w =>
    obtain ⟨a, t, rfl, ha⟩ := hb.visible
    have hon : l.On .line n ⟨.space, c :: w, c :: w⟩ (a :: t ++ (e ++ after)) :=
      Reads.on h (read?_space hall ha .line _) (oneLine_of_all rfl rfl hall)
    exact passLine_reads hon.mode (by rw [endsLine, hon.kind]; rfl) hon.rest hb.oneLine hb.unbarred
      he

/-- The block below a comment is taken as far as what follows the comment. -/
theorem Reads.takeDeeperLines (h : l.Reads .line n (more ++ after))
    (hmore : DeeperLines d after more) (hafter : StartsAt k after) (hk : k ≤ d) :
    ∃ n, (l.takeDeeperLines d).2.Reads .line n after := by
  induction hmore generalizing l n with
  | nil =>
    obtain ⟨hv, hdepth⟩ := h.startsAt hafter
    rw [takeDeeperLines_of_le hv (by omega)]
    exact ⟨n, h⟩
  | @cons j w b e more hw hj hb he _ ih =>
    simp only [List.append_assoc] at h
    obtain ⟨hv, hdepth⟩ := h.visible hw hb he.afterLine
    obtain ⟨n, hline⟩ := h.passLine_indented hw hj hb he
    rw [takeDeeperLines_of_deeper hv (by omega)]
    exact ih hline

theorem read?_silentComment (t : Text) :
    Lexeme.read? .line ('-' :: '#' :: t) = some ⟨.silentComment, ['-', '#'], ['-', '#']⟩ := by
  have hend : Pattern.lineEnd ('-' :: '#' :: t) = none := Pattern.lineEnd_eq_none.2 rfl
  simp [Lexeme.read?, Lexeme.rules, Lexeme.commonRules, Lexeme.lineRules, Lexeme.Rule.read?, hend,
    Pattern.many1, Pattern.headed, Lexeme.signed, Pattern.andThen, Pattern.exactly, isIndent,
    Lexeme.Cut.apply]

/-- A silent comment is one row, which writes nothing, and reading goes on behind it. -/
theorem Reads.readRow_comment {c : Text} (h : l.Reads .line n (c ++ after))
    (hc : SilentComment d after c) (hafter : StartsAt k after) (hk : k ≤ d) :
    l.kind ≠ .eof ∧ ∃ u n, l.readRow.value = .ok (.written d u (.line [] .hidden)) ∧
      Script.closesBlock u = false ∧ l.readRow.lexer.Reads .line n after := by
  cases hc with
  | @intro w t e more hw ht hb he hmore =>
    simp only [List.append_assoc] at h
    have hbody := lineBody_comment ht hb
    obtain ⟨hdepth, hend, hreads⟩ := h.indented_of hw hbody he.afterLine
    have hon : l.passSpace.On .line n ⟨.silentComment, ['-', '#'], ['-', '#']⟩
        (t ++ (e ++ (more ++ after))) :=
      Reads.on hreads (read?_silentComment _) (by decide)
    have hkind : l.passSpace.kind = .silentComment := hon.kind
    have hends : l.passSpace.endsLine = false := by rw [endsLine, hkind]; rfl
    obtain ⟨n', hline⟩ := passLine_reads hon.mode hends hon.rest ht hb he
    obtain ⟨n'', hblock⟩ := hline.takeDeeperLines hmore hafter hk
    obtain ⟨hvalue, hlexer⟩ := readRow_of_line hends (by simp [hkind])
    simp only [readLine_eq, hkind, hdepth] at hvalue hlexer
    refine ⟨kind_ne_eof_of_not_endsLine hend, l.passSpace.upcoming, n'', hvalue, ?_, ?_⟩
    · simp [Script.closesBlock, upcoming, hkind]
    · rw [hlexer]
      exact hblock

/-- The first row of a text that starts at a depth stands at that depth. -/
theorem Reads.rows_startsAt (h : l.Reads .line n t) (ht : StartsAt d t) {rows : List Row}
    (hrows : l.rows = .ok rows) :
    rows = [] ∨ ∃ m rest, rows = .written d l.passSpace.upcoming m :: rest := by
  rcases ht with ⟨rfl, rfl⟩ | ⟨w, b, r, rfl, hw, hb, hr⟩
  · rw [rows_of_eof h.kind_eof] at hrows
    cases hrows
    exact .inl rfl
  · right
    obtain ⟨hdepth, he, hbody⟩ := h.indented_of hw hb hr
    obtain ⟨hvalue, -⟩ := readRow_of_matter (hbody.kind_of_visible hb hr).2
    cases hmatter : (l.passSpace.readMatter l.token.depth).value with
    | error e =>
      rw [hmatter] at hvalue
      rw [rows_of_refused (kind_ne_eof_of_not_endsLine he) hvalue] at hrows
      cases hrows
    | ok m =>
      rw [hmatter] at hvalue
      rw [rows_of_row (kind_ne_eof_of_not_endsLine he) hvalue] at hrows
      obtain ⟨rest, hrest⟩ := ok_of_map_ok hrows
      rw [hrest] at hrows
      cases hrows
      exact ⟨m, rest, by rw [hdepth]⟩

end Lexer

/-- A silent comment is a first line at its depth. -/
theorem SilentComment.startsAt {depth : Nat} {after c : Text} (h : SilentComment depth after c) :
    StartsAt depth (c ++ after) := by
  cases h with
  | @intro w t e more hw ht hb he hmore =>
    exact .inr ⟨w, '-' :: '#' :: t, e ++ (more ++ after), by simp, hw, lineBody_comment ht hb,
      he.afterLine⟩

/-- The seam before a silent comment. -/
theorem SilentComment.seam {depth k : Nat} {after c : Text} (h : SilentComment depth after c)
    (hafter : StartsAt k after) (hk : k ≤ depth) : Seam (c ++ after) after := by
  obtain ⟨hv, hdepth⟩ := (Lexer.next_reads (Lexer.ofText (c ++ after))).startsAt h.startsAt
  obtain ⟨hv', hdepth'⟩ := (Lexer.next_reads (Lexer.ofText after)).startsAt hafter
  refine ⟨?_, hv, hv', by rw [hdepth, hdepth']; exact hk⟩
  cases h
  simp

/-- A comment does not start with a closing brace. -/
theorem SilentComment.closingBrace {depth : Nat} {after c : Text}
    (h : SilentComment depth after c) :
    (Pattern.closingBrace (c ++ after)).isSome = false := by
  cases h with
  | @intro w t e more hw ht hb he hmore =>
    have hindent : ∀ x ∈ w, isBlank x = true := by
      intro x hx
      have hx : x = ' ' ∨ x = '\t' := by
        simpa [isIndent] using List.all_eq_true.1 hw.1 x hx
      rcases hx with rfl | rfl <;> rfl
    have htrim : Text.trimStart (w ++ ['-']) = ['-'] := by
      rw [Text.trimStart, List.dropWhile_append_of_pos hindent]
      rfl
    have hsplit : w ++ ('-' :: '#' :: t ++ (e ++ more)) ++ after =
        (w ++ ['-']) ++ ('#' :: t ++ (e ++ more) ++ after) := by simp
    rw [hsplit, isSome_closingBrace (by rw [htrim]; exact List.cons_ne_nil _ _), htrim]
    rfl

end Haml
