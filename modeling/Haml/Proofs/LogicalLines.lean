import Haml.Proofs.LineMode
import Haml.Proofs.LineStarts

/-!
# Logical lines

A source is a list of lines, each with its end. A line is continued if, blanks aside,
it closes with a bar and has an end. Taking the rest of a line takes the whole run of
continued lines that starts there, and stops on the bar of the last of them; where
there is no such run it takes the line itself, and stops on its end.
-/

namespace Haml

/-- A line of a source and its line end; the last line has none. -/
structure SourceLine where
  text : Text
  ending : Text
  deriving DecidableEq, Repr

namespace SourceLine

def whole (s : SourceLine) : Text := s.text ++ s.ending

def continued (s : SourceLine) : Bool :=
  (Text.dropEndWhile isIndent s.text).getLast? == some '|' && !s.ending.isEmpty

def beforeBar (s : SourceLine) : Text := (Text.dropEndWhile isIndent s.text).dropLast

/-- A continued line closes with its bar and blanks. -/
theorem exists_blanks {s : SourceLine} (h : s.continued = true) :
    s.ending ≠ [] ∧ ∃ b, s.text = s.beforeBar ++ '|' :: b ∧ ∀ c ∈ b, isIndent c = true := by
  simp only [continued, Bool.and_eq_true, beq_iff_eq, Bool.not_eq_true', List.isEmpty_eq_false_iff]
    at h
  obtain ⟨b, hb, hall⟩ := Text.exists_dropEndWhile isIndent s.text
  refine ⟨h.2, b, ?_, hall⟩
  conv_lhs => rw [hb, ← List.dropLast_append_getLast? _ h.1]
  simp [beforeBar]

end SourceLine

namespace Text

def sourceLines : Text → List SourceLine
  | [] => [⟨[], []⟩]
  | '\r' :: '\n' :: t => ⟨[], ['\r', '\n']⟩ :: sourceLines t
  | c :: t =>
    if isLineBreak c then ⟨[], [c]⟩ :: sourceLines t
    else (sourceLines t).modifyHead fun s => { s with text := c :: s.text }

theorem sourceLines_cons {c : Char} (hc : isLineBreak c = false) (t : Text) :
    sourceLines (c :: t) = (sourceLines t).modifyHead fun s => { s with text := c :: s.text } := by
  have hr : c ≠ '\r' := by
    rintro rfl
    cases hc
  rw [sourceLines, hc]
  · rfl
  · intro _ h
    exact absurd h hr

theorem sourceLines_of_oneLine {t : Text} (h : OneLine t) : sourceLines t = [⟨t, []⟩] := by
  induction t with
  | nil => rfl
  | cons c t ih =>
    rw [sourceLines_cons (h c (by simp)), ih fun a ha => h a (List.mem_cons_of_mem c ha)]
    rfl

/-- A text of one line with its end, and the lines below. -/
theorem sourceLines_append {u e r : Text} (hu : OneLine u)
    (he : Pattern.lineEnd (e ++ r) = some e) :
    sourceLines (u ++ (e ++ r)) = ⟨u, e⟩ :: sourceLines r := by
  induction u with
  | nil =>
    rw [List.nil_append]
    generalize ht : e ++ r = t at he
    unfold Pattern.lineEnd at he
    split at he <;> cases he
    · obtain rfl := List.append_cancel_left (ht : ['\r', '\n'] ++ r = ['\r', '\n'] ++ _)
      rfl
    · obtain rfl := List.append_cancel_left (ht : ['\n'] ++ r = ['\n'] ++ _)
      rfl
    · rename_i hcr
      obtain rfl := List.append_cancel_left (ht : ['\r'] ++ r = ['\r'] ++ _)
      rw [sourceLines]
      · rfl
      · rintro u - rfl
        exact hcr u rfl
  | cons c u ih =>
    rw [List.cons_append, sourceLines_cons (hu c (by simp)),
      ih fun a ha => hu a (List.mem_cons_of_mem c ha)]
    rfl

/-- Every text is its last line, or starts with a line and its end. -/
theorem oneLine_or_exists_lineEnd (t : Text) :
    OneLine t ∨ ∃ u e r, t = u ++ (e ++ r) ∧ OneLine u ∧ Pattern.lineEnd (e ++ r) = some e := by
  have ht : t = t.firstLine ++ t.dropWhile fun c => !isLineBreak c :=
    List.takeWhile_append_dropWhile.symm
  cases hd : t.dropWhile fun c => !isLineBreak c with
  | nil =>
    rw [hd, List.append_nil] at ht
    exact .inl (ht ▸ oneLine_takeWhile t)
  | cons c v =>
    have hc : ¬isLineBreak c = false := by
      have h := List.head?_dropWhile_not (fun c => !isLineBreak c) t
      rw [hd] at h
      simpa using h
    obtain ⟨e, he⟩ := Option.ne_none_iff_exists'.1
      (mt Pattern.lineEnd_eq_none.1 hc : Pattern.lineEnd (c :: v) ≠ none)
    obtain ⟨r, hr, -⟩ := Pattern.cuts_lineEnd _ _ he
    exact .inr ⟨t.firstLine, e, r, by rw [← hr, ← hd]; exact ht, oneLine_takeWhile t, hr ▸ he⟩

theorem exists_sourceLines (t : Text) : ∃ first below, t.sourceLines = first :: below := by
  obtain h | ⟨u, e, r, rfl, hu, he⟩ := t.oneLine_or_exists_lineEnd
  · exact ⟨_, _, sourceLines_of_oneLine h⟩
  · exact ⟨_, _, sourceLines_append hu he⟩

/-- The lines of a text make it up. -/
theorem flatMap_whole_sourceLines (t : Text) : t.sourceLines.flatMap SourceLine.whole = t := by
  fun_induction sourceLines t with
  | case1 => rfl
  | case2 t ih => rw [List.flatMap_cons, ih]; rfl
  | case3 c t _ _ ih => rw [List.flatMap_cons, ih]; rfl
  | case4 c t _ _ ih =>
    obtain ⟨first, below, hs⟩ := exists_sourceLines t
    rw [hs] at ih ⊢
    rw [List.modifyHead_cons, List.flatMap_cons, SourceLine.whole, List.cons_append,
      List.cons_append, ← SourceLine.whole, ← List.flatMap_cons, ih]

end Text

theorem afterLine_lineEnd {e r : Text} (h : Pattern.lineEnd (e ++ r) = some e) :
    AfterLine (e ++ r) := by
  intro c hc
  obtain ⟨u, hu⟩ := List.head?_eq_some_iff.1 hc
  by_contra hb
  rw [hu, Pattern.lineEnd_eq_none.2 (by simpa using hb)] at h
  cases h

theorem Text.firstLine_eq {t : Text} {first : SourceLine} {below : List SourceLine}
    (h : t.sourceLines = first :: below) : t.firstLine = first.text := by
  obtain ht | ⟨u, e, r, rfl, hu, he⟩ := t.oneLine_or_exists_lineEnd
  · rw [Text.sourceLines_of_oneLine ht] at h
    cases h
    have hline := takeWhile_line ht afterLine_nil
    rwa [List.append_nil] at hline
  · rw [Text.sourceLines_append hu he] at h
    cases h
    exact takeWhile_line hu (afterLine_lineEnd he)

/-- Whether a text is continued is decided by the first of its lines. -/
theorem continued?_eq {t : Text} {first : SourceLine} {below : List SourceLine}
    (h : t.sourceLines = first :: below) :
    continued? t = if first.continued then some first.beforeBar else none := by
  obtain ht | ⟨u, e, r, rfl, hu, he⟩ := t.oneLine_or_exists_lineEnd
  · rw [Text.sourceLines_of_oneLine ht] at h
    cases h
    have hline := takeWhile_line ht afterLine_nil
    rw [List.append_nil] at hline
    simp [continued?, hline, SourceLine.continued]
  · rw [Text.sourceLines_append hu he] at h
    cases h
    have hne : e ≠ [] := Pattern.lineEnd_proper _ _ he
    have hpos : 0 < e.length + r.length := Nat.add_pos_left (List.length_pos_iff.2 hne) _
    simp [continued?, takeWhile_line hu (afterLine_lineEnd he), SourceLine.continued,
      SourceLine.beforeBar, hpos, hne]

namespace Lexer

variable {l : Lexer} {before t m r source : Text}

structure At (l : Lexer) (before rest : Text) : Prop where
  cursor : l.cursor = .counted before rest
  unsplit : Unsplit before rest

/-- The lexer is right behind a token of the given kind, which is the text `m` behind
`before`. -/
structure OnText (l : Lexer) (kind : Token.Kind) (before m rest : Text) : Prop where
  kind : l.kind = kind
  matched : l.token.matched = m
  startsBehind : l.token.StartsBehind (before ++ (m ++ rest)) before
  behind : l.At (before ++ m) rest

theorem Counts.exists_at (h : l.Counts source) :
    ∃ before, source = before ++ l.rest ∧ l.At before l.rest := by
  obtain ⟨before, t, hsource, hs, hc⟩ := h.cursor
  have hrest : l.rest = t := by rw [rest, hc]; rfl
  rw [hrest]
  exact ⟨before, hsource, hc, hs⟩

namespace At

theorem rest_eq (h : l.At before t) : l.rest = t := by
  rw [rest, h.cursor]
  rfl

theorem inStep (h : l.At before t) : l.cursor.InStep (before ++ t) before := by
  obtain ⟨before', hstep⟩ : ∃ before', l.cursor.InStep (before ++ t) before' :=
    Cursor.Counted.inStep ⟨before, t, rfl, h.unsplit, h.cursor⟩
  have hcut := hstep.cut
  rw [← rest, h.rest_eq] at hcut
  rwa [← List.append_cancel_right hcut] at hstep

theorem skip (h : l.At before (m ++ r)) (hm : Unsplit m r) : (l.skip m).At (before ++ m) r := by
  obtain ⟨r', hr, hs⟩ := CutOff.append h.unsplit ⟨r, rfl, hm⟩
  rw [← List.append_assoc] at hr
  refine ⟨?_, List.append_cancel_left hr ▸ hs⟩
  rw [Lexer.skip, h.cursor]
  exact Cursor.skip_counted h.unsplit hm

/-- The next token is the lexeme that stands behind the cursor. -/
theorem next {x : Lexeme} (h : l.At before (x.matched ++ r))
    (hx : Lexeme.read? l.mode (x.matched ++ r) = some x) :
    l.next.OnText x.kind before x.matched r := by
  obtain ⟨r', hr, hs⟩ := Lexeme.read?_cuts hx
  obtain rfl := List.append_cancel_left hr
  have hscan : scan l.mode l.cursor = (⟨x.kind, x.matched, x.text, ⟨before.byteSize,
      before.byteSize + x.matched.byteSize, 1 + before.lineEnds, before.openLine.length + 1⟩⟩,
      .counted (before ++ x.matched) r) := by
    have hread : Lexeme.read? l.mode (Cursor.counted before (x.matched ++ r)).rest = some x := hx
    rw [h.cursor, scan, hread, ← Cursor.skip_counted h.unsplit hs]
    rfl
  refine ⟨?_, ?_, ⟨⟨_, rfl, h.unsplit⟩, ?_, ?_, ?_⟩, ⟨?_, (h.skip hs).unsplit⟩⟩ <;>
    simp only [kind, Lexer.next, hscan]

theorem next_nil (h : l.At before []) : l.next.OnText .eof before [] [] := by
  have hscan : scan l.mode l.cursor = (⟨.eof, [], [], ⟨before.byteSize, before.byteSize,
      1 + before.lineEnds, before.openLine.length + 1⟩⟩, .counted (before ++ []) []) := by
    rw [h.cursor, scan_of_nil rfl, List.append_nil]
    rfl
  have hs : Unsplit (before ++ []) [] := fun hs => by cases hs.2
  refine ⟨?_, ?_, ⟨⟨_, rfl, h.unsplit⟩, ?_, ?_, ?_⟩, ⟨?_, hs⟩⟩ <;>
    simp only [kind, Lexer.next, hscan]

/-- A text within a line is passed. -/
theorem skip_oneLine (h : l.At before (m ++ r)) (hm : OneLine m) : (l.skip m).At (before ++ m) r :=
  h.skip (hm.unsplit r)

/-- Behind the text of a line stands its end. -/
theorem pass_line (h : l.At before t) {first : SourceLine} {below : List SourceLine}
    (hlines : t.sourceLines = first :: below) :
    (l.skip first.text).next.OnText (if first.ending.isEmpty then .eof else .lineEnd)
      (before ++ first.text) first.ending (below.flatMap SourceLine.whole) := by
  obtain ht | ⟨u, e, r, rfl, hu, he⟩ := t.oneLine_or_exists_lineEnd
  · rw [Text.sourceLines_of_oneLine ht] at hlines
    cases hlines
    rw [← List.append_nil t] at h
    exact (h.skip_oneLine ht).next_nil
  · rw [Text.sourceLines_append hu he] at hlines
    cases hlines
    have hne : e.isEmpty = false := by simpa using Pattern.lineEnd_proper _ _ he
    rw [hne, Text.flatMap_whole_sourceLines]
    exact (h.skip_oneLine hu).next (x := ⟨.lineEnd, e, e⟩) (Lexeme.read?_lineEnd he _)

/-- Behind the text before the bar of a continued line stand the bar, blanks and the
end of the line, which are one token. -/
theorem pass_bar (h : l.At before t) (hm : l.mode = .line) {first : SourceLine}
    {below : List SourceLine} (hlines : t.sourceLines = first :: below)
    (hc : first.continued = true) :
    below = Text.sourceLines (below.flatMap SourceLine.whole) ∧
      ∃ b, first.text = first.beforeBar ++ '|' :: b ∧ (∀ c ∈ b, isIndent c = true) ∧
        (l.skip first.beforeBar).next.OnText .continuation (before ++ first.beforeBar)
          ('|' :: (b ++ first.ending)) (below.flatMap SourceLine.whole) := by
  obtain ⟨hending, b, htext, hb⟩ := SourceLine.exists_blanks hc
  obtain ht | ⟨u, e, r, rfl, hu, he⟩ := t.oneLine_or_exists_lineEnd
  · rw [Text.sourceLines_of_oneLine ht] at hlines
    cases hlines
    exact absurd rfl hending
  · rw [Text.sourceLines_append hu he] at hlines
    cases hlines
    rw [Text.flatMap_whole_sourceLines]
    refine ⟨rfl, b, htext, hb, ?_⟩
    generalize hs : (SourceLine.mk u e).beforeBar = s at htext ⊢
    obtain rfl : u = s ++ '|' :: b := htext
    rw [List.append_assoc] at h
    have hread := Lexeme.read?_bar hb he
    rw [← List.cons_append, ← List.append_assoc, List.cons_append, ← hm] at hread
    have hat : (l.skip s).At (before ++ s) ('|' :: (b ++ e) ++ r) := by
      have hskip := h.skip_oneLine fun c hc => hu c (List.mem_append_left _ hc)
      simpa using hskip
    exact hat.next (x := ⟨.continuation, '|' :: (b ++ e), '|' :: (b ++ e)⟩) hread

end At

/-- The lexer has passed a run of continued lines and is on the token that closes the
last of them. -/
def ClosesRun (l : Lexer) (before : Text) (run below : List SourceLine) : Prop :=
  ∃ init last b, run = init ++ [last] ∧ last.text = last.beforeBar ++ '|' :: b ∧
    (∀ c ∈ b, isIndent c = true) ∧
    l.OnText .continuation (before ++ init.flatMap SourceLine.whole ++ last.beforeBar)
      ('|' :: (b ++ last.ending)) (below.flatMap SourceLine.whole)

theorem ClosesRun.cons {first : SourceLine} {run below : List SourceLine}
    (h : l.ClosesRun (before ++ first.whole) run below) :
    l.ClosesRun before (first :: run) below := by
  obtain ⟨init, last, b, rfl, htext, hb, hon⟩ := h
  refine ⟨first :: init, last, b, rfl, htext, hb, ?_⟩
  rwa [List.flatMap_cons, ← List.append_assoc]

/-- A run of continued lines is taken to its end, without the bars. -/
theorem At.takeContinued (h : l.At before t) (hm : l.mode = .line) {first : SourceLine}
    {below : List SourceLine} (hlines : t.sourceLines = first :: below)
    (hc : first.continued = true) :
    (l.takeContinued first.beforeBar).1 =
        (first :: below.takeWhile SourceLine.continued).flatMap SourceLine.beforeBar ∧
      (l.takeContinued first.beforeBar).2.ClosesRun before
        (first :: below.takeWhile SourceLine.continued) (below.dropWhile SourceLine.continued) := by
  generalize hs : first.beforeBar = segment
  fun_induction Lexer.takeContinued l segment generalizing before t first below with
  | case1 l segment l' hk more hmore =>
    rename_i r ih
    subst hs
    obtain ⟨hbelow, b, htext, hb, hon⟩ := h.pass_bar hm hlines hc
    have hwhole : before ++ first.beforeBar ++ '|' :: (b ++ first.ending) =
        before ++ first.whole := by
      simp [SourceLine.whole, htext]
    cases below with
    | nil => cases hbelow
    | cons second below =>
      have hrest : continued? l'.rest = _ := hon.behind.rest_eq ▸ continued?_eq hbelow.symm
      rw [hmore] at hrest
      split at hrest
      · rename_i hsecond
        have hat := hon.behind
        rw [hwhole] at hat
        obtain ⟨htaken, hrun⟩ := ih hat hm hbelow.symm hsecond (Option.some.inj hrest).symm
        rw [List.takeWhile_cons_of_pos hsecond, List.dropWhile_cons_of_pos hsecond,
          List.flatMap_cons]
        exact ⟨by rw [← htaken], hrun.cons⟩
      · cases hrest
  | case2 l segment l' hk =>
    rename_i hmore
    subst hs
    obtain ⟨hbelow, b, htext, hb, hon⟩ := h.pass_bar hm hlines hc
    have hnone : below.takeWhile SourceLine.continued = [] ∧
        below.dropWhile SourceLine.continued = below := by
      cases below with
      | nil => exact ⟨rfl, rfl⟩
      | cons second below =>
        have hrest : continued? l'.rest = _ := hon.behind.rest_eq ▸ continued?_eq hbelow.symm
        rw [hmore] at hrest
        split at hrest
        · cases hrest
        · rename_i hsecond
          exact ⟨List.takeWhile_cons_of_neg hsecond, List.dropWhile_cons_of_neg hsecond⟩
    rw [hnone.1, hnone.2]
    refine ⟨by simp, [], first, b, rfl, htext, hb, ?_⟩
    rw [List.flatMap_nil, List.append_nil]
    exact hon
  | case3 l segment l' =>
    rename_i hk
    subst hs
    obtain ⟨-, b, -, -, hon⟩ := h.pass_bar hm hlines hc
    exact absurd hon.kind hk

/-- From a token that does not end its line the logical line is taken: a run of
continued lines, or else the line itself. -/
theorem At.takeLine (h : l.At before t) (hm : l.mode = .line) (hl : l.endsLine = false) :
    (t.sourceLines.takeWhile SourceLine.continued = [] →
      ∃ first below, t.sourceLines = first :: below ∧
        l.takeLine.1 = l.token.matched ++ first.text ∧
        l.takeLine.2.OnText (if first.ending.isEmpty then .eof else .lineEnd)
          (before ++ first.text) first.ending (below.flatMap SourceLine.whole)) ∧
    (t.sourceLines.takeWhile SourceLine.continued ≠ [] →
      l.takeLine.1 = l.token.matched ++
          (t.sourceLines.takeWhile SourceLine.continued).flatMap SourceLine.beforeBar ∧
        l.takeLine.2.ClosesRun before (t.sourceLines.takeWhile SourceLine.continued)
          (t.sourceLines.dropWhile SourceLine.continued)) := by
  obtain ⟨first, below, hlines⟩ := t.exists_sourceLines
  have hcont := continued?_eq hlines
  rw [← h.rest_eq] at hcont
  rw [hlines]
  cases hc : first.continued with
  | false =>
    rw [hc] at hcont
    have hline : (l.rest.takeWhile fun c => !isLineBreak c) = first.text := by
      rw [h.rest_eq]
      exact Text.firstLine_eq hlines
    have htake : l.takeLine = (l.token.matched ++ first.text, (l.skip first.text).next) := by
      simp [Lexer.takeLine, hl, hcont, hline]
    rw [List.takeWhile_cons_of_neg (by simp [hc]), htake]
    exact ⟨fun _ => ⟨first, below, rfl, rfl, h.pass_line hlines⟩, fun hne => absurd rfl hne⟩
  | true =>
    rw [hc] at hcont
    obtain ⟨htaken, hrun⟩ := h.takeContinued hm hlines hc
    have htake : l.takeLine = (l.token.matched ++ (l.takeContinued first.beforeBar).1,
        (l.takeContinued first.beforeBar).2) := by
      simp [Lexer.takeLine, hl, hcont]
    rw [List.takeWhile_cons_of_pos hc, List.dropWhile_cons_of_pos hc, htake]
    exact ⟨fun hnil => absurd hnil (List.cons_ne_nil _ _), fun _ => ⟨by rw [htaken], hrun⟩⟩

/-- The lexer takes itself to be at the end of the source only if it is there. -/
structure KnowsEnd (source : Text) (l : Lexer) : Prop extends l.Counts source where
  current : l.kind = .eof → l.OnText .eof source [] []
  before : ∀ p, l.previous = some p → p.kind = .eof → l.kind = .eof

theorem knowsEnd_ofText (source : Text) : (ofText source).KnowsEnd source :=
  ⟨counts_ofText source, fun hk => (by cases hk), fun p hp => (by cases hp)⟩

theorem kind_next_eq_eof_iff : l.next.kind = .eof ↔ l.rest = [] := by
  refine ⟨fun hk => ?_, kind_next_of_rest_nil⟩
  by_contra hne
  obtain ⟨x, hx⟩ := Option.ne_none_iff_exists'.1 (mt Lexeme.read?_eq_none.1 hne :
    Lexeme.read? l.mode l.rest ≠ none)
  obtain ⟨_, -, -, hkind, -⟩ := next_of_read? hx
  exact Lexeme.kind_ne_eof hx (hkind ▸ hk)

namespace KnowsEnd

theorem rest_eq_nil (h : l.KnowsEnd source) (hk : l.kind = .eof) : l.rest = [] :=
  (h.current hk).behind.rest_eq

theorem next (h : l.KnowsEnd source) : l.next.KnowsEnd source := by
  refine ⟨h.toCounts.next, fun hk => ?_, ?_⟩
  · obtain ⟨before, hsource, hat⟩ := h.toCounts.exists_at
    rw [kind_next_eq_eof_iff.1 hk] at hsource hat
    rw [List.append_nil] at hsource
    exact hsource ▸ hat.next_nil
  · rintro p ⟨⟩ hk
    exact kind_next_of_rest_nil (h.rest_eq_nil hk)

/-- At the end of the source the cursor does not move. -/
theorem move (h : l.KnowsEnd source) {c : Cursor} (hc : c.Counted source)
    (hnil : l.rest = [] → c = l.cursor) : { l with cursor := c }.KnowsEnd source := by
  refine ⟨⟨hc, h.start, h.token, h.previous⟩, fun hk => ?_, h.before⟩
  rw [hnil (h.rest_eq_nil hk)]
  exact h.current hk

theorem skip (h : l.KnowsEnd source) (m : Text) : (l.skip m).KnowsEnd source := by
  refine h.move (h.cursor.skip m) fun hnil => ?_
  have hstep : l.cursor.step = l.cursor := by
    unfold Cursor.step
    rw [show l.cursor.rest = [] from hnil]
  generalize l.cursor = c at hstep ⊢
  fun_induction Cursor.skip m c with
  | case1 => rfl
  | case2 m c ih => rw [hstep] at ih ⊢; exact ih hstep
  | case3 a m c _ ih => rw [hstep] at ih ⊢; exact ih hstep

theorem inMode (h : l.KnowsEnd source) (mode : Mode) : (l.inMode mode).KnowsEnd source := by
  refine ⟨h.toCounts.act (.setMode mode), fun hk => ?_, h.before⟩
  obtain ⟨hkind, hmatched, hstart, hcursor, hs⟩ := h.current hk
  exact ⟨hkind, hmatched, hstart, hcursor, hs⟩

theorem takeContinued (h : l.KnowsEnd source) (segment : Text) :
    (l.takeContinued segment).2.KnowsEnd source := by
  fun_induction Lexer.takeContinued l segment with
  | case1 l segment l' _ more _ r ih => exact ih (h.skip segment).next
  | case2 l segment => exact (h.skip segment).next
  | case3 l segment => exact (h.skip segment).next

theorem takeLine (h : l.KnowsEnd source) : l.takeLine.2.KnowsEnd source := by
  simp only [Lexer.takeLine]
  split
  · exact h
  · split
    · exact h.takeContinued _
    · exact (h.skip _).next

theorem act (h : l.KnowsEnd source) (a : Action) : (l.act a).KnowsEnd source := by
  cases a with
  | next => exact h.next
  | pushBack =>
    refine ⟨h.toCounts.act .pushBack, ?_, ?_⟩ <;> simp only [Lexer.act, Lexer.pushBack]
    · split
      · exact h.current
      · split
        · exact h.current
        · rename_i hk _ p hp
          exact fun hk' => absurd (h.before p hp hk') hk
    · split
      · exact h.before
      · split
        · exact h.before
        · exact fun p hp => by cases hp
  | lookAhead count => exact h
  | takeLine => exact h.takeLine
  | setMode mode => exact h.inMode mode
  | clearMode => exact h.inMode .line
  | readChar =>
    refine h.move h.cursor.step fun hnil => ?_
    unfold Cursor.step
    rw [show l.cursor.rest = [] from hnil]
  | readExpression =>
    simp only [Lexer.act, Lexer.readExpression]
    split <;> exact h.skip _

theorem perform (h : l.KnowsEnd source) (actions : List Action) :
    (l.perform actions).KnowsEnd source := by
  simp only [Lexer.perform]
  induction actions generalizing l with
  | nil => exact h
  | cons a actions ih => exact ih (h.act a)

end KnowsEnd

/-- Whatever was asked of a lexer before, from a template line it takes exactly the
logical line. The lines are those of the source behind the cursor. If the first of them
is continued, the run of continued lines is taken without the bars and what is behind
them, up to the bar of the last one; otherwise the line is taken, up to its end. Nothing
is left to be taken then. -/
theorem takeLine_takes_logical_line (source : Text) (actions : List Action)
    (hm : ((ofText source).perform actions).mode = .line)
    (hk : ((ofText source).perform actions).kind.breaksLine = false) :
    let l := (ofText source).perform actions
    let lines := l.rest.sourceLines
    let run := lines.takeWhile SourceLine.continued
    ∃ before, source = before ++ lines.flatMap SourceLine.whole ∧
      l.cursor.InStep source before ∧
      (run = [] → ∃ first below, lines = first :: below ∧
        l.takeLine.1 = l.token.matched ++ first.text ∧
        l.takeLine.2.OnText (if first.ending.isEmpty then .eof else .lineEnd)
          (before ++ first.text) first.ending (below.flatMap SourceLine.whole)) ∧
      (run ≠ [] →
        l.takeLine.1 = l.token.matched ++ run.flatMap SourceLine.beforeBar ∧
        l.takeLine.2.ClosesRun before run (lines.dropWhile SourceLine.continued)) ∧
      l.takeLine.2.takeLine = ([], l.takeLine.2) := by
  intro l lines run
  have hknows : l.KnowsEnd source := (knowsEnd_ofText source).perform actions
  obtain ⟨before, hsource, hat⟩ := hknows.toCounts.exists_at
  have hstep := hat.inStep
  rw [← hsource] at hstep
  have hagain : l.takeLine.2.takeLine = ([], l.takeLine.2) :=
    takeLine_of_endsLine (endsLine_takeLine hm)
  refine ⟨before, by rw [Text.flatMap_whole_sourceLines]; exact hsource, hstep, ?_⟩
  rw [← and_assoc]
  refine ⟨?_, hagain⟩
  by_cases he : l.kind = .eof
  · -- The end of the source is where it stands, and nothing is taken.
    have hrest := hknows.rest_eq_nil he
    have htake : l.takeLine = ([], l) := takeLine_of_endsLine (by rw [endsLine, he]; rfl)
    have hon := hknows.current he
    have hlines : lines = [⟨[], []⟩] := by simp only [lines, hrest]; rfl
    rw [hrest, List.append_nil] at hsource
    simp only [run, hlines, htake, hon.matched]
    refine ⟨fun _ => ⟨_, [], rfl, rfl, ?_⟩, fun hne => absurd rfl hne⟩
    rw [List.append_nil, ← hsource]
    exact hon
  · exact hat.takeLine hm (endsLine_eq_false he (by simp [l, hk]))

/-- Two continued lines with different ends, the first taken from within, and a line
that is not continued. -/
theorem takeLine_takes_logical_line_of_three :
    let l := (ofText "%p a |  \r\nb |\rc\n").perform [.next, .next]
    l.mode = .line ∧ l.kind.breaksLine = false ∧ l.takeLine.1 = " a b ".toList ∧
      l.takeLine.2.ClosesRun "%p ".toList
        [⟨"a |  ".toList, "\r\n".toList⟩, ⟨"b |".toList, "\r".toList⟩]
        [⟨"c".toList, "\n".toList⟩, ⟨[], []⟩] := by
  intro l
  have hm : l.mode = .line := rfl
  have hk : l.kind.breaksLine = false := by decide +kernel
  have hlines : l.rest.sourceLines =
      [⟨"a |  ".toList, "\r\n".toList⟩, ⟨"b |".toList, "\r".toList⟩,
        ⟨"c".toList, "\n".toList⟩, ⟨[], []⟩] := by decide +kernel
  have hmatched : l.token.matched = [' '] := by decide +kernel
  obtain ⟨before, hsource, -, -, hrun, -⟩ := takeLine_takes_logical_line _ _ hm hk
  rw [hlines] at hsource hrun
  obtain ⟨htaken, hcloses⟩ := hrun (by decide)
  have hbefore : before = "%p ".toList := List.append_cancel_right (hsource.symm.trans rfl)
  rw [hbefore] at hcloses
  exact ⟨hm, hk, htaken.trans (by rw [hmatched]; decide), hcloses⟩

end Lexer

end Haml
