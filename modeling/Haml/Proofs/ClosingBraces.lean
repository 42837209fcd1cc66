import Haml.Proofs.BlockReading
import Haml.Proofs.CodeLines

/-!
# Closing braces of code lines

Before a code line is taken it is asked whether it closes a block itself: whether, blanks aside,
a closing brace stands behind its hyphen. Line ends are blanks there, and bars are not taken off;
the code of the line ends with its logical line and is without them. So the answer is not always
that of the code. It is wrong in two cases: a line with nothing behind the hyphen is answered for
by the lines below it, and a continued line with nothing but blanks before its bar by the bar.
-/

namespace Haml

namespace Text

def firstVisible? (t : Text) : Option Char := t.find? fun c => !isBlank c

theorem head?_trimStart (t : Text) : t.trimStart.head? = t.firstVisible? := by
  induction t with
  | nil => rfl
  | cons c t ih =>
    cases hc : isBlank c with
    | true => simpa [trimStart, firstVisible?, hc] using ih
    | false => simp [trimStart, firstVisible?, hc]

theorem firstVisible?_append (s t : Text) :
    firstVisible? (s ++ t) = (firstVisible? s).or (firstVisible? t) :=
  List.find?_append

theorem trimStart_eq_nil_iff {t : Text} : t.trimStart = [] ↔ t.firstVisible? = none := by
  rw [← head?_trimStart, List.head?_eq_none_iff]

end Text

/-- Blanks and a closing brace stand at the start of a text if the brace is the first of it
that is not blank. -/
theorem Pattern.isSome_closingBrace_iff (t : Text) :
    (closingBrace t).isSome = true ↔ t.firstVisible? = some '\x7d' := by
  by_cases ht : t.trimStart = []
  · have hblank := isSome_closingBrace_blank ht []
    rw [List.append_nil] at hblank
    rw [hblank, Text.trimStart_eq_nil_iff.1 ht]
    decide
  · have hvisible := isSome_closingBrace (r := []) ht
    rw [List.append_nil, Text.head?_trimStart] at hvisible
    rw [hvisible, beq_iff_eq]

/-- What is taken from the first token of a line on: the run of continued lines that starts
there, without the bars, or the line itself. Nothing is taken of a line that starts with the bar
that continues it. -/
def SourceLine.taken (first : SourceLine) (below : List SourceLine) : Text :=
  if first.continued then
    if first.beforeBar.isEmpty then []
    else (first :: below.takeWhile SourceLine.continued).flatMap SourceLine.beforeBar
  else first.text

/-- A token that does not end its line does not change whether the line is continued. -/
theorem SourceLine.continued_behind_token {x : Lexeme} {r : Text} {s : SourceLine}
    {below : List SourceLine} (hx : Lexeme.read? .line (x.matched ++ r) = some x)
    (hl : x.kind.endsLine = false) (hr : r.sourceLines = s :: below) :
    (s.behind x.matched).continued = s.continued := by
  by_cases hbar : '|' ∈ x.matched
  · rcases Lexeme.bar_of_mem hx hbar with hk | rfl
    · rw [hk] at hl
      cases hl
    by_cases hkept : Text.dropEndWhile isIndent s.text = []
    · -- Behind such a bar the line is blank, so it has no end, or the bar would continue it.
      have hindent : ∀ c ∈ s.text, isIndent c = true := by
        simpa [Text.dropEndWhile] using hkept
      have hend : s.ending = [] := by
        obtain ht | ⟨u, e, r, rfl, hu, he⟩ := r.oneLine_or_exists_lineEnd
        · rw [Text.sourceLines_of_oneLine ht] at hr
          cases hr
          rfl
        · rw [Text.sourceLines_append hu he] at hr
          cases hr
          cases (Lexeme.read?_bar hindent he).symm.trans hx
      simp [continued, behind, hend]
    · simp only [continued, behind, Text.dropEndWhile_append, if_neg hkept,
        List.getLast?_append_of_ne_nil _ hkept]
  · exact continued_behind (unbarred_of_not_mem hbar) s

namespace Lexer

variable {l : Lexer} {before t : Text} {first : SourceLine} {below : List SourceLine}

/-- Of a line whose first token ends it nothing is taken. -/
theorem Begins.taken_of_endsLine (h : l.Begins before t) (hlines : t.sourceLines = first :: below)
    (hl : l.endsLine = true) : first.taken below = [] := by
  have hempty (htext : first.text = []) : first.taken below = [] := by
    simp [SourceLine.taken, SourceLine.continued, htext, Text.dropEndWhile]
  rcases h.cases with ⟨rfl, -⟩ | ⟨x, r, ht, hx, hon⟩
  · cases hlines
    rfl
  rw [endsLine, hon.kind] at hl
  cases hk : x.kind with
  | eof => exact absurd hk (Lexeme.kind_ne_eof hx)
  | lineEnd =>
    refine hempty ?_
    rw [← Text.firstLine_eq hlines]
    cases t with
    | nil => rfl
    | cons c t => simp [Text.firstLine, Lexeme.lineBreak_of_lineEnd hx hk]
  | continuation =>
    obtain ⟨b, e, hm, hb, he⟩ := Lexeme.bar_of_continuation hx hk
    rw [hm] at ht
    obtain ⟨hcontinued, hbefore⟩ := SourceLine.beforeBar_of_bar hlines ht hb he
    simp [SourceLine.taken, hcontinued, hbefore]
  | _ =>
    rw [hk] at hl
    cases hl

/-- From the next token on the rest of the logical line is taken. -/
theorem At.takeLine_next (h : l.At before t) (hm : l.mode = .line)
    (hlines : t.sourceLines = first :: below) : l.next.takeLine.1 = first.taken below := by
  have hbegins := h.begins_next hm
  cases hl : l.next.endsLine with
  | true =>
    rw [takeLine_of_endsLine hl]
    exact (hbegins.taken_of_endsLine hlines hl).symm
  | false =>
    rcases hbegins.cases with ⟨-, heof⟩ | ⟨x, r, rfl, hx, hon⟩
    · exact absurd heof (kind_ne_eof_of_not_endsLine hl)
    have hkind : x.kind.endsLine = false := by
      rw [← hon.kind]
      exact hl
    obtain ⟨s, rest, hr⟩ := r.exists_sourceLines
    rw [Text.sourceLines_behind (Lexeme.inline_of_read? hx hkind).2, hr, List.modifyHead_cons]
      at hlines
    obtain ⟨rfl, rfl⟩ := List.cons.inj hlines
    have hcontinued := SourceLine.continued_behind_token hx hkind hr
    obtain ⟨hline, hrun⟩ := hon.behind.takeLine hm hl
    rw [hr, hon.matched] at hline hrun
    cases hc : s.continued with
    | false =>
      obtain ⟨first, below, heq, htaken, -⟩ := hline (List.takeWhile_cons_of_neg (by simp [hc]))
      cases heq
      simp only [SourceLine.taken, hcontinued, hc, Bool.false_eq_true, if_false]
      exact htaken
    | true =>
      rw [List.takeWhile_cons_of_pos hc] at hrun
      have hbefore := SourceLine.beforeBar_behind (m := x.matched) hc
      have hne : (s.behind x.matched).beforeBar.isEmpty = false := by
        simp [hbefore, Lexeme.matched_ne_nil hx]
      simp only [SourceLine.taken, hcontinued, hc, hne, Bool.false_eq_true, if_false, if_true]
      rw [(hrun (List.cons_ne_nil _ _)).1, List.flatMap_cons, List.flatMap_cons, hbefore,
        List.append_assoc]

end Lexer

namespace SourceLine

variable {t : Text} {first : SourceLine} {below : List SourceLine}

/-- A continued line has at least its bar to be seen, and a text starts with that line. -/
theorem firstVisible?_of_continued (hlines : t.sourceLines = first :: below)
    (hc : first.continued = true) :
    first.text.firstVisible? = first.beforeBar.firstVisible?.or (some '|') ∧
      t.firstVisible? = first.beforeBar.firstVisible?.or (some '|') := by
  obtain ⟨-, b, htext, -⟩ := exists_blanks hc
  have hbar : first.text.firstVisible? = first.beforeBar.firstVisible?.or (some '|') := by
    rw [htext, Text.firstVisible?_append]
    rfl
  refine ⟨hbar, ?_⟩
  rw [Text.eq_of_sourceLines hlines, Text.firstVisible?_append, hbar, Option.or_assoc]
  rfl

/-- A text and what is taken of it differ in whether they start with a closing brace in two
cases: the first line is blank, or nothing but blanks stands before its bar. -/
theorem brace_of_taken (hlines : t.sourceLines = first :: below) :
    (t.firstVisible? = some '\x7d' ∧ Text.firstVisible? (first.taken below) ≠ some '\x7d' ↔
      first.text.firstVisible? = none ∧ t.firstVisible? = some '\x7d') ∧
    (t.firstVisible? ≠ some '\x7d' ∧ Text.firstVisible? (first.taken below) = some '\x7d' ↔
      first.continued = true ∧ first.beforeBar ≠ [] ∧ first.beforeBar.firstVisible? = none ∧
        Text.firstVisible? ((below.takeWhile SourceLine.continued).flatMap
          SourceLine.beforeBar) = some '\x7d') := by
  cases hc : first.continued with
  | false =>
    have htaken : first.taken below = first.text := by simp [taken, hc]
    have ht : t.firstVisible? = first.text.firstVisible?.or
        (Text.firstVisible? (first.ending ++ below.flatMap SourceLine.whole)) := by
      rw [← Text.firstVisible?_append, ← Text.eq_of_sourceLines hlines]
    rw [htaken, ht]
    cases first.text.firstVisible? <;> simp
  | true =>
    obtain ⟨htext, ht⟩ := firstVisible?_of_continued hlines hc
    rw [htext, ht]
    by_cases hempty : first.beforeBar = []
    · have htaken : first.taken below = [] := by simp [taken, hc, hempty]
      simp [htaken, hempty, Text.firstVisible?]
    · have htaken : Text.firstVisible? (first.taken below) = first.beforeBar.firstVisible?.or
          (Text.firstVisible? ((below.takeWhile SourceLine.continued).flatMap
            SourceLine.beforeBar)) := by
        rw [← Text.firstVisible?_append]
        simp [taken, hc, hempty]
      rw [htaken]
      cases first.beforeBar.firstVisible? <;> simp [hempty]

end SourceLine

namespace Lexer

variable {l : Lexer} {source : Text}

/-- A hyphen is a token of one character. -/
theorem OnToken.at_minus (h : l.OnToken source) (hk : l.kind = .minus) :
    ∃ before, source = before ++ '-' :: l.rest ∧ l.At (before ++ ['-']) l.rest := by
  rcases h.cases with ⟨heof, -⟩ | ⟨mode, before, x, r, hx, hkind, -, -, hs, hc⟩
  · rw [heof] at hk
    cases hk
  have hminus := Lexeme.matched_of_minus hx (hkind.symm.trans hk)
  rw [hminus] at hc hs
  have hrest : l.rest = r := congrArg (·.rest) hc
  obtain ⟨before', r', hsource, hs', hc'⟩ := h.counts.cursor
  have hwhole : source = before ++ ['-'] ++ r := by
    rw [hsource]
    exact (congrArg (·.source) hc').symm.trans (congrArg (·.source) hc)
  rw [hrest]
  refine ⟨before, by simpa using hwhole, hc, ?_⟩
  exact unsplit_of_getLast? (by simp) r

end Lexer

/-- The instructions of closings: they write markup or end a block. -/
theorem ElementStack.mem_close {s : ElementStack} {d : Nat} {u : Upcoming} {i : Instruction}
    (h : .emit i ∈ (s.close d u).1) :
    i.isMarkup = true ∨ (∃ n, i = .depth n) ∨ ∃ kind, i = .closeBlock kind u := by
  rw [close_events, List.mem_flatMap] at h
  obtain ⟨⟨n, e⟩, -, h⟩ := h
  have hi : i ∈ .depth n :: e.closing n (s.framesLines n) u := by
    simpa [closingEvents] using h
  rcases List.mem_cons.1 hi with rfl | hi
  · exact .inr (.inl ⟨n, rfl⟩)
  cases e with
  | block kind => exact .inr (.inr ⟨kind, List.mem_singleton.1 hi⟩)
  | comment newline =>
    rw [List.mem_singleton.1 hi]
    exact .inl rfl
  | conditional newline =>
    rw [List.mem_singleton.1 hi]
    exact .inl rfl
  | tag name options =>
    left
    have hall : ((Element.tag name options).closing n (s.framesLines n) u).all
        Instruction.isMarkup = true := by
      simp only [Element.closing]
      cases options.inner <;> cases options.outer && s.framesLines n <;> rfl
    exact List.all_eq_true.1 hall i hi

namespace Context

/-- What a code line tells the writer: to end blocks, which it asks of its own place, and to run
its code. -/
theorem mem_step_of_minus (ctx : Context) (stack : ElementStack) {l : Lexer}
    (hk : l.passSpace.kind = .minus) :
    (∀ kind u, .emit (.closeBlock kind u) ∈ (ctx.step stack l).events →
      u = l.passSpace.upcoming) ∧
    ∀ code newline, .emit (.code code newline) ∈ (ctx.step stack l).events ↔
      code = l.passSpace.next.takeLine.1 ∧
        newline = l.passSpace.next.takeLine.2.token.newline := by
  have hend : l.passSpace.endsLine = false := by
    rw [Lexer.endsLine, hk]
    rfl
  have hv := Lexer.readLine_minus hk l.token.depth
  have hprobes : (l.passSpace.readLine l.token.depth).probes = [] := by
    simp only [Lexer.readLine_eq, hk]
  have hstep : ctx.step stack l = _ := step_of_line hend (by simp [hk]) hv
  simp only [lineStep_of_ok hv, hprobes, Line.events, Line.instructions] at hstep
  have hopened (e : Option Element) (i : Instruction) :
      .emit i ∉ (e.map (Event.opened l.token.depth)).toList := by
    cases e <;> simp
  have hmem (i : Instruction) : .emit i ∈ (ctx.step stack l).events ↔
      i = .depth l.token.depth ∨
        .emit i ∈ (stack.close l.token.depth l.passSpace.upcoming).1 ∨
        i = .code l.passSpace.next.takeLine.1 l.passSpace.next.takeLine.2.token.newline := by
    rw [hstep]
    simp only [List.mem_cons, List.mem_append, List.map_nil, List.map_cons, List.not_mem_nil,
      Event.emit.injEq, hopened, false_or, or_false]
    grind
  constructor
  · intro kind u hclose
    rcases (hmem _).1 hclose with hclose | hclose | hclose
    · cases hclose
    · rcases ElementStack.mem_close hclose with hmarkup | ⟨n, hdepth⟩ | ⟨kind', hblock⟩
      · cases hmarkup
      · cases hdepth
      · exact (Instruction.closeBlock.inj hblock).2
    · cases hclose
  · intro code newline
    rw [hmem, ← Instruction.code.injEq]
    refine ⟨?_, fun hcode => .inr (.inr hcode)⟩
    rintro (hdepth | hclose | hcode)
    · cases hdepth
    · rcases ElementStack.mem_close hclose with hmarkup | ⟨n, hdepth⟩ | ⟨kind', hblock⟩
      · cases hmarkup
      · cases hdepth
      · cases hblock
    · exact hcode

/-- Wherever a run has come to a code line that ends a block, the block is left for the line to
close if the source behind the hyphen starts, blanks aside, with a closing brace. The code of the
line is what is taken of the line behind the hyphen. Both start with a closing brace or neither
does, but for two cases. If nothing but blanks stands on the line, the block is left to it because
of a brace on a line below, which is not part of its code. If nothing but blanks stands before the
bar of a continued line, the block is closed although the code that goes on below starts with a
brace. -/
theorem closing_brace_asked_of_source (ctx : Context) (source : Text) {events : List Event}
    {stack : ElementStack} {l : Lexer} {kind : BlockKind} {u : Upcoming}
    (h : ctx.Steps {} (Lexer.ofText source).next events stack l)
    (hk : l.passSpace.kind = .minus)
    (hclose : .emit (.closeBlock kind u) ∈ (ctx.step stack l).events) :
    ∃ before first below code newline, source = before ++ '-' :: u.rest ∧
      u.rest.sourceLines = first :: below ∧
      (∀ c n, .emit (.code c n) ∈ (ctx.step stack l).events ↔ c = code ∧ n = newline) ∧
      code = first.taken below ∧
      (Script.closesBlock u = true ∧ code.firstVisible? ≠ some '\x7d' ↔
        first.text.firstVisible? = none ∧ u.rest.firstVisible? = some '\x7d') ∧
      (Script.closesBlock u = false ∧ code.firstVisible? = some '\x7d' ↔
        first.continued = true ∧ first.beforeBar ≠ [] ∧ first.beforeBar.firstVisible? = none ∧
          Text.firstVisible? ((below.takeWhile SourceLine.continued).flatMap
            SourceLine.beforeBar) = some '\x7d') := by
  obtain ⟨hupcoming, hcode⟩ := mem_step_of_minus ctx stack hk
  obtain rfl := hupcoming kind u hclose
  have htoken := (h.betweenLines (.inl (Lexer.atLine_ofText source)) rfl).onToken.passSpace
  obtain ⟨before, hsource, hat⟩ := htoken.at_minus hk
  obtain ⟨first, below, hlines⟩ := l.passSpace.rest.exists_sourceLines
  have hmode : l.passSpace.mode = .line := (Lexer.reaches_passSpace l).mode (h.mode rfl)
  have htaken := hat.takeLine_next hmode hlines
  have hcloses : Script.closesBlock l.passSpace.upcoming = true ↔
      l.passSpace.rest.firstVisible? = some '\x7d' := by
    rw [Lexer.closesBlock_upcoming hk, Pattern.isSome_closingBrace_iff]
  have hopen : Script.closesBlock l.passSpace.upcoming = false ↔
      l.passSpace.rest.firstVisible? ≠ some '\x7d' := by
    rw [ne_eq, ← hcloses, Bool.not_eq_true]
  refine ⟨before, first, below, _, _, hsource, hlines, hcode, htaken, ?_⟩
  rw [hcloses, hopen, htaken]
  exact SourceLine.brace_of_taken hlines

/-- A brace before the bar of a continued line. -/
theorem closing_brace_asked_of_continued_line :
    let source : Text := "- if (a) \x7b\n-  \x7d |\n  else \x7b |\nx\n"
    let ctx : Context := ⟨false, .builtin⟩
    let first := ctx.step {} (Lexer.ofText source).next
    let l := first.lexer
    let u := l.passSpace.upcoming
    let step := ctx.step first.stack l
    ctx.Steps {} (Lexer.ofText source).next first.events first.stack l ∧
      l.passSpace.kind = .minus ∧ .emit (.closeBlock .code u) ∈ step.events ∧
      Script.closesBlock u = true ∧
      ∃ code newline, .emit (.code code newline) ∈ step.events ∧
        code.firstVisible? = some '\x7d' := by
  intro source ctx first l u step
  have hsteps : ctx.Steps {} (Lexer.ofText source).next first.events first.stack l :=
    .single (by decide +kernel) (by decide +kernel)
  have hk : l.passSpace.kind = .minus := by decide +kernel
  have hclose : .emit (.closeBlock .code u) ∈ step.events := by decide +kernel
  have hcloses : Script.closesBlock u = true := by decide +kernel
  obtain ⟨before, line, below, code, newline, -, hlines, hcode, -, hdiffer, -⟩ :=
    closing_brace_asked_of_source ctx source hsteps hk hclose
  refine ⟨hsteps, hk, hclose, hcloses, code, newline, (hcode _ _).2 ⟨rfl, rfl⟩, ?_⟩
  by_contra hbrace
  have hblank := (hdiffer.1 ⟨hcloses, hbrace⟩).1
  have hline : u.rest.sourceLines.head?.map (·.text.firstVisible?) = some (some '\x7d') := by
    decide +kernel
  rw [hlines, List.head?_cons, Option.map_some, hblank] at hline
  cases hline

/-- A lone hyphen above a brace leaves the block open, and a bar behind a hyphen closes it
twice. -/
theorem closing_brace_not_of_code :
    let ctx : Context := ⟨false, .builtin⟩
    let lone : Text := "- if (a) \x7b\n-\n\x7d\n"
    let barred : Text := "- if (a) \x7b\n- |\n  \x7d |\nx\n"
    let first (t : Text) := ctx.step {} (Lexer.ofText t).next
    let second (t : Text) := ctx.step (first t).stack (first t).lexer
    let asked (t : Text) := (first t).lexer.passSpace.upcoming
    (.emit (.closeBlock .code (asked lone)) ∈ (second lone).events ∧
      Script.closesBlock (asked lone) = true ∧
      .emit (.code [] "\n") ∈ (second lone).events) ∧
    .emit (.closeBlock .code (asked barred)) ∈ (second barred).events ∧
      Script.closesBlock (asked barred) = false ∧
      .emit (.code "   \x7d " "\n") ∈ (second barred).events := by
  decide +kernel

end Context

end Haml
