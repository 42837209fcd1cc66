import Haml.Proofs.AttributeReading
import Haml.Proofs.BlockReading
import Haml.Proofs.Nesting

/-!
# Tags that close themselves

A tag that may close itself, has nothing on its line and is not told to do so looks at the line
right below it. It closes itself if there is no such line or if that line is not indented deeper;
a blank line counts as any other by its indentation, and the lines below it are not asked.
-/

namespace Haml

def Event.opening? : Event → Option (Nat × Element)
  | .opened depth e => some (depth, e)
  | _ => none

/-- The step writes the tag with the given ending. It leaves the given element open at `depth`,
or nothing beside what was left open by the closings before it. -/
structure Step.WritesTag (s : Step) (cleared : ElementStack) (depth : Nat) (head : TagHead)
    (ending : Text) (element : Option Element) : Prop where
  markup : [.emit (.markup ("<" ++ head.name)), .emit head.attributeInstruction,
    .emit (.markup ending)] <:+: s.events
  opened : s.events.filterMap Event.opening? = (element.map (depth, ·)).toList
  stack : s.stack = (element.map (cleared.set depth)).getD cleared

/-- The tag is written with its end, and nothing is left open. -/
def Step.ClosesTag (s : Step) (cleared : ElementStack) (depth : Nat) (head : TagHead) : Prop :=
  s.WritesTag cleared depth head "/>" none

/-- The tag is written without an end, and its element is left open. -/
def Step.OpensTag (s : Step) (cleared : ElementStack) (depth : Nat) (head : TagHead) : Prop :=
  s.WritesTag cleared depth head ">" (some (.tag head.name head.options))

/-- A tag is not written in both ways. -/
theorem Step.ClosesTag.not_opensTag {s : Step} {cleared : ElementStack} {depth : Nat}
    {head : TagHead} (h : s.ClosesTag cleared depth head) : ¬s.OpensTag cleared depth head := by
  intro h'
  cases h.opened.symm.trans h'.opened

theorem Step.WritesTag.closesTag_iff {s : Step} {cleared : ElementStack} {depth : Nat}
    {head : TagHead} {closes : Bool} (h : s.WritesTag cleared depth head
      (if closes then "/>" else ">")
      (if closes then none else some (.tag head.name head.options))) :
    (s.ClosesTag cleared depth head ↔ closes = true) ∧
      (s.OpensTag cleared depth head ↔ closes = false) := by
  cases closes with
  | true =>
    have hcloses : s.ClosesTag cleared depth head := h
    exact ⟨iff_of_true hcloses rfl, iff_of_false hcloses.not_opensTag (by simp)⟩
  | false =>
    have hopens : s.OpensTag cleared depth head := h
    exact ⟨iff_of_false (fun hcloses => hcloses.not_opensTag hopens) (by simp),
      iff_of_true hopens rfl⟩

namespace Event

theorem filterMap_opening?_emit (is : List Instruction) :
    (is.map emit).filterMap opening? = [] := by
  rw [List.filterMap_map, List.filterMap_eq_nil_iff]
  intro i _
  rfl

theorem filterMap_opening?_opened (depth : Nat) (element : Option Element) :
    (element.map (opened depth)).toList.filterMap opening? = (element.map (depth, ·)).toList := by
  cases element <;> rfl

end Event

theorem ElementStack.filterMap_opening?_close (s : ElementStack) (d : Nat) (u : Upcoming) :
    (s.close d u).1.filterMap Event.opening? = [] := by
  rw [close_events, List.filterMap_flatMap, List.flatMap_eq_nil_iff]
  intro p _
  rw [closingEvents, List.filterMap_cons_none rfl, Event.filterMap_opening?_emit]

theorem TagHead.infix_opening (head : TagHead) (depth : Nat) (framed : Bool) :
    [.markup ("<" ++ head.name), head.attributeInstruction,
      .markup (if head.options.selfClosing then "/>" else ">")] <:+: head.opening depth framed := by
  rw [opening, List.append_assoc]
  refine List.IsInfix.trans ?_ (List.suffix_append _ _).isInfix
  cases head.options.selfClosing with
  | true => exact (List.prefix_append _ _).isInfix
  | false => exact (List.prefix_append _ _).isInfix

theorem Lexer.kind_of_startsTag {l : Lexer} (h : l.startsTag = true) :
    l.kind ∈ Lexeme.lineKinds ∧ l.kind ≠ .filter := by
  simp only [startsTag, Bool.or_eq_true, decide_eq_true_eq] at h
  rcases h with (h | h) | h <;> rw [h] <;> decide

namespace Context

variable {ctx : Context} {stack : ElementStack} {l : Lexer} {head : TagHead} {contents : Contents}

/-- How a tag is written, and whether it is left open, is up to what its head says. -/
theorem writesTag_step
    (hv : (l.passSpace.readLine l.token.depth).value = .ok (.tag head contents)) :
    (ctx.step stack l).WritesTag (stack.close l.token.depth l.passSpace.upcoming).2 l.token.depth
      head (if head.options.selfClosing then "/>" else ">")
      (if head.options.selfClosing then none else some (.tag head.name head.options)) := by
  obtain ⟨ht, -⟩ := Lexer.tag_of_readLine hv
  have hstep : ctx.step stack l = _ :=
    step_of_line (Lexer.endsLine_of_startsTag ht) (Lexer.kind_of_startsTag ht).2 hv
  simp only [lineStep_of_ok hv] at hstep
  refine ⟨?_, ?_, ?_⟩
  · obtain ⟨framed, hevents⟩ := infix_step ctx stack ht hv
    exact ((head.infix_opening l.token.depth framed).map Event.emit).trans hevents
  · have hscanned (ps : List Probe) :
        (ps.map fun p => Event.emit (.scanned p)).filterMap Event.opening? = [] := by
      simpa using Event.filterMap_opening?_emit (ps.map .scanned)
    rw [hstep]
    simp only [List.filterMap_cons_none (show Event.opening? (.emit _) = none from rfl),
      List.filterMap_append, ElementStack.filterMap_opening?_close, hscanned, Line.events,
      TagHead.events, Event.filterMap_opening?_emit, Event.filterMap_opening?_opened,
      List.nil_append, List.append_nil]
    rfl
  · rw [hstep]
    rfl

end Context

namespace Lexer

variable {l m : Lexer} {before t source : Text} {s : SourceLine} {below : List SourceLine}
  {depth : Nat} {head : TagHead}

/-- The marks of a tag start with a slash exactly if it is told to close itself. -/
theorem selfClosing_readMarks (l : Lexer) : l.readMarks.1.selfClosing = (l.kind == .slash) := by
  have hmarks (o : TagOptions) (l : Lexer) :
      (l.readSpaceMarks o).1.selfClosing = o.selfClosing := by
    fun_induction readSpaceMarks o l with
    | case1 o l _ ih => exact ih
    | case2 o l _ _ ih => exact ih
    | case3 => rfl
  rw [readMarks]
  split
  · rename_i hk
    rw [hmarks, hk]
    rfl
  · rename_i hk
    rw [hmarks]
    simp [hk]

/-- A tag that may close itself and is not told to does so if it has no contents. -/
theorem selfClosing_of_readTag (hv : (l.readTag depth).value = .ok head)
    (hname : isSelfClosingName head.name = true)
    (hslash : l.behindList.readAttributeHash.lexer.kind ≠ .slash) :
    head.options.selfClosing = !(l.readTag depth).lexer.hasContents depth := by
  have hunmarked : l.tagMarks.1.selfClosing = false := by
    rw [tagMarks, selfClosing_readMarks]
    simp [hslash]
  obtain ⟨pairs, entries, hl, hh⟩ := ok_of_readTag hv
  rw [lexer_readTag hv]
  rw [readTag_of_ok depth hl hh, hunmarked] at hv
  cases hv
  simp only [Bool.false_or]
  rw [hname, Bool.true_and]

namespace Begins

/-- Behind a head with nothing on its line, what it has for contents is a deeper line below. -/
theorem hasContents (h : l.Begins before t) (hlines : t.sourceLines = s :: below)
    (hinline : l.hasInlineContents = false) (depth : Nat) :
    l.hasContents depth = below.head?.any (depth < ·.depth) := by
  have hgap : s.gap = true := by
    rw [hasInlineContents_eq, h.endsLine_passSpace hlines] at hinline
    simpa using hinline
  rcases h.pass_gap hlines hgap with ⟨hk, rfl⟩ | ⟨hk, hnext, hbelow⟩
  · rw [Lexer.hasContents, hinline, Bool.false_or]
    by_cases hs : l.kind = .space
    · -- Two moves on from the last blanks stands the end of the source once more.
      have hnext : l.next.kind = .eof := by rwa [Lexer.passSpace, if_pos hs] at hk
      have hlength := rest_length_next_le l
      rw [kind_next_eq_eof_iff.1 hnext] at hlength
      have hnil : l.next.rest = [] := List.length_eq_zero_iff.1 (Nat.le_zero.1 hlength)
      have hlast : l.next.next.token.kind = .eof := kind_next_of_rest_nil hnil
      have hdepth : (l.lookAhead 2).depth = 0 := by
        rw [lookAhead, lookAhead, lookAhead, Token.depth, hlast]
        rfl
      rw [hs, hdepth]
      rfl
    · rw [Lexer.passSpace, if_neg hs] at hk
      rw [hk]
      rfl
  · obtain ⟨first, rest, hfirst⟩ := Text.exists_sourceLines (below.flatMap SourceLine.whole)
    rw [hasContents_of_line_end hinline (kind_ne_eof_of_breaksLine hk),
      (hnext.passSpace hfirst).1]
    rw [hbelow] at hfirst
    rw [hfirst]
    rfl

theorem start (h : l.Begins before t) : l.token.span.start = before.byteSize := by
  have hscanned := h.scanned
  simp only [scan] at hscanned
  split at hscanned <;> exact congrArg (·.1.span.start) hscanned.symm

/-- On the last token the text is read to its end. -/
theorem eq_nil (h : l.Begins before t) (hk : l.kind = .eof) : t = [] := by
  rcases h.cases with ⟨hnil, -⟩ | ⟨x, r, -, hx, hon⟩
  · exact hnil
  · exact absurd (hon.kind.symm.trans hk) (Lexeme.kind_ne_eof hx)

theorem position_of_nil (h : l.Begins before []) : l.cursor.position = before.byteSize := by
  have hscanned := h.scanned
  rw [scan_of_nil rfl] at hscanned
  exact congrArg (·.2.position) hscanned.symm

theorem start_lt (h : l.Begins before t) (hk : l.kind ≠ .eof) :
    before.byteSize < l.cursor.position := by
  rcases h.cases with ⟨-, heof⟩ | ⟨x, r, -, hx, hon⟩
  · exact absurd heof hk
  · have hposition : l.cursor.position = Text.byteSize (before ++ x.matched) :=
      congrArg (·.position) hon.behind.cursor
    have hpos : x.matched.byteSize ≠ 0 := mt Text.byteSize_eq_zero.1 (Lexeme.matched_ne_nil hx)
    rw [hposition, Text.byteSize_append]
    omega

end Begins

/-- Behind a head with nothing on its line stands the line below it, or the end of the source. -/
theorem OnToken.line_below (h : m.OnToken source) (hm : m.mode = .line)
    (hinline : m.hasInlineContents = false) (depth : Nat) :
    ∃ upto below, source.sourceLines = upto ++ below ∧
      m.passSpace.passLineEnd.Begins (upto.flatMap SourceLine.whole)
        (below.flatMap SourceLine.whole) ∧
      m.cursor.position ≤ Text.byteSize (upto.flatMap SourceLine.whole) ∧
      m.hasContents depth = below.head?.any (depth < ·.depth) := by
  have hends : m.passSpace.endsLine = true := by simpa [hasInlineContents_eq] using hinline
  have hkind : m.kind = .space ∨ m.endsLine = true := by
    by_cases hs : m.kind = .space
    · exact .inl hs
    · rw [Lexer.passSpace, if_neg hs] at hends
      exact .inr hends
  have hle := (reaches_passSpace m).position_le
  obtain ⟨before, rest, hsource, hbegins⟩ := h.begins hm (hkind.imp_right .inl)
  obtain ⟨s, below, hlines⟩ := rest.exists_sourceLines
  have hcontents := hbegins.hasContents hlines hinline depth
  have hgap : s.gap = true := (hbegins.endsLine_passSpace hlines).symm.trans hends
  rcases hbegins.pass_gap hlines hgap with ⟨hk, rfl⟩ | ⟨hk, hnext, hbelow⟩
  · obtain ⟨-, -, r, hr, -, -, hlast⟩ := hbegins.passSpace hlines
    obtain rfl := hlast.eq_nil hk
    have hwhole : before ++ s.indentation = source := by rw [hsource, hr, List.append_nil]
    rw [hwhole] at hlast
    refine ⟨source.sourceLines, [], (List.append_nil _).symm, ?_, ?_, hcontents⟩
    · rw [Text.flatMap_whole_sourceLines, Lexer.passLineEnd,
        if_neg (by simp [hk, Token.Kind.breaksLine])]
      exact hlast
    · rw [Text.flatMap_whole_sourceLines, ← hlast.position_of_nil]
      exact hle
  · have hstart : m.passSpace.passLineEnd.token.span.start = m.passSpace.cursor.position := by
      rw [Lexer.passLineEnd, if_pos hk, start_next]
    have hopen : Text.openLine (before ++ s.whole) = [] := by
      have hcolumn := hnext.column
      rw [Lexer.passLineEnd, if_pos hk, column_next, h.passSpace.column_of_breaksLine hk] at hcolumn
      exact List.length_eq_zero_iff.1 (Nat.succ.inj hcolumn).symm
    obtain ⟨upto, hsplit, hwhole⟩ := Text.sourceLines_split hnext.unsplit hopen
    have hcut : source = before ++ s.whole ++ below.flatMap SourceLine.whole := by
      rw [hsource, Text.eq_of_sourceLines hlines]
      simp [SourceLine.whole]
    refine ⟨upto, below, ?_, ?_, ?_, hcontents⟩
    · rw [hcut, hsplit, hbelow]
    · rw [hwhole]
      exact hnext
    · rw [hwhole, ← hnext.start, hstart]
      exact hle

end Lexer

/-- Of two places in a list of lines the later one has the lines of the earlier one before it. -/
theorem exists_lines_between {above lines upto below : List SourceLine}
    (h : above ++ lines = upto ++ below)
    (hlt : Text.byteSize (above.flatMap SourceLine.whole) <
      Text.byteSize (upto.flatMap SourceLine.whole)) :
    ∃ first more, upto = above ++ first :: more ∧ lines = first :: more ++ below := by
  rcases List.append_eq_append_iff.1 h with ⟨own, hupto, hlines⟩ | ⟨own, habove, -⟩
  · cases own with
    | nil =>
      rw [hupto, List.append_nil] at hlt
      exact absurd hlt (Nat.lt_irrefl _)
    | cons first more => exact ⟨first, more, hupto, hlines⟩
  · rw [habove, List.flatMap_append, Text.byteSize_append] at hlt
    omega

namespace Context

variable {ctx : Context} {source : Text} {events : List Event} {stack : ElementStack} {l : Lexer}
  {head : TagHead} {contents : Contents}

/-- A run that has come to a tag is on the first of the lines that the head of the tag stands
on. Behind the last of them stands the line that is looked at. -/
theorem Steps.lines_of_tag (h : ctx.Steps {} (Lexer.ofText source).next events stack l)
    (hv : (l.passSpace.readLine l.token.depth).value = .ok (.tag head contents))
    (hinline : (l.passSpace.readTag l.token.depth).lexer.hasInlineContents = false) :
    let behind := (l.passSpace.readTag l.token.depth).lexer
    ∃ above first more below, source.sourceLines = above ++ first :: more ++ below ∧
      l.Begins (above.flatMap SourceLine.whole)
        ((first :: more ++ below).flatMap SourceLine.whole) ∧
      first.depth = l.token.depth ∧
      behind.passSpace.passLineEnd.Begins ((above ++ first :: more).flatMap SourceLine.whole)
        (below.flatMap SourceLine.whole) ∧
      behind.hasContents l.token.depth = below.head?.any (l.token.depth < ·.depth) := by
  intro behind
  obtain ⟨ht, htag⟩ := Lexer.tag_of_readLine hv
  have hend := Lexer.endsLine_of_startsTag ht
  have htoken := (h.betweenLines (.inl (Lexer.atLine_ofText source)) rfl).onToken.passSpace
  obtain ⟨-, hbehind, hmarks, -⟩ := htoken.readTag htag
  have hreaches : l.Reaches behind := by
    rw [show behind = _ from hmarks]
    exact (Lexer.reaches_passSpace l).trans (Lexer.reaches_tagMarks _)
  obtain ⟨above, lines, hsource, hlines, hbegins⟩ := h.begins (Lexer.kind_of_startsTag ht).1 hend
  obtain ⟨upto, below, hsource', hnext, hle, hcontents⟩ :=
    hbehind.line_below (hreaches.mode (h.mode rfl)) hinline l.token.depth
  have hlt : Text.byteSize (above.flatMap SourceLine.whole) < l.cursor.position := by
    refine hbegins.start_lt fun hk => ?_
    have hpass : l.passSpace = l := if_neg (by simp [hk])
    rw [hpass, Lexer.endsLine, hk] at hend
    cases hend
  obtain ⟨first, more, rfl, rfl⟩ := exists_lines_between (hsource.symm.trans hsource')
    (Nat.lt_of_lt_of_le hlt (Nat.le_trans hreaches.position_le hle))
  exact ⟨above, first, more, below, hsource', hbegins, (hbegins.passSpace hlines).1.symm, hnext,
    hcontents⟩

/-- Wherever a run has come to, take a tag of a name that may close itself, without a slash
behind its attributes and with nothing else on the line on which its head ends. The tag closes
itself exactly if there is no line right below, or if that line is not indented deeper than the
tag; otherwise its element is left open. The run goes on with the line right below. -/
theorem tag_closes_itself_by_line_below (ctx : Context) (source : Text) {events : List Event}
    {stack : ElementStack} {l : Lexer} {head : TagHead} {contents : Contents}
    (h : ctx.Steps {} (Lexer.ofText source).next events stack l)
    (hv : (l.passSpace.readLine l.token.depth).value = .ok (.tag head contents))
    (hname : isSelfClosingName head.name = true)
    (hslash : l.passSpace.behindList.readAttributeHash.lexer.kind ≠ .slash)
    (hinline : (l.passSpace.readTag l.token.depth).lexer.hasInlineContents = false) :
    let depth := l.token.depth
    let cleared := (stack.close depth l.passSpace.upcoming).2
    let step := ctx.step stack l
    ∃ above first more below, source.sourceLines = above ++ first :: more ++ below ∧
      l.Begins (above.flatMap SourceLine.whole)
        ((first :: more ++ below).flatMap SourceLine.whole) ∧
      first.depth = depth ∧ step.fault = none ∧
      step.lexer.Begins ((above ++ first :: more).flatMap SourceLine.whole)
        (below.flatMap SourceLine.whole) ∧
      (step.ClosesTag cleared depth head ↔ ∀ s ∈ below.head?, s.depth ≤ depth) ∧
      (step.OpensTag cleared depth head ↔ ∃ s ∈ below.head?, depth < s.depth) := by
  intro depth cleared step
  obtain ⟨ht, htag⟩ := Lexer.tag_of_readLine hv
  obtain ⟨above, first, more, below, hsource, hbegins, hdepth, hnext, hcontents⟩ :=
    h.lines_of_tag hv hinline
  have hstep : ctx.step stack l = _ :=
    step_of_line (Lexer.endsLine_of_startsTag ht) (Lexer.kind_of_startsTag ht).2 hv
  simp only [lineStep_of_ok hv] at hstep
  have hlexer : step.lexer = (l.passSpace.readTag depth).lexer.passSpace.passLineEnd := by
    have hline := congrArg Reading.lexer (Lexer.readLine_tag ht htag)
    rw [Lexer.lexer_readContents_of_line_end hinline] at hline
    rw [← hline]
    exact congrArg Step.lexer hstep
  have hwrites : step.WritesTag cleared depth head _ _ := writesTag_step hv
  obtain ⟨hcloses, hopens⟩ := hwrites.closesTag_iff
  rw [Lexer.selfClosing_of_readTag htag hname hslash, hcontents] at hcloses hopens
  refine ⟨above, first, more, below, hsource, hbegins, hdepth, congrArg Step.fault hstep,
    hlexer ▸ hnext, ?_, ?_⟩
  · rw [hcloses, Bool.not_eq_true', Option.any_eq_false]
    simp only [decide_eq_false_iff_not, Nat.not_lt, Option.mem_def, depth]
  · rw [hopens, Bool.not_eq_false', Option.any_eq_true]
    simp only [decide_eq_true_eq, Option.mem_def, depth]

/-- A head on two lines with blanks behind it, above an empty line and deeper text. -/
theorem tag_closes_itself_by_line_below_of_two :
    let source : Text := "%p\n  %br(a='b'\n    c='d') \n\n    x\n"
    let ctx : Context := ⟨false, .builtin⟩
    let first := ctx.step {} (Lexer.ofText source).next
    let l := first.lexer
    let depth := l.token.depth
    let cleared := (first.stack.close depth l.passSpace.upcoming).2
    ctx.Steps {} (Lexer.ofText source).next first.events first.stack l ∧ depth = 1 ∧
      ∃ head contents, (l.passSpace.readLine depth).value = .ok (.tag head contents) ∧
        isSelfClosingName head.name = true ∧
        l.passSpace.behindList.readAttributeHash.lexer.kind ≠ .slash ∧
        (l.passSpace.readTag depth).lexer.hasInlineContents = false ∧
        (ctx.step first.stack l).ClosesTag cleared depth head := by
  intro source ctx first l depth cleared
  have hsteps : ctx.Steps {} (Lexer.ofText source).next first.events first.stack l :=
    .single (by decide +kernel) (by decide +kernel)
  let head : TagHead :=
    { name := "br"
      attributes := { pairs := [("a", "b"), ("c", "d")] }
      options := { selfClosing := true }
      point := ⟨3, 11, "    c='d') "⟩ }
  have hv : (l.passSpace.readLine depth).value =
      .ok (.tag head (.text [] true 0 "\n")) := by decide +kernel
  have hslash : l.passSpace.behindList.readAttributeHash.lexer.kind ≠ .slash := by decide +kernel
  have hinline : (l.passSpace.readTag depth).lexer.hasInlineContents = false := by
    decide +kernel
  obtain ⟨above, own, more, below, -, -, -, -, -, hcloses, hopens⟩ :=
    tag_closes_itself_by_line_below ctx source hsteps hv (by decide +kernel) hslash hinline
  have hclosed : ¬(ctx.step first.stack l).OpensTag cleared depth head := fun hopen =>
    absurd hopen.opened (by decide +kernel)
  refine ⟨hsteps, by decide +kernel, head, _, hv, by decide +kernel, hslash, hinline, hcloses.2 ?_⟩
  intro s hs
  exact Nat.not_lt.1 fun hdeeper => hclosed (hopens.2 ⟨s, hs, hdeeper⟩)

/-- Deeper text below an empty line does not keep a tag from closing itself, and a line of
nothing but blanks does. -/
theorem tag_closes_itself_above_blank_line :
    let ctx : Context := ⟨false, .builtin⟩
    let text : Text := "%br\n\n  x\n"
    let blanks : Text := "%br\n    \nx\n"
    let head (closes : Bool) (next : Text) : TagHead :=
      { name := "br"
        attributes := {}
        options := { selfClosing := closes }
        point := ⟨2, 0, next⟩ }
    let contents : Contents := .text [] true 0 "\n"
    let first (t : Text) := (Lexer.ofText t).next
    (((first text).readLine 0).value = .ok (.tag (head true []) contents) ∧
      deeperFollows SourceLine.blank (0 < ·.depth) (text.sourceLines.drop 1) = true ∧
      (ctx.step {} (first text)).ClosesTag {} 0 (head true [])) ∧
    ((first blanks).readLine 0).value = .ok (.tag (head false "    ") contents) ∧
      deeperFollows SourceLine.blank (0 < ·.depth) (blanks.sourceLines.drop 1) = false ∧
      (ctx.step {} (first blanks)).OpensTag {} 0 (head false "    ") := by
  intro ctx text blanks head contents first
  refine ⟨⟨by decide +kernel, by decide +kernel, ?_⟩, by decide +kernel, by decide +kernel, ?_⟩
  · exact ⟨by decide +kernel, by decide +kernel, by decide +kernel⟩
  · exact ⟨by decide +kernel, by decide +kernel, by decide +kernel⟩

end Context

end Haml
