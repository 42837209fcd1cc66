import Haml.Proofs.ConstructLines

/-!
# Points and the lines they belong to

What a line is compiled to carries points of the source: expressions, text and attributes
carry one each, a filter is handed one, and a fault shows at one. All of them are on the
lines that the construct covers, with two exceptions. The point of the attributes of a tag
is taken behind the token that follows them, and a fault is reported behind the token
that is refused. If that token ends the last line of the construct, the point is the very
start of the line below.
-/

namespace Haml

/-- The points that a filter passes on: those of its instructions, and that of the fault
for which it refuses the block. -/
def FilterResult.points (r : FilterResult) : List Point :=
  r.instructions.filterMap Instruction.point? ++ (r.fault.map Diagnostic.point).toList

def Event.point? : Event → Option Point
  | .emit i => i.point?
  | .tolerated d => some d.point
  | _ => none

/-- Whether an event may show a point that is taken behind a line end: attributes do, and
faults. -/
def Event.mayTrail : Event → Bool
  | .emit i => i.isAttributes
  | .tolerated _ => true
  | _ => false

/-- The points that a step hands out are `On` something, or `Below` it where they may be
taken behind a line end. -/
structure Step.HandsOut (On Below : Point → Prop) (s : Step) : Prop where
  events : ∀ e ∈ s.events, ∀ p, e.point? = some p → On p ∨ e.mayTrail = true ∧ Below p
  fault : ∀ d, s.fault = some d → On d.point ∨ Below d.point

theorem ElementStack.point?_close (s : ElementStack) (d : Nat) (u : Upcoming) :
    ∀ e ∈ (s.close d u).1, e.point? = none := by
  intro e he
  rw [close_events] at he
  obtain ⟨⟨depth, element⟩, -, he⟩ := List.mem_flatMap.1 he
  simp only [closingEvents, List.map_cons, List.mem_cons, List.mem_map] at he
  rcases he with rfl | rfl | ⟨i, hi, rfl⟩
  · rfl
  · rfl
  · cases element with
    | comment newline => rw [List.mem_singleton.1 hi]; rfl
    | conditional newline => rw [List.mem_singleton.1 hi]; rfl
    | block kind => rw [List.mem_singleton.1 hi]; rfl
    | tag name options =>
      simp only [Element.closing, List.mem_append, List.mem_singleton] at hi
      rcases hi with (hi | rfl) | hi
      · split at hi <;> rw [List.mem_singleton.1 hi] <;> rfl
      · rfl
      · split at hi
        · rw [List.mem_singleton.1 hi]
          rfl
        · cases hi

namespace Step.HandsOut

variable {On Below : Point → Prop} {s : Step}

/-- Events without points may stand before those of a step. -/
theorem prepend (h : s.HandsOut On Below) {es : List Event} (hes : ∀ e ∈ es, e.point? = none) :
    HandsOut On Below { s with events := es ++ s.events } := by
  refine ⟨?_, h.fault⟩
  intro e he p hp
  rcases List.mem_append.1 he with he | he
  · rw [hes e he] at hp
    cases hp
  · exact h.events e he p hp

end Step.HandsOut

namespace Context

variable {ctx : Context} {source : Text} {stack stack' : ElementStack} {l l' : Lexer}
  {depth : Nat} {events : List Event}

/-- The point `p` is the point `q`, or the filter that the line names was handed `q` and
passed `p` on. -/
def PassesOn (ctx : Context) (l : Lexer) (depth : Nat) (q p : Point) : Prop :=
  p = q ∨ l.kind = .filter ∧ q = l.point ∧
    ∃ f, ctx.filters.find? l.token.text = some f ∧ p ∈ (f (l.takeBlock depth).1 depth q).points

/-- The point shows a line of the source that the construct at `l` covers, or was made by
a filter that was handed such a point. -/
def OnConstruct (ctx : Context) (source : Text) (l : Lexer) (depth : Nat) (p : Point) : Prop :=
  ∃ q, ctx.PassesOn l depth q p ∧ q.AnchoredIn source ∧ l.firstLine source ≤ q.line ∧
    q.line ≤ l.lastLine source depth

/-- The point shows the very start of the line below the construct at `l`. -/
def RightBelow (source : Text) (l : Lexer) (depth : Nat) (p : Point) : Prop :=
  p.AnchoredIn source ∧ p.line = l.lastLine source depth + 1 ∧ p.column = 0

/-- The point that a filter is handed is on the line of its name. -/
theorem onConstruct_filter (h : l.OnToken source) (hk : l.kind = .filter) (depth : Nat) :
    l.point.AnchoredIn source ∧ l.firstLine source ≤ l.point.line ∧
      l.point.line ≤ l.lastLine source depth := by
  have hl : l.endsLine = false := by rw [Lexer.endsLine, hk]; rfl
  have hstop : l.cursor.position ≤ l.constructStop depth := by
    simp only [Lexer.constructStop, hk, if_true]
    exact Nat.le_refl _
  obtain ⟨hanchored, hfirst, -⟩ := h.point_within depth hl (.refl l) hstop
  exact ⟨hanchored, hfirst, h.line_le_last hl (.refl l) (.refl l) h hl hstop⟩

theorem handsOut_filterStep (h : l.OnToken source) (hk : l.kind = .filter)
    (stack : ElementStack) :
    (ctx.filterStep stack l depth).HandsOut (ctx.OnConstruct source l depth)
      (RightBelow source l depth) := by
  have hpoint := onConstruct_filter h hk depth
  simp only [filterStep_eq]
  cases hf : ctx.filters.find? l.token.text with
  | none =>
    refine ⟨by rintro e ⟨⟩, ?_⟩
    rintro d ⟨⟩
    exact .inl ⟨l.point, .inl rfl, hpoint⟩
  | some f =>
    have hmade {p : Point} (hp : p ∈ (f (l.takeBlock depth).1 depth l.point).points) :
        ctx.OnConstruct source l depth p :=
      ⟨l.point, .inr ⟨hk, rfl, f, hf, hp⟩, hpoint⟩
    have hemitted : ∀ e ∈ Event.filtering l.token.text (l.takeBlock depth).1.length ::
        (f (l.takeBlock depth).1 depth l.point).instructions.map .emit, ∀ p, e.point? = some p →
        ctx.OnConstruct source l depth p := by
      intro e he p hp
      rcases List.mem_cons.1 he with rfl | he
      · cases hp
      · obtain ⟨i, hi, rfl⟩ := List.mem_map.1 he
        exact hmade (List.mem_append_left _ (List.mem_filterMap.2 ⟨i, hi, hp⟩))
    have hrefused {d : Diagnostic} (hd : (f (l.takeBlock depth).1 depth l.point).fault = some d) :
        ctx.OnConstruct source l depth d.point :=
      hmade (List.mem_append_right _ (by rw [hd]; exact List.mem_singleton_self _))
    simp only
    split
    · exact ⟨fun e he p hp => .inl (hemitted e he p hp), by rintro d ⟨⟩⟩
    · rename_i d hd
      split
      · refine ⟨?_, by rintro d ⟨⟩⟩
        intro e he p hp
        rcases List.mem_append.1 he with he | he
        · exact .inl (hemitted e he p hp)
        · rw [List.mem_singleton.1 he] at hp
          cases hp
          exact .inl (hrefused hd)
      · refine ⟨fun e he p hp => .inl (hemitted e he p hp), ?_⟩
        rintro d ⟨⟩
        exact .inl (hrefused hd)

theorem handsOut_lineStep (h : l.OnToken source) (hm : l.mode = .line) (hl : l.endsLine = false)
    (hf : l.kind ≠ .filter) (stack : ElementStack) :
    (lineStep stack l depth).HandsOut (ctx.OnConstruct source l depth)
      (RightBelow source l depth) := by
  have hscanned (ps : List Probe) :
      ∀ e ∈ ps.map (fun p => Event.emit (.scanned p)), e.point? = none := by
    intro e he
    obtain ⟨p, -, rfl⟩ := List.mem_map.1 he
    rfl
  cases hv : (l.readLine depth).value with
  | error d =>
    rw [lineStep_of_error hm hv]
    refine ⟨?_, ?_⟩
    · intro e he p hp
      rw [hscanned _ e he] at hp
      cases hp
    · rintro d ⟨⟩
      obtain ⟨m, hm, hstop, hpoint⟩ := l.faultsOnWay_readLine depth d hv
      have hend : l.constructStop depth = (l.readLine depth).lexer.cursor.position := by
        simp only [Lexer.constructStop, hf, if_false, hv]
      obtain ⟨hanchored, hfirst, hlast⟩ :=
        h.point_within depth hl hm (hend ▸ hstop.position_le)
      rw [hpoint]
      exact hlast.imp (fun hle => ⟨_, .inl rfl, hanchored, hfirst, hle⟩)
        fun hbelow => ⟨hanchored, hbelow⟩
  | ok x =>
    rw [lineStep_of_ok hv]
    refine ⟨?_, by rintro d ⟨⟩⟩
    intro e he p hp
    rcases List.mem_append.1 he with he | he
    · rw [hscanned _ e he] at hp
      cases hp
    · rcases Line.mem_events he with ⟨i, hi, rfl⟩ | ⟨element, rfl⟩
      · obtain ⟨hanchored, hfirst, hlast⟩ := h.carried hl hf hv (x.carries_of_mem hi hp)
        exact hlast.imp (fun hle => ⟨_, .inl rfl, hanchored, hfirst, hle⟩)
          fun hbelow => ⟨hbelow.1, hanchored, hbelow.2⟩
      · cases hp

theorem handsOut_construct (ctx : Context) (h : l.OnToken source) (hm : l.mode = .line)
    (stack : ElementStack) (depth : Nat) :
    (ctx.construct stack l depth).HandsOut (ctx.OnConstruct source l depth)
      (RightBelow source l depth) := by
  cases hl : l.endsLine with
  | true =>
    have hnone : (ctx.construct stack l depth).fault = none :=
      (reaches_construct_of_blank ctx stack depth hl).2
    refine ⟨?_, by rw [hnone]; rintro d ⟨⟩⟩
    simp only [construct_eq]
    split
    · rintro e ⟨⟩
    · rename_i hk
      have hb : l.kind.breaksLine = true := by
        cases hk' : l.kind <;>
          simp_all [Lexer.endsLine, Token.Kind.endsLine, Token.Kind.breaksLine]
      rw [if_pos hb]
      intro e he p hp
      rw [List.mem_singleton.1 he] at hp
      cases hp
  | false =>
    have hown (closed : ElementStack) : (ctx.ownStep closed l depth).HandsOut
        (ctx.OnConstruct source l depth) (RightBelow source l depth) := by
      simp only [ownStep_eq]
      split
      · rename_i hk
        exact handsOut_filterStep h hk closed
      · rename_i hk
        exact handsOut_lineStep h hm hl hk closed
    rw [construct_of_written hl]
    have hclosed := stack.point?_close depth l.upcoming
    have hdepth : ∀ e ∈ [Event.emit (.depth depth)], e.point? = none := by
      intro e he
      rw [List.mem_singleton.1 he]
      rfl
    exact ((hown _).prepend hdepth).prepend hclosed

/-- The points that compiling a line hands out are on the lines of its construct or, for
attributes and faults, at the very start of the line below. -/
theorem handsOut_step (h : l.OnToken source) (hm : l.mode = .line) (stack : ElementStack) :
    (ctx.step stack l).HandsOut (ctx.OnConstruct source l.passSpace l.token.depth)
      (RightBelow source l.passSpace l.token.depth) := by
  have hconstruct := handsOut_construct ctx h.passSpace ((Lexer.reaches_passSpace l).mode hm) stack
    l.token.depth
  have hdepth : ∀ e ∈ [Event.emit (.depth l.token.depth)], e.point? = none := by
    intro e he
    rw [List.mem_singleton.1 he]
    rfl
  have hline := hconstruct.prepend hdepth
  simp only [step_eq]
  split
  · refine ⟨?_, by rintro d ⟨⟩⟩
    intro e he p hp
    rw [List.mem_singleton.1 he] at hp
    cases hp
  simp only [indentedLine_eq]
  cases hd : (ctx.construct stack l.passSpace l.token.depth).fault with
  | none => exact ⟨hline.events, by rintro d ⟨⟩⟩
  | some d =>
    simp only
    split
    · obtain ⟨l', hl'⟩ := Lexer.exists_recover
        (ctx.construct stack l.passSpace l.token.depth).lexer l.token.depth
      simp only [hl']
      refine ⟨?_, by rintro d ⟨⟩⟩
      intro e he p hp
      rcases List.mem_append.1 he with he | he
      · exact hline.events e he p hp
      · rw [List.mem_singleton.1 he] at hp ⊢
        cases hp
        exact (hconstruct.fault d hd).imp id fun hbelow => ⟨rfl, hbelow⟩
    · exact ⟨hline.events, by rintro d ⟨⟩; exact hconstruct.fault d hd⟩

/-! ### Along a run -/

/-- Behind a refused line, the lexer is on a token that was just scanned. -/
theorem onToken_passDeeperLines (h : l.kind = .eof ∨ l.OnToken source)
    (hr : l.passDeeperLines depth = .ok l') : l'.kind = .eof ∨ l'.OnToken source := by
  induction l using Lexer.passDeeperLines_induction depth with
  | ended l hk heq =>
    rw [heq] at hr
    cases hr
    exact .inl hk
  | stopped l hk _ heq =>
    have htoken := h.resolve_left hk
    rw [heq] at hr
    split at hr
    · rename_i hs
      have hn : l.passSpace = l.next := by simp [Lexer.passSpace, hs.1]
      rw [hn] at hr
      split at hr
      · rename_i b hb
        cases hr
        obtain ⟨hcursor, hsame, -⟩ := Lexer.place_of_pushBack_next hb
        have hcounts := htoken.counts.next.act .pushBack
        rw [Lexer.act, hb] at hcounts
        exact .inr ⟨hcounts, by rw [hcursor, hsame]; exact htoken.scanned⟩
      · cases hr
    · cases hr
      exact .inr htoken.passSpace
  | deeper l hk _ heq ih =>
    rw [heq] at hr
    exact ih (.inr (h.resolve_left hk).passSpace.takeLine.passLineEnd) hr

theorem onToken_recover (h : l.Counts source) (hr : l.recover depth = .ok l') :
    l'.kind = .eof ∨ l'.OnToken source := by
  rw [Lexer.recover_eq] at hr
  refine onToken_passDeeperLines ?_ hr
  have hcounts : (l.inMode .line).Counts source := h.act .clearMode
  cases hl : (l.inMode .line).endsLine with
  | true =>
    rw [Lexer.passLine, Lexer.takeLine_of_endsLine hl, Lexer.passLineEnd]
    split
    · exact .inr hcounts.onToken_next
    · rename_i hb
      left
      by_contra hk
      rw [Lexer.endsLine_eq_false hk hb] at hl
      cases hl
  | false => exact .inr (hcounts.onToken_takeLine hl).passLineEnd

theorem onToken_construct (h : l.OnToken source) (hm : l.mode = .line)
    (hf : (ctx.construct stack l depth).fault = none) :
    (ctx.construct stack l depth).lexer.OnToken source := by
  cases hl : l.endsLine with
  | true =>
    simp only [construct_eq]
    split
    · exact h
    · split
      · exact h.next
      · rename_i hk hb
        rw [Lexer.endsLine_eq_false hk hb] at hl
        cases hl
  | false =>
    rw [construct_of_written hl] at hf ⊢
    simp only [ownStep_eq] at hf ⊢
    split
    · rename_i hk
      have hblock := (h.atLine_takeBlock hm depth).onToken
      simp only [hk, if_true, filterStep_eq] at hf ⊢
      split at hf
      · cases hf
      · split
        · exact hblock
        · split <;> exact hblock
    · rename_i hk
      simp only [hk, if_false] at hf ⊢
      rw [lexer_lineStep]
      cases hv : (l.readLine depth).value with
      | error d =>
        rw [fault_lineStep_of_error hv] at hf
        cases hf
      | ok x => exact h.readLine hm hv

theorem onToken_step (h : l.OnToken source) (hm : l.mode = .line)
    (hf : (ctx.step stack l).fault = none) :
    (ctx.step stack l).lexer.kind = .eof ∨ (ctx.step stack l).lexer.OnToken source := by
  have hmode := (Lexer.reaches_passSpace l).mode hm
  simp only [step_eq] at hf ⊢
  split
  · exact .inr h.next
  rename_i hb
  rw [if_neg hb] at hf
  rcases lexer_indentedLine hf with ⟨hok, hlexer⟩ | ⟨hsome, hrecover⟩
  · rw [hlexer]
    exact .inr (onToken_construct h.passSpace hmode hok)
  · obtain ⟨d, hd⟩ := Option.isSome_iff_exists.1 hsome
    refine onToken_recover ?_ hrecover
    rcases advances_construct ctx stack l.token.depth (endsLine_of_fault hd) with hadv | ⟨heq, -⟩
    · exact hadv.reaches.counts h.passSpace.counts
    · rw [heq]
      exact h.passSpace.counts

/-- Wherever a run has come to, it goes on from a token that was just scanned. -/
theorem Steps.onToken (h : ctx.Steps stack l events stack' l') (hl : l.OnToken source)
    (hm : l.mode = .line) (hk : l'.kind ≠ .eof) : l'.OnToken source := by
  induction h with
  | refl => exact hl
  | @head stack stack' l l' events _ hf h ih =>
    rcases onToken_step hl hm hf with heof | htoken
    · -- Nothing follows the end of the source.
      cases h with
      | refl => exact absurd heof hk
      | head hne => exact absurd heof hne
    · exact ih htoken (ctx.mode_step stack hm) hk

end Context

/-- Wherever a run has come to, the points that compiling the next line hands out show
lines of the source with their texts. Those of expressions and text, and the one that a
filter is handed, are on the lines of the construct. Those of attributes and of faults
are, too, or at the very start of the line below. -/
theorem Context.points_on_construct_or_right_below (ctx : Context) (source : Text)
    {events : List Event} {stack : ElementStack} {l : Lexer}
    (h : ctx.Steps {} (Lexer.ofText source).next events stack l) (hl : l.kind ≠ .eof) :
    (ctx.step stack l).HandsOut (ctx.OnConstruct source l.passSpace l.token.depth)
        (RightBelow source l.passSpace l.token.depth) ∧
      (l.passSpace.kind = .filter →
        ctx.OnConstruct source l.passSpace l.token.depth l.passSpace.point) := by
  have htoken := h.onToken (Lexer.counts_ofText source).onToken_next rfl hl
  exact ⟨handsOut_step htoken (h.mode rfl) stack,
    fun hk => ⟨_, .inl rfl, onConstruct_filter htoken.passSpace hk _⟩⟩

/-- Behind an object reference on a line of its own, a construct of two lines whose points
are both on the second of them. -/
theorem Context.points_on_construct_or_right_below_in_second_line :
    let source : Text := "%p[obj]\n%q(a='b'\n  c='d')\x7be: f\x7d= x\n"
    let ctx : Context := ⟨false, .builtin⟩
    let first := ctx.step {} (Lexer.ofText source).next
    let l := first.lexer
    ctx.Steps {} (Lexer.ofText source).next first.events first.stack l ∧ l.kind ≠ .eof ∧
      (l.passSpace.firstLine source, l.passSpace.lastLine source l.token.depth) = (2, 3) ∧
      (ctx.step first.stack l).events.filterMap (fun e => e.point?.map fun p => (p.line, p.column)) =
        [(3, 9), (3, 15)] ∧
      (ctx.step first.stack l).HandsOut (ctx.OnConstruct source l.passSpace l.token.depth)
        (RightBelow source l.passSpace l.token.depth) := by
  intro source ctx first l
  have hstep : ctx.Steps {} (Lexer.ofText source).next first.events first.stack l :=
    .single (by decide +kernel) (by decide +kernel)
  have hl : l.kind ≠ .eof := by decide +kernel
  exact ⟨hstep, hl, by decide +kernel, by decide +kernel,
    (points_on_construct_or_right_below ctx source hstep hl).1⟩

/-- The attributes of a tag that ends with its line are placed on the line below. -/
theorem Context.attributes_point_off_construct :
    let source : Text := "%p[obj]\nfoo\n"
    let ctx : Context := ⟨false, .builtin⟩
    let l := (Lexer.ofText source).next
    ∃ e ∈ (ctx.step {} l).events, ∃ p, e.point? = some p ∧
      (p.line, p.text) = (2, "foo".toList) ∧
      (l.passSpace.firstLine source, l.passSpace.lastLine source l.token.depth) = (1, 1) ∧
      ¬ctx.OnConstruct source l.passSpace l.token.depth p := by
  intro source ctx l
  refine ⟨.emit (.attributes ⟨[], [], [], [], some "obj"⟩ ⟨2, 0, "foo"⟩), by decide +kernel,
    ⟨2, 0, "foo"⟩, rfl, by decide +kernel, by decide +kernel, ?_⟩
  rintro ⟨q, hq, -, -, hlast⟩
  have hline : l.passSpace.lastLine source l.token.depth = 1 := by decide +kernel
  have hkind : l.passSpace.kind ≠ .filter := by decide +kernel
  rcases hq with rfl | ⟨hk, -⟩
  · rw [hline] at hlast
    exact absurd hlast (by decide)
  · exact hkind hk

end Haml
