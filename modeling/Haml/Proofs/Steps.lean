import Haml.Template.Compile

/-!
# Runs as sequences of steps

A run is a sequence of steps without a fault, up to the end of the template or
to a step that ends it.
-/

namespace Haml

namespace Context

/-- Line after line is compiled without a fault, with the given events. -/
inductive Steps (ctx : Context) :
    ElementStack → Lexer → List Event → ElementStack → Lexer → Prop where
  | refl (stack : ElementStack) (l : Lexer) : Steps ctx stack l [] stack l
  | head {stack stack' : ElementStack} {l l' : Lexer} {events : List Event}
      (hl : l.kind ≠ .eof) (hf : (ctx.step stack l).fault = none)
      (h : Steps ctx (ctx.step stack l).stack (ctx.step stack l).lexer events stack' l') :
      Steps ctx stack l ((ctx.step stack l).events ++ events) stack' l'

variable {ctx : Context} {stack stack' : ElementStack} {l l' : Lexer} {events : List Event}

/-- Behind its indentation, a line that is not blank closes what is open at its
depth or deeper before anything else. -/
theorem construct_of_written (h : l.endsLine = false) (depth : Nat) :
    ctx.construct stack l depth =
      let closed := stack.close depth l.upcoming
      let own := ctx.ownStep closed.2 l depth
      { own with events := closed.1 ++ .emit (.depth depth) :: own.events } := by
  rw [construct_eq, if_neg (Lexer.kind_ne_eof_of_not_endsLine h)]
  simp [Lexer.breaksLine_eq_false h]

theorem step_of_written (h : l.passSpace.endsLine = false) :
    ctx.step stack l = ctx.indentedLine stack l := by
  have hb : l.kind.breaksLine = false := by
    by_cases hs : l.kind = .space
    · rw [hs]
      rfl
    · have hp : l.passSpace = l := if_neg hs
      rw [hp] at h
      exact Lexer.breaksLine_eq_false h
  simp [step_eq, hb]

/-- The contents of a line are written whether or not the line ends with them. -/
theorem events_contentsStep (stack : ElementStack) (l : Lexer) (inner : Bool)
    (write : Contents → List Instruction) :
    (contentsStep stack l inner write).events = (write l.passSpace.takeBody.1).map .emit := by
  simp only [contentsStep_eq]
  split <;> rfl

theorem stack_contentsStep (stack : ElementStack) (l : Lexer) (inner : Bool)
    (write : Contents → List Instruction) :
    (contentsStep stack l inner write).stack = stack := by
  simp only [contentsStep_eq]
  split <;> rfl

theorem contentsStep_of_ok {inner : Bool} {c : Contents} (hc : (l.readContents inner).value = .ok c)
    (write : Contents → List Instruction) :
    contentsStep stack l inner write =
      { events := (write c).map .emit, stack := stack, lexer := (l.readContents inner).lexer } := by
  rw [contentsStep_eq]
  rw [Lexer.readContents, Lexer.readBody] at hc ⊢
  cases he : l.passSpace.takeBody.2.endContents inner l.passSpace.takeBody.1 with
  | ok l' =>
    simp only [he] at hc ⊢
    cases hc
    rfl
  | error d =>
    simp only [he] at hc
    cases hc

theorem fault_contentsStep_of_error {inner : Bool} {d : Diagnostic}
    (hc : (l.readContents inner).value = .error d) (write : Contents → List Instruction) :
    (contentsStep stack l inner write).fault = some d := by
  rw [contentsStep_eq]
  rw [Lexer.readContents, Lexer.readBody] at hc
  cases he : l.passSpace.takeBody.2.endContents inner l.passSpace.takeBody.1 with
  | ok l' =>
    simp only [he] at hc
    cases hc
  | error e =>
    simp only [he] at hc ⊢
    cases hc
    rfl

/-- Compiling a line is refused where reading it as a whole is. -/
theorem fault_lineStep_of_error {d : Diagnostic} {depth : Nat}
    (hv : (l.readLine depth).value = .error d) : (lineStep stack l depth).fault = some d := by
  rw [lineStep_eq]
  rw [Lexer.readLine] at hv
  cases hdir : l.directive? Lexer.takeAnyLine depth with
  | some read =>
    simp only [hdir] at hv
    cases hv
  | none =>
    by_cases ht : l.startsTag
    · simp only [hdir, ht, if_true] at hv ⊢
      cases htag : (l.readTag depth).value with
      | error e =>
        simp only [htag] at hv ⊢
        cases hv
        rfl
      | ok head =>
        simp only [htag] at hv ⊢
        exact fault_contentsStep_of_error (error_of_map_error hv) _
    · simp only [hdir, ht] at hv ⊢
      exact fault_contentsStep_of_error (error_of_map_error hv) _

/-- The events of a line that is read: what was scanned, and what the line says. -/
theorem lineStep_of_ok {line : Line} {depth : Nat} (hv : (l.readLine depth).value = .ok line) :
    lineStep stack l depth =
      { events := (l.readLine depth).probes.map (fun p => Event.emit (.scanned p)) ++
          line.events depth (stack.framesLines depth)
        stack := (line.element?.map (stack.set depth)).getD stack
        lexer := (l.readLine depth).lexer } := by
  rw [lineStep_eq]
  rw [Lexer.readLine] at hv ⊢
  cases hdir : l.directive? Lexer.takeAnyLine depth with
  | some read =>
    simp only [hdir] at hv ⊢
    cases hv
    rfl
  | none =>
    by_cases ht : l.startsTag
    · simp only [hdir, ht, if_true] at hv ⊢
      cases htag : (l.readTag depth).value with
      | error d =>
        simp only [htag] at hv
        cases hv
      | ok head =>
        simp only [htag] at hv ⊢
        obtain ⟨c, hc⟩ := ok_of_map_ok hv
        rw [hc] at hv
        cases hv
        rw [contentsStep_of_ok hc]
        simp only [Line.events, Line.element?, List.append_assoc]
    · simp only [hdir, ht] at hv ⊢
      obtain ⟨c, hc⟩ := ok_of_map_ok hv
      rw [hc] at hv
      cases hv
      simp only [Bool.false_eq_true, if_false]
      rw [contentsStep_of_ok hc]
      simp [Line.events, Line.element?, Line.instructions]

theorem readLine_of_fault {d : Diagnostic} {depth : Nat}
    (hd : (lineStep stack l depth).fault = some d) : (l.readLine depth).value = .error d := by
  cases hv : (l.readLine depth).value with
  | error e =>
    rw [fault_lineStep_of_error hv] at hd
    rw [Option.some.inj hd]
  | ok line =>
    rw [lineStep_of_ok hv] at hd
    cases hd

/-- Compiling a line gives instructions and, at one point among them, opens at most one
element, whether or not the line turns out to be faulty. -/
theorem exists_lineStep (stack : ElementStack) (l : Lexer) (depth : Nat) :
    ∃ (before after : List Instruction) (element? : Option Element),
      (lineStep stack l depth).events =
        before.map .emit ++ (element?.map (.opened depth)).toList ++ after.map .emit ∧
      (lineStep stack l depth).stack = (element?.map (stack.set depth)).getD stack := by
  rw [lineStep_eq]
  cases l.directive? Lexer.takeAnyLine depth with
  | some read =>
    obtain ⟨before, after, -, he⟩ := read.run.1.exists_events depth (stack.framesLines depth)
    exact ⟨before, after, _, he, rfl⟩
  | none =>
    by_cases ht : l.startsTag
    · simp only [ht, if_true]
      cases (l.readTag depth).value with
      | error d =>
        refine ⟨(l.readTag depth).probes.map .scanned, [], none, ?_, rfl⟩
        simp
      | ok head =>
        refine ⟨(l.readTag depth).probes.map .scanned ++
            head.opening depth (stack.framesLines depth),
          (l.readTag depth).lexer.passSpace.takeBody.1.insideTag depth head.options.inner head.point,
          head.element?, ?_, stack_contentsStep ..⟩
        simp only [events_contentsStep, TagHead.events, List.map_append, List.map_map,
          List.append_assoc]
        rfl
    · simp only [ht]
      refine ⟨l.passSpace.takeBody.1.withoutTag depth (stack.framesLines depth) l.point, [], none,
        ?_, stack_contentsStep ..⟩
      rw [List.map_nil, List.append_nil]
      exact (events_contentsStep ..).trans (List.append_nil _).symm

/-- A line that is read closes what is open at its depth or deeper, and does what it says. -/
theorem step_of_line {line : Line} (h : l.passSpace.endsLine = false)
    (hf : l.passSpace.kind ≠ .filter)
    (hv : (l.passSpace.readLine l.token.depth).value = .ok line) :
    ctx.step stack l =
      let closed := stack.close l.token.depth l.passSpace.upcoming
      let own := lineStep closed.2 l.passSpace l.token.depth
      { own with events := .emit (.depth l.token.depth) ::
          (closed.1 ++ .emit (.depth l.token.depth) :: own.events) } := by
  rw [step_of_written h]
  simp only [indentedLine_eq, construct_of_written h, ownStep_eq, if_neg hf, lineStep_of_ok hv]

theorem Steps.single (hl : l.kind ≠ .eof) (hf : (ctx.step stack l).fault = none) :
    ctx.Steps stack l (ctx.step stack l).events (ctx.step stack l).stack
      (ctx.step stack l).lexer := by
  simpa using Steps.head hl hf (Steps.refl _ _)

theorem Steps.trans {stack'' : ElementStack} {l'' : Lexer} {more : List Event}
    (h : ctx.Steps stack l events stack' l') (h' : ctx.Steps stack' l' more stack'' l'') :
    ctx.Steps stack l (events ++ more) stack'' l'' := by
  induction h with
  | refl => exact h'
  | head hl hf _ ih =>
    rw [List.append_assoc]
    exact .head hl hf (ih h')

theorem runFrom_of_eof (h : l.kind = .eof) :
    ctx.runFrom stack l = { events := (stack.close 0 l.upcoming).1 } := by
  rw [runFrom, dif_pos h]

theorem runFrom_of_fault {d : Diagnostic} (hl : l.kind ≠ .eof)
    (hf : (ctx.step stack l).fault = some d) :
    ctx.runFrom stack l = { events := (ctx.step stack l).events, fault := some d } := by
  rw [runFrom, dif_neg hl]
  simp only
  split
  · rename_i d' hd
    rw [hf] at hd
    cases hd
    rfl
  · rename_i hn
    rw [hf] at hn
    cases hn

theorem runFrom_of_step (hl : l.kind ≠ .eof) (hf : (ctx.step stack l).fault = none) :
    ctx.runFrom stack l =
      (ctx.runFrom (ctx.step stack l).stack (ctx.step stack l).lexer).after
        (ctx.step stack l).events := by
  rw [runFrom, dif_neg hl]
  simp only
  split
  · rename_i d' hd
    rw [hf] at hd
    cases hd
  · rfl

/-- A run goes on from wherever its steps lead. -/
theorem Steps.runFrom_eq (h : ctx.Steps stack l events stack' l') :
    ctx.runFrom stack l = (ctx.runFrom stack' l').after events := by
  induction h with
  | refl => rfl
  | head hl hf _ ih =>
    rw [runFrom_of_step hl hf, ih]
    simp only [Run.after, List.append_assoc]

/-- Every run comes to the end of the template or to a step with a fault. -/
theorem exists_steps (ctx : Context) (stack : ElementStack) (l : Lexer) :
    ∃ events stack' l', ctx.Steps stack l events stack' l' ∧
      (l'.kind = .eof ∨ (ctx.step stack' l').fault.isSome) := by
  fun_induction runFrom ctx stack l with
  | case1 stack l hl => exact ⟨[], stack, l, .refl _ _, .inl hl⟩
  | case2 stack l hl s d hd => exact ⟨[], stack, l, .refl _ _, .inr (by simp [s, hd])⟩
  | case3 stack l hl s hs ih =>
    obtain ⟨events, stack', l', h, hend⟩ := ih
    exact ⟨_, stack', l', .head hl hs h, hend⟩

variable {source : Text}

/-- What a run that reaches the end of its template consists of. -/
theorem run_of_ok (h : (ctx.runFrom {} (Lexer.ofText source).next).fault = none) :
    ctx.run source =
      { events := .emit (.start ctx.tolerant) ::
          (ctx.runFrom {} (Lexer.ofText source).next).events ++ [.emit .finish] } := by
  simp [run, Run.after, h]

theorem run_of_fault {d : Diagnostic}
    (h : (ctx.runFrom {} (Lexer.ofText source).next).fault = some d) :
    ctx.run source =
      { events := .emit (.start ctx.tolerant) ::
          (ctx.runFrom {} (Lexer.ofText source).next).events, fault := some d } := by
  simp [run, Run.after, h]

end Context

namespace Template

variable {t : Template} {o : Options} {filters : FilterRegistry}

theorem compileWith_of_ok
    (h : (Context.runFrom ⟨o.tolerant, filters⟩ {} (Lexer.ofText t.source).next).fault = none) :
    t.compileWith o filters = .ok
      ⟨Script.body (.start o.tolerant ::
          (Context.runFrom ⟨o.tolerant, filters⟩ {} (Lexer.ofText t.source).next).instructions ++
            [.finish]),
        (Context.runFrom ⟨o.tolerant, filters⟩ {} (Lexer.ofText t.source).next).diagnostics⟩ := by
  simp [compileWith, compilation, run, Context.run_of_ok h, Run.instructions, Run.diagnostics,
    List.filterMap_cons]

theorem compileWith_of_fault {d : Diagnostic}
    (h : (Context.runFrom ⟨o.tolerant, filters⟩ {} (Lexer.ofText t.source).next).fault = some d) :
    t.compileWith o filters = .error d := by
  simp [compileWith, compilation, run, Context.run_of_fault h]

end Template

end Haml
