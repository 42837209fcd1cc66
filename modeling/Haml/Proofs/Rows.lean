import Haml.Proofs.Moves
import Haml.Proofs.Tolerance

/-!
# Rows of a template

Where a template is cut into rows and what each row says does not depend on what
is open: a template is read row by row first, and its rows are compiled one after
another. A strict run without a fault does no more than that.
-/

namespace Haml

/-- What stands on a line that is not blank. -/
inductive Matter where
  /-- A filter, with the block below it. -/
  | filter (name : Text) (block : List Text) (point : Point)
  /-- Anything else, with the expressions scanned on the way. -/
  | line (probes : List Probe) (line : Line)
  deriving DecidableEq, Repr

/-- A line of a template, with all the lines that are read along with it. -/
inductive Row where
  /-- A line without any character. -/
  | empty (newline : Text)
  /-- Nothing but indentation; the last line of a template may have no end. -/
  | blank (depth : Nat) (newline : Option Text)
  | written (depth : Nat) (upcoming : Upcoming) (matter : Matter)
  deriving DecidableEq, Repr

namespace Lexer

variable {l : Lexer}

def readMatter (l : Lexer) (depth : Nat) : Reading Matter :=
  if l.kind = .filter then
    { value := .ok (.filter l.token.text (l.takeBlock depth).1 l.point)
      lexer := (l.takeBlock depth).2 }
  else
    { value := (l.readLine depth).value.map (.line (l.readLine depth).probes)
      lexer := (l.readLine depth).lexer }

def readRow (l : Lexer) : Reading Row :=
  if l.kind.breaksLine then { value := .ok (.empty l.token.newline), lexer := l.next }
  else if l.passSpace.kind = .eof then
    { value := .ok (.blank l.token.depth none), lexer := l.passSpace }
  else if l.passSpace.kind.breaksLine then
    { value := .ok (.blank l.token.depth (some l.passSpace.token.newline))
      lexer := l.passSpace.next }
  else
    let r := l.passSpace.readMatter l.token.depth
    { value := r.value.map (.written l.token.depth l.passSpace.upcoming), lexer := r.lexer }

theorem endsLine_eq_false (he : l.kind ≠ .eof) (hb : l.kind.breaksLine ≠ true) :
    l.endsLine = false := by
  cases hk : l.kind <;> simp_all [endsLine, Token.Kind.endsLine, Token.Kind.breaksLine]

theorem advances_readMatter (h : l.endsLine = false) (depth : Nat) :
    l.Advances (l.readMatter depth).lexer := by
  simp only [readMatter]
  split
  · exact advances_takeBlock h depth
  · exact advances_readLine h depth

/-- A row is read past its first token, even if it is faulty. -/
theorem advances_readRow (hl : l.kind ≠ .eof) : l.Advances l.readRow.lexer := by
  simp only [readRow]
  split
  · exact advances_next hl
  · rename_i hb
    split
    · rename_i he
      have hs : l.kind = .space := by
        by_contra hs
        have hp : l.passSpace = l := if_neg hs
        rw [hp] at he
        exact hl he
      have hp : l.passSpace = l.next := if_pos hs
      rw [hp]
      exact advances_next hl
    · rename_i he
      split
      · exact (reaches_passSpace l).advances (advances_next he)
      · rename_i hb
        exact (reaches_passSpace l).advances (advances_readMatter (endsLine_eq_false he hb) _)

def rows (l : Lexer) : Except Diagnostic (List Row) :=
  if _ : l.kind = .eof then .ok []
  else
    match l.readRow.value with
    | .error d => .error d
    | .ok row => l.readRow.lexer.rows.map (row :: ·)
termination_by l.remaining
decreasing_by exact (advances_readRow ‹_›).remaining_lt

theorem rows_of_eof (h : l.kind = .eof) : l.rows = .ok [] := by
  rw [rows, dif_pos h]

end Lexer

/-- The events of what stands on a line at `depth`, and what is open behind it. There
are none if a filter is not registered or refuses its block. -/
def Matter.compile (filters : FilterRegistry) (stack : ElementStack) (depth : Nat) :
    Matter → Option (List Event × ElementStack)
  | .filter name block point =>
    (filters.find? name).bind fun filter =>
      let result := filter block depth point
      if result.fault.isSome then none
      else some (.filtering name block.length :: result.instructions.map .emit, stack)
  | .line probes x =>
    some (probes.map (fun p => Event.emit (.scanned p)) ++
        x.events depth (stack.framesLines depth),
      (x.element?.map (stack.set depth)).getD stack)

theorem filterMap_instruction?_line (ps : List Probe) (x : Line) (depth : Nat) (framed : Bool) :
    (ps.map (fun p => Event.emit (.scanned p)) ++
        x.events depth framed).filterMap Event.instruction? =
      ps.map .scanned ++ x.instructions depth framed := by
  have hprobes : (ps.map fun p => Event.emit (.scanned p)) =
      (ps.map Instruction.scanned).map .emit := by
    simp
  rw [hprobes, List.filterMap_append, Event.filterMap_instruction?_emit,
    Line.filterMap_instruction?_events]

def Row.compile (filters : FilterRegistry) (stack : ElementStack) :
    Row → Option (List Event × ElementStack)
  | .empty newline => some ([.emit (.markup newline)], stack)
  | .blank depth newline =>
    some (.emit (.depth depth) ::
      (newline.map fun n => Event.emit (.markup (Text.indentation depth ++ n))).toList, stack)
  | .written depth upcoming matter =>
    (matter.compile filters (stack.close depth upcoming).2 depth).map fun own =>
      (.emit (.depth depth) :: ((stack.close depth upcoming).1 ++ .emit (.depth depth) :: own.1),
        own.2)

def compileRows (filters : FilterRegistry) :
    ElementStack → List Row → Option (List Event × ElementStack)
  | stack, [] => some ([], stack)
  | stack, row :: rows =>
    (row.compile filters stack).bind fun first =>
      (compileRows filters first.2 rows).map fun more => (first.1 ++ more.1, more.2)

/-- Rows one after another are compiled one after another. -/
theorem compileRows_append (filters : FilterRegistry) (s : ElementStack)
    (rows rows' : List Row) :
    compileRows filters s (rows ++ rows') =
      (compileRows filters s rows).bind fun o =>
        (compileRows filters o.2 rows').map fun o' => (o.1 ++ o'.1, o'.2) := by
  induction rows generalizing s with
  | nil =>
    simp only [List.nil_append, compileRows, Option.bind_some]
    exact Option.map_id'.symm
  | cons row rows ih =>
    simp only [List.cons_append, compileRows, ih]
    cases row.compile filters s with
    | none => rfl
    | some first =>
      simp only [Option.bind_some]
      cases compileRows filters first.2 rows with
      | none => rfl
      | some more =>
        simp only [Option.bind_some, Option.map_some, Option.map_map]
        congr 1
        funext o
        simp

def Step.outcome? (s : Step) : Option (List Event × ElementStack × Lexer) :=
  match s.fault with
  | none => some (s.events, s.stack, s.lexer)
  | some _ => none

namespace Context

variable {filters : FilterRegistry} {stack stack' : ElementStack} {l l' : Lexer}
  {events : List Event} {rows : List Row}

/-- A line does on its own what its matter says. -/
theorem outcome?_ownStep (filters : FilterRegistry) (stack : ElementStack) (l : Lexer)
    (depth : Nat) :
    (ownStep ⟨false, filters⟩ stack l depth).outcome? =
      (l.readMatter depth).value.toOption.bind fun matter =>
        (matter.compile filters stack depth).map fun r =>
          (r.1, r.2, (l.readMatter depth).lexer) := by
  simp only [ownStep_eq, Lexer.readMatter]
  by_cases hk : l.kind = .filter
  · simp only [hk, if_true, filterStep_eq, Except.toOption, Option.bind_some, Matter.compile]
    cases filters.find? l.token.text with
    | none => rfl
    | some filter =>
      simp only [Option.bind_some]
      cases hf : (filter (l.takeBlock depth).1 depth l.point).fault <;> simp [Step.outcome?]
  · simp only [hk, if_false]
    cases hv : (l.readLine depth).value with
    | error d =>
      simp [Step.outcome?, fault_lineStep_of_error hv, Except.map, Except.toOption]
    | ok line =>
      simp [Step.outcome?, lineStep_of_ok hv, Except.map, Except.toOption, Matter.compile]

theorem outcome?_indented (s : Step) (before : List Event) :
    ({ s with events := before ++ s.events } : Step).outcome? =
      s.outcome?.map fun o => (before ++ o.1, o.2) := by
  cases hf : s.fault <;> simp [Step.outcome?, hf]

/-- A strict step reads a row and compiles it. -/
theorem outcome?_step (filters : FilterRegistry) (stack : ElementStack) (l : Lexer) :
    (step ⟨false, filters⟩ stack l).outcome? =
      l.readRow.value.toOption.bind fun row =>
        (row.compile filters stack).map fun r => (r.1, r.2, l.readRow.lexer) := by
  by_cases hl : l.kind.breaksLine
  · simp only [step_eq, Lexer.readRow, hl, if_true]
    rfl
  have hstep : step ⟨false, filters⟩ stack l =
      let s := construct ⟨false, filters⟩ stack l.passSpace l.token.depth
      { s with events := [.emit (.depth l.token.depth)] ++ s.events } := by
    simp only [step_eq, indentedLine_eq, hl]
    cases hf : (construct ⟨false, filters⟩ stack l.passSpace l.token.depth).fault <;> simp
  simp only [hstep, outcome?_indented, Lexer.readRow, hl]
  by_cases he : l.passSpace.kind = .eof
  · simp [he, construct_eq, Row.compile, Step.outcome?, Except.toOption]
  by_cases hb : l.passSpace.kind.breaksLine
  · simp [he, hb, construct_eq, Row.compile, Step.outcome?, Except.toOption]
  have hconstruct : construct ⟨false, filters⟩ stack l.passSpace l.token.depth =
      let closed := stack.close l.token.depth l.passSpace.upcoming
      let own := ownStep ⟨false, filters⟩ closed.2 l.passSpace l.token.depth
      { own with events := (closed.1 ++ [.emit (.depth l.token.depth)]) ++ own.events } := by
    rw [construct_of_written (Lexer.endsLine_eq_false he hb)]
    simp
  simp only [hconstruct, outcome?_indented, outcome?_ownStep, he, hb]
  cases (l.passSpace.readMatter l.token.depth).value with
  | error d => rfl
  | ok matter =>
    simp only [Except.map, Except.toOption, Option.bind_some, Option.map_map, Row.compile,
      Bool.false_eq_true, if_false]
    congr 1
    funext r
    simp

theorem step_of_row {row : Row} (h : l.readRow.value = .ok row)
    (hc : row.compile filters stack = some (events, stack')) :
    step ⟨false, filters⟩ stack l =
      { events := events, stack := stack', lexer := l.readRow.lexer } := by
  have hout := outcome?_step filters stack l
  rw [h] at hout
  simp only [Except.toOption, Option.bind_some, hc, Option.map_some, Step.outcome?] at hout
  split at hout
  · rename_i hf
    obtain ⟨he, hs, hl⟩ : _ ∧ _ ∧ _ := by simpa using hout
    rw [← he, ← hs, ← hl, ← hf]
  · cases hout

theorem row_of_step (h : (step ⟨false, filters⟩ stack l).fault = none) :
    ∃ row, l.readRow.value = .ok row ∧
      row.compile filters stack =
        some ((step ⟨false, filters⟩ stack l).events, (step ⟨false, filters⟩ stack l).stack) ∧
      (step ⟨false, filters⟩ stack l).lexer = l.readRow.lexer := by
  have hout := outcome?_step filters stack l
  rw [Step.outcome?, h] at hout
  cases hr : l.readRow.value with
  | error d =>
    rw [hr] at hout
    cases hout
  | ok row =>
    rw [hr] at hout
    obtain ⟨r, hc, hr⟩ := Option.map_eq_some_iff.1 hout.symm
    obtain ⟨he, hs, hl⟩ : _ ∧ _ ∧ _ := by simpa using hr
    exact ⟨row, rfl, by rw [hc, ← he, ← hs], hl.symm⟩

/-- Rows that compile are steps to the end of the template. -/
theorem steps_of_rows (h : l.rows = .ok rows)
    (hc : compileRows filters stack rows = some (events, stack')) :
    ∃ l', Steps ⟨false, filters⟩ stack l events stack' l' ∧ l'.kind = .eof := by
  fun_induction Lexer.rows l generalizing rows stack events with
  | case1 l hl =>
    cases h
    cases hc
    exact ⟨l, .refl _ _, hl⟩
  | case2 => cases h
  | case3 l hl row hr ih =>
    obtain ⟨more, hmore⟩ := ok_of_map_ok h
    rw [hmore] at h
    cases h
    obtain ⟨⟨first, s⟩, hfirst, hmap⟩ := Option.bind_eq_some_iff.1 hc
    obtain ⟨⟨rest, s'⟩, hrest, heq⟩ := Option.map_eq_some_iff.1 hmap
    cases heq
    have hstep := step_of_row hr hfirst
    obtain ⟨l', hsteps, hend⟩ := ih hmore hrest
    have hhead : Steps ⟨false, filters⟩ stack l
        ((step ⟨false, filters⟩ stack l).events ++ rest) s' l' :=
      .head hl (by rw [hstep]) (by rw [hstep]; exact hsteps)
    rw [hstep] at hhead
    exact ⟨l', hhead, hend⟩

/-- Steps to the end of a template are rows that compile. -/
theorem rows_of_steps (h : Steps ⟨false, filters⟩ stack l events stack' l')
    (hend : l'.kind = .eof) :
    ∃ rows, l.rows = .ok rows ∧ compileRows filters stack rows = some (events, stack') := by
  induction h with
  | refl stack l =>
    exact ⟨[], Lexer.rows_of_eof hend, rfl⟩
  | head hl hf _ ih =>
    obtain ⟨row, hr, hc, hlexer⟩ := row_of_step hf
    obtain ⟨rows, hrows, hcompile⟩ := ih hend
    refine ⟨row :: rows, ?_, ?_⟩
    · rw [Lexer.rows, dif_neg hl, hr, ← hlexer, hrows]
      rfl
    · simp [compileRows, hc, hcompile]

theorem Steps.tolerant (h : Steps ⟨false, filters⟩ stack l events stack' l') :
    Steps ⟨true, filters⟩ stack l events stack' l' := by
  induction h with
  | refl stack l => exact .refl stack l
  | @head stack stack' l l' events hl hf _ ih =>
    have hstep := step_tolerant_of_ok filters stack l hf
    have hhead : Steps ⟨true, filters⟩ stack l
        ((step ⟨true, filters⟩ stack l).events ++ events) stack' l' :=
      .head hl (by rw [hstep, hf]) (by rw [hstep]; exact ih)
    rw [hstep] at hhead
    exact hhead

/-- A run over rows that compile, in either mode, has their events and closes in the
end what is still open. -/
theorem runFrom_of_rows (h : l.rows = .ok rows)
    (hc : compileRows filters stack rows = some (events, stack')) :
    ∃ u : Upcoming, u.kind = .eof ∧ ∀ tolerant, runFrom ⟨tolerant, filters⟩ stack l =
      { events := events ++ (stack'.close 0 u).1 } := by
  obtain ⟨l', hsteps, hend⟩ := steps_of_rows h hc
  refine ⟨l'.upcoming, hend, fun tolerant => ?_⟩
  have hsteps : Steps ⟨tolerant, filters⟩ stack l events stack' l' := by
    cases tolerant with
    | false => exact hsteps
    | true => exact hsteps.tolerant
  rw [hsteps.runFrom_eq, runFrom_of_eof hend]
  rfl

end Context

/-- A template whose rows compile is compiled, in either mode and without a fault. -/
theorem Template.compileWith_of_rows {t : Template} {filters : FilterRegistry} {rows : List Row}
    {events : List Event} {stack : ElementStack}
    (h : (Lexer.ofText t.source).next.rows = .ok rows)
    (hc : compileRows filters {} rows = some (events, stack)) :
    ∃ u : Upcoming, u.kind = .eof ∧ ∀ o : Options,
      (t.run o filters).instructions =
        .start o.tolerant :: (events ++ (stack.close 0 u).1).filterMap Event.instruction? ++
          [.finish] ∧
      t.compileWith o filters = .ok ⟨Script.body (t.run o filters).instructions, []⟩ := by
  obtain ⟨u, hu, hrun⟩ := Context.runFrom_of_rows h hc
  refine ⟨u, hu, fun o => ?_⟩
  have hinstructions : (t.run o filters).instructions =
      .start o.tolerant :: (events ++ (stack.close 0 u).1).filterMap Event.instruction? ++
        [.finish] := by
    rw [run, Context.run_of_ok (by rw [hrun]), hrun]
    simp [Run.instructions]
  have hdiagnostics := Context.diagnostics_runFrom_strict filters {} (Lexer.ofText t.source).next
  rw [hrun] at hdiagnostics
  refine ⟨hinstructions, ?_⟩
  rw [compileWith_of_ok (by rw [hrun]), hrun, hdiagnostics, hinstructions]
  rfl

end Haml
