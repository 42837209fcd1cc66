import Haml.Proofs.OpenElements
import Haml.Proofs.Steps
import Haml.Proofs.Writing
import Haml.Template.Compile

/-!
# Tolerant and strict compilation

A tolerant run and a strict run of the same template go hand in hand up to the
first fault. There the strict run ends, while the tolerant run notes the fault
and always finds a line to go on with.
-/

namespace Haml

namespace Lexer

/-- Deeper lines can always be passed over: the one move that is taken back has
just been made. -/
theorem exists_passDeeperLines (l : Lexer) (depth : Nat) :
    ∃ l', l.passDeeperLines depth = .ok l' := by
  induction l using passDeeperLines_induction depth with
  | ended l _ heq => exact ⟨l, heq⟩
  | stopped l _ _ heq =>
    by_cases hs : l.kind = .space ∧ l.passSpace.kind ≠ .eof
    · have hp : l.passSpace = l.next := by simp [passSpace, hs.1]
      rw [hp] at hs
      rw [hp, pushBack_next hs.2, if_pos hs] at heq
      exact ⟨_, heq⟩
    · exact ⟨l.passSpace, heq.trans (if_neg hs)⟩
  | deeper l _ _ heq ih =>
    rw [heq]
    exact ih

theorem exists_recover (l : Lexer) (depth : Nat) : ∃ l', l.recover depth = .ok l' :=
  exists_passDeeperLines _ depth

end Lexer

/-- The step with its fault noted and passed over. -/
def Step.pardon (s : Step) (d : Diagnostic) : Step :=
  { s with events := s.events ++ [.tolerated d], fault := none }

namespace Context

variable (filters : FilterRegistry) (stack : ElementStack) (l : Lexer) (depth : Nat)

/-- A tolerant context pardons a filter that refuses its block. -/
theorem filterStep_tolerant :
    filterStep ⟨true, filters⟩ stack l depth = filterStep ⟨false, filters⟩ stack l depth ∨
      ∃ d, (filterStep ⟨false, filters⟩ stack l depth).fault = some d ∧
        filterStep ⟨true, filters⟩ stack l depth =
          (filterStep ⟨false, filters⟩ stack l depth).pardon d := by
  simp only [filterStep_eq]
  cases filters.find? l.token.text with
  | none => exact .inl rfl
  | some filter =>
    simp only
    cases (filter (l.takeBlock depth).1 depth l.point).fault with
    | none => exact .inl rfl
    | some d => exact .inr ⟨d, rfl, rfl⟩

theorem construct_tolerant :
    construct ⟨true, filters⟩ stack l depth = construct ⟨false, filters⟩ stack l depth ∨
      ∃ d, (construct ⟨false, filters⟩ stack l depth).fault = some d ∧
        construct ⟨true, filters⟩ stack l depth =
          (construct ⟨false, filters⟩ stack l depth).pardon d := by
  simp only [construct_eq, ownStep_eq]
  split
  · exact .inl rfl
  split
  · exact .inl rfl
  split
  · rcases filterStep_tolerant filters (stack.close depth l.upcoming).2 l depth with h | ⟨d, hd, h⟩
    · exact .inl (by rw [h])
    · refine .inr ⟨d, hd, ?_⟩
      rw [h]
      simp [Step.pardon]
  · exact .inl rfl

/-- A step without a fault is the same in both modes. -/
theorem step_tolerant_of_ok (h : (step ⟨false, filters⟩ stack l).fault = none) :
    step ⟨true, filters⟩ stack l = step ⟨false, filters⟩ stack l := by
  simp only [step_eq] at h ⊢
  split
  · rfl
  rename_i hb
  simp only [hb, Bool.false_eq_true, if_false, indentedLine_eq] at h ⊢
  rcases construct_tolerant filters stack l.passSpace l.token.depth with hc | ⟨d, hd, _⟩
  · rw [hc]
    cases hf : (construct ⟨false, filters⟩ stack l.passSpace l.token.depth).fault with
    | none => rfl
    | some d => simp [hf] at h
  · simp [hd] at h

/-- Where a strict step ends with a fault, the tolerant one notes it and goes on. -/
theorem step_tolerant_of_fault {d : Diagnostic}
    (h : (step ⟨false, filters⟩ stack l).fault = some d) :
    (step ⟨true, filters⟩ stack l).fault = none ∧
      (step ⟨true, filters⟩ stack l).events =
        (step ⟨false, filters⟩ stack l).events ++ [.tolerated d] := by
  simp only [step_eq] at h ⊢
  split
  · rename_i hb
    simp [hb] at h
  rename_i hb
  simp only [hb, Bool.false_eq_true, if_false, indentedLine_eq] at h ⊢
  cases hf : (construct ⟨false, filters⟩ stack l.passSpace l.token.depth).fault with
  | none => simp [hf] at h
  | some e =>
    have he : e = d := by simpa [hf] using h
    subst he
    rcases construct_tolerant filters stack l.passSpace l.token.depth with hc | ⟨d', hd', hc⟩
    · obtain ⟨l', hl'⟩ := Lexer.exists_recover
        (construct ⟨false, filters⟩ stack l.passSpace l.token.depth).lexer l.token.depth
      simp [hc, hf, hl']
    · rw [hf] at hd'
      cases hd'
      simp [hc, Step.pardon]

/-- A strict step notes no fault. -/
theorem diagnostics_filterStep_strict :
    (filterStep ⟨false, filters⟩ stack l depth).events.filterMap Event.diagnostic? = [] := by
  simp only [filterStep_eq]
  split
  · rfl
  · split <;> exact Event.filterMap_diagnostic?_emit _

theorem diagnostics_lineStep :
    (lineStep stack l depth).events.filterMap Event.diagnostic? = [] := by
  obtain ⟨before, after, element?, he, -⟩ := exists_lineStep stack l depth
  rw [he, List.filterMap_append, List.filterMap_append, Event.filterMap_diagnostic?_emit,
    Event.filterMap_diagnostic?_emit]
  cases element? <;> rfl

theorem diagnostics_construct_strict :
    (construct ⟨false, filters⟩ stack l depth).events.filterMap Event.diagnostic? = [] := by
  simp only [construct_eq, ownStep_eq]
  split
  · rfl
  split
  · rfl
  rw [List.filterMap_append, ElementStack.filterMap_diagnostic?_close, List.nil_append,
    List.filterMap_cons_none rfl]
  split
  · exact diagnostics_filterStep_strict ..
  · exact diagnostics_lineStep ..

theorem diagnostics_step_strict :
    (step ⟨false, filters⟩ stack l).events.filterMap Event.diagnostic? = [] := by
  simp only [step_eq]
  split
  · rfl
  have hc := diagnostics_construct_strict filters stack l.passSpace l.token.depth
  simp only [indentedLine_eq, Bool.false_eq_true, if_false]
  split <;> rw [List.filterMap_cons_none rfl, hc]

theorem diagnostics_runFrom_strict :
    (runFrom ⟨false, filters⟩ stack l).diagnostics = [] := by
  generalize hctx : (⟨false, filters⟩ : Context) = ctx
  fun_induction runFrom ctx stack l with
  | case1 stack l => exact stack.filterMap_diagnostic?_close 0 l.upcoming
  | case2 stack l _ s d =>
    subst hctx
    exact diagnostics_step_strict filters stack l
  | case3 stack l _ s _ ih =>
    subst hctx
    rw [Run.diagnostics, Run.after, List.filterMap_append]
    exact List.append_eq_nil_iff.2 ⟨diagnostics_step_strict filters stack l, ih⟩

/-- A tolerant run reaches the end of the template. -/
theorem fault_runFrom_tolerant : (runFrom ⟨true, filters⟩ stack l).fault = none := by
  obtain ⟨events, stack', l', h, hend⟩ := exists_steps ⟨true, filters⟩ stack l
  have hk : l'.kind = .eof := by
    rcases hend with hk | hf
    · exact hk
    · cases hs : (step ⟨false, filters⟩ stack' l').fault with
      | none => rw [step_tolerant_of_ok filters stack' l' hs, hs] at hf; cases hf
      | some d => rw [(step_tolerant_of_fault filters stack' l' hs).1] at hf; cases hf
  rw [h.runFrom_eq, runFrom_of_eof hk]
  rfl

/-- As long as the strict run meets no fault, the tolerant run is the same. At the
first fault the strict run ends, and the tolerant one notes it. -/
theorem runFrom_tolerant :
    match (runFrom ⟨false, filters⟩ stack l).fault with
    | none => runFrom ⟨true, filters⟩ stack l = runFrom ⟨false, filters⟩ stack l
    | some d => ∃ more, (runFrom ⟨true, filters⟩ stack l).events =
        (runFrom ⟨false, filters⟩ stack l).events ++ .tolerated d :: more := by
  generalize hctx : (⟨false, filters⟩ : Context) = ctx
  fun_induction runFrom ctx stack l with
  | case1 stack l hl => exact runFrom_of_eof hl
  | case2 stack l hl s d hd =>
    subst hctx
    obtain ⟨hf, hevents⟩ := step_tolerant_of_fault filters stack l hd
    rw [runFrom_of_step hl hf]
    simp only [Run.after, hevents, List.append_assoc, List.singleton_append]
    exact ⟨_, rfl⟩
  | case3 stack l hl s hs ih =>
    subst hctx
    have hstep := step_tolerant_of_ok filters stack l hs
    have hrun := runFrom_of_step hl (by rw [hstep]; exact hs)
    rw [hstep] at hrun
    rw [hrun]
    simp only [Run.after] at ih ⊢
    split at ih
    · rename_i hn
      simp only [hn, ih, s]
    · rename_i d hd
      obtain ⟨more, hmore⟩ := ih
      simp only [s]
      exact ⟨more, by rw [hmore, List.append_assoc]⟩

end Context

/-- Tolerant compilation never fails. It notes no fault exactly if strict
compilation succeeds, and then the two bodies differ only in the error handler;
if strict compilation fails, it is with the first fault that was noted. -/
theorem Template.tolerant_agrees_with_strict (t : Template) (filters : FilterRegistry) :
    ∃ c, t.compileWith ⟨true⟩ filters = .ok c ∧
      ((∃ c', t.compileWith ⟨false⟩ filters = .ok c') ↔ c.diagnostics = []) ∧
      (∀ c', t.compileWith ⟨false⟩ filters = .ok c' → c'.diagnostics = [] ∧ ∃ rest,
        c'.code = "  var handleError = haml.HamlRuntime." ++ "_raiseError" ++ rest ∧
        c.code = "  var handleError = haml.HamlRuntime." ++ "_logError" ++ rest) ∧
      ∀ d, t.compileWith ⟨false⟩ filters = .error d → c.diagnostics.head? = some d := by
  have htolerant := Context.fault_runFrom_tolerant filters {} (Lexer.ofText t.source).next
  have hstrict := Context.diagnostics_runFrom_strict filters {} (Lexer.ofText t.source).next
  have hrun := Context.runFrom_tolerant filters {} (Lexer.ofText t.source).next
  obtain ⟨start, hfalse, htrue⟩ := Script.exists_preamble
  refine ⟨_, compileWith_of_ok (o := ⟨true⟩) htolerant, ?_⟩
  split at hrun
  · rename_i hf
    rw [compileWith_of_ok (o := ⟨false⟩) hf, hrun]
    refine ⟨⟨fun _ => hstrict, fun _ => ⟨_, rfl⟩⟩, ?_, fun _ h => by cases h⟩
    intro c' hc'
    cases hc'
    refine ⟨hstrict, start ++ Script.body
      ((Context.runFrom ⟨false, filters⟩ {} (Lexer.ofText t.source).next).instructions ++
        [.finish]), ?_, ?_⟩
    · rw [List.cons_append, Script.body_start, hfalse, List.append_assoc]
    · rw [List.cons_append, Script.body_start, htrue, List.append_assoc]
  · rename_i d hf
    obtain ⟨more, hmore⟩ := hrun
    have hhead : (Context.runFrom ⟨true, filters⟩ {}
        (Lexer.ofText t.source).next).diagnostics = d :: more.filterMap Event.diagnostic? := by
      rw [Run.diagnostics, hmore, List.filterMap_append, ← Run.diagnostics, hstrict]
      rfl
    rw [compileWith_of_fault (o := ⟨false⟩) hf]
    refine ⟨⟨?_, ?_⟩, fun _ h => (by cases h), ?_⟩
    · rintro ⟨c', hc'⟩
      cases hc'
    · intro hnil
      rw [hhead] at hnil
      cases hnil
    · intro d' hd'
      cases hd'
      rw [hhead]
      rfl

end Haml
