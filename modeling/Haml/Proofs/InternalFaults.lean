import Haml.Proofs.LineMode
import Haml.Proofs.Placement
import Haml.Proofs.Termination

/-!
# Internal faults

Three messages are about the compiler and not about a template: that a line does not
end where its rest was taken, and the two that a move cannot be taken back. No template
leads to them. Between two lines the lexer always reads template lines again, whatever
list or hash it was in, so the rest of a line always ends on a line end; and passing over
a block takes back only the move it has just made.
-/

namespace Haml

/-- The messages that are about the compiler itself. -/
def internalMessages : List Text :=
  ["Expected EOL or EOF".toList, "Only one token can be pushed back".toList,
    "Cannot push back the end of input".toList]

namespace Fault

def OfTemplate (f : Fault) : Prop := f.message ∉ internalMessages

instance (f : Fault) : Decidable f.OfTemplate := inferInstanceAs (Decidable (_ ∉ _))

/-- The first words of a message tell it from those about the compiler. -/
theorem ofTemplate_of_prefix {f : Fault} {t : Text} (ht : t <+: f.message)
    (h : ∀ m ∈ internalMessages, ¬t <+: m) : f.OfTemplate := fun hm => h _ hm ht

theorem ofTemplate_expectedExpression (key : Text) : (expectedExpression key).OfTemplate :=
  ofTemplate_of_prefix (t := "Expected an expression for attribute hash key '")
    ((List.prefix_append _ _).trans (List.prefix_append _ _)) (by decide)

theorem ofTemplate_unknownFilter (name : Text) : (unknownFilter name).OfTemplate :=
  ofTemplate_of_prefix (t := "Filter '")
    ((List.prefix_append _ _).trans (List.prefix_append _ _)) (by decide)

end Fault

def Reading.FaultsOfTemplate {α : Type} (r : Reading α) : Prop :=
  ∀ d, r.value = .error d → d.fault.OfTemplate

namespace Reading

variable {α β : Type} {l : Lexer} {probes : List Probe}

theorem FaultsOfTemplate.ok (a : α) :
    FaultsOfTemplate { value := .ok a, lexer := l, probes := probes } := by
  rintro _ ⟨⟩

theorem FaultsOfTemplate.error {f : Fault} {p : Point} (h : f.OfTemplate) :
    FaultsOfTemplate (α := α) { value := .error ⟨f, p⟩, lexer := l, probes := probes } := by
  rintro _ ⟨⟩
  exact h

/-- What is made of a value adds no fault. -/
theorem FaultsOfTemplate.map {r : Reading α} (h : r.FaultsOfTemplate) (f : α → β) :
    FaultsOfTemplate { value := r.value.map f, lexer := l, probes := probes } := by
  intro d hd
  cases hv : r.value with
  | error e =>
    rw [hv] at hd
    cases hd
    exact h _ hv
  | ok a =>
    rw [hv] at hd
    cases hd

end Reading

namespace Lexer

open Reading

variable (l : Lexer)

theorem faultsOfTemplate_readAttribute : l.readAttribute.FaultsOfTemplate := by
  simp only [readAttribute]
  split
  · split
    · exact .ok _
    · exact .error (by decide)
  · exact .error (by decide)

theorem faultsOfTemplate_readAttributes : l.readAttributes.FaultsOfTemplate := by
  fun_induction readAttributes l with
  | case1 => exact .ok _
  | case2 l _ e he => exact .error (l.faultsOfTemplate_readAttribute e he)
  | case3 l _ a _ r ih => exact ih.map _
  | case4 l _ ih => exact ih
  | case5 l _ ih => exact ih
  | case6 => exact .error (by decide)

theorem faultsOfTemplate_readAttributeList : l.readAttributeList.FaultsOfTemplate := by
  simp only [readAttributeList]
  split
  · split
    · exact .ok _
    · rename_i e he
      exact .error (faultsOfTemplate_readAttributes _ e he)
  · exact .ok _

theorem ofTemplate_readExpression {d : Diagnostic} (h : l.readExpression.1 = .error d) :
    d.fault.OfTemplate := by
  simp only [readExpression] at h
  cases he : (Expression.scan [] none l.rest).ending <;>
    simp only [he, Expression.Ending.fault?] at h <;> cases h <;> simp only [Lexer.fault] <;> decide

theorem faultsOfTemplate_readHashEntry : l.readHashEntry.FaultsOfTemplate := by
  simp only [readHashEntry]
  split
  · split
    · rename_i e he
      exact .error (ofTemplate_readExpression _ he)
    · split
      · exact .error (Fault.ofTemplate_expectedExpression _)
      · exact .ok _
  · exact .error (by decide)

theorem faultsOfTemplate_readHashEntries : l.readHashEntries.FaultsOfTemplate := by
  fun_induction readHashEntries l with
  | case1 => exact .ok _
  | case2 l key _ entry e he => exact .error (faultsOfTemplate_readHashEntry _ e he)
  | case3 l key _ entry e _ sign _ r ih => exact ih.map _
  | case4 => exact .ok _
  | case5 => exact .error (by decide)
  | case6 => exact .error (by decide)

theorem faultsOfTemplate_readAttributeHash : l.readAttributeHash.FaultsOfTemplate := by
  simp only [readAttributeHash]
  split
  · split
    · exact .ok _
    · rename_i e he
      exact .error (faultsOfTemplate_readHashEntries _ e he)
  · exact .ok _

theorem faultsOfTemplate_readTag (depth : Nat) : (l.readTag depth).FaultsOfTemplate := by
  simp only [readTag]
  split
  · rename_i e he
    exact .error (faultsOfTemplate_readAttributeList _ e he)
  · split
    · rename_i e he
      exact .error (faultsOfTemplate_readAttributeHash _ e he)
    · split
      · exact .error (by decide)
      · exact .ok _

end Lexer

/-- A registry none of whose filters refuses a block with an internal message. -/
def FilterRegistry.FaultsOfTemplate (filters : FilterRegistry) : Prop :=
  ∀ name f, filters.find? name = some f → ∀ block depth point d,
    (f block depth point).fault = some d → d.fault.OfTemplate

/-- No built-in filter refuses a block. -/
theorem FilterRegistry.fault_builtin :
    ∀ e ∈ builtin.entries, ∀ block depth point, (e.2 block depth point).fault = none :=
  forall_builtin (P := fun f => ∀ block depth point, (f block depth point).fault = none)
    (fun _ _ _ _ => rfl) (fun _ _ _ _ => rfl) (fun _ _ _ => rfl) (fun _ _ _ => rfl)

structure Step.FaultsOfTemplate (s : Step) : Prop where
  fault : ∀ d, s.fault = some d → d.fault.OfTemplate
  noted : ∀ d ∈ s.events.filterMap Event.diagnostic?, d.fault.OfTemplate

namespace Context

variable {ctx : Context} {stack stack' : ElementStack} {l l' : Lexer} {events : List Event}

/-- However a line ends, template lines are read behind it. -/
theorem mode_construct (ctx : Context) (stack : ElementStack) (hm : l.mode = .line) (depth : Nat) :
    (ctx.construct stack l depth).lexer.mode = .line := by
  cases he : l.endsLine with
  | true => exact (reaches_construct_of_blank ctx stack depth he).1.mode hm
  | false =>
    rcases advances_construct ctx stack depth he with h | ⟨h, -⟩
    · exact h.mode hm
    · rw [h, hm]

theorem mode_step (ctx : Context) (stack : ElementStack) (hm : l.mode = .line) :
    (ctx.step stack l).lexer.mode = .line := by
  have hline := ctx.mode_construct stack ((Lexer.reaches_passSpace l).mode hm) l.token.depth
  simp only [step_eq]
  split
  · exact hm
  · simp only [indentedLine_eq]
    split
    · exact hline
    · split
      · split
        · rename_i l' hr
          exact (Lexer.reaches_recover hr).mode hline
        · exact hline
      · exact hline

theorem faultsOfTemplate_filterStep (hf : ctx.filters.FaultsOfTemplate) (stack : ElementStack)
    (l : Lexer) (depth : Nat) : (ctx.filterStep stack l depth).FaultsOfTemplate := by
  simp only [filterStep_eq]
  split
  · refine ⟨?_, by simp⟩
    rintro _ ⟨⟩
    exact Fault.ofTemplate_unknownFilter _
  · rename_i filter hfilter
    have hrefused := hf _ _ hfilter (l.takeBlock depth).1 depth l.point
    have hquiet : ∀ is : List Instruction, ∀ name n,
        (Event.filtering name n :: is.map .emit).filterMap Event.diagnostic? = [] := by
      intro is name n
      exact Event.filterMap_diagnostic?_emit is
    split
    · exact ⟨by rintro _ ⟨⟩, by simp [hquiet]⟩
    · rename_i d hd
      split
      · refine ⟨by rintro _ ⟨⟩, ?_⟩
        rw [List.filterMap_append, hquiet]
        intro d' hd'
        obtain rfl : d' = d := by simpa using hd'
        exact hrefused _ hd
      · refine ⟨?_, by simp [hquiet]⟩
        rintro _ ⟨⟩
        exact hrefused d hd

theorem faultsOfTemplate_lineStep (stack : ElementStack) (hm : l.mode = .line) (depth : Nat) :
    (lineStep stack l depth).FaultsOfTemplate := by
  refine ⟨?_, by simp [diagnostics_lineStep]⟩
  intro d hd
  exact l.faultsOfTemplate_readTag depth d (lineStep_of_fault hm hd).2.1

theorem faultsOfTemplate_construct (hf : ctx.filters.FaultsOfTemplate) (stack : ElementStack)
    (hm : l.mode = .line) (depth : Nat) : (ctx.construct stack l depth).FaultsOfTemplate := by
  cases he : l.endsLine with
  | true =>
    simp only [construct_eq]
    split
    · exact ⟨by rintro _ ⟨⟩, by simp⟩
    · rename_i hk
      have hb : l.kind.breaksLine := by
        cases hk' : l.kind <;>
          simp_all [Lexer.endsLine, Token.Kind.endsLine, Token.Kind.breaksLine]
      rw [if_pos hb]
      exact ⟨by rintro _ ⟨⟩, by simp⟩
  | false =>
    have hown : (ctx.ownStep (stack.close depth l.upcoming).2 l depth).FaultsOfTemplate := by
      simp only [ownStep_eq]
      split
      · exact faultsOfTemplate_filterStep hf _ _ _
      · exact faultsOfTemplate_lineStep _ hm _
    rw [construct_of_written he]
    refine ⟨hown.fault, ?_⟩
    simp only [List.filterMap_append, ElementStack.filterMap_diagnostic?_close, List.nil_append,
      List.filterMap_cons, Event.diagnostic?_emit]
    exact hown.noted

/-- What a line is refused for is a fault of the template, and passing over it and its
block adds none. -/
theorem faultsOfTemplate_step (hf : ctx.filters.FaultsOfTemplate) (stack : ElementStack)
    (hm : l.mode = .line) : (ctx.step stack l).FaultsOfTemplate := by
  have hline := faultsOfTemplate_construct hf stack ((Lexer.reaches_passSpace l).mode hm)
    l.token.depth
  simp only [step_eq]
  split
  · exact ⟨by rintro _ ⟨⟩, by simp⟩
  · simp only [indentedLine_eq]
    split
    · exact ⟨by simp_all, by simpa using hline.noted⟩
    · rename_i d hd
      split
      · obtain ⟨l', hl'⟩ := Lexer.exists_recover
          (ctx.construct stack l.passSpace l.token.depth).lexer l.token.depth
        simp only [hl']
        refine ⟨by rintro _ ⟨⟩, ?_⟩
        intro d' hd'
        simp only [List.cons_append, List.filterMap_cons, Event.diagnostic?_emit,
          List.filterMap_append, List.mem_append] at hd'
        rcases hd' with hd' | hd'
        · exact hline.noted d' hd'
        · obtain rfl : d' = d := by simpa using hd'
          exact hline.fault _ hd
      · exact ⟨hline.fault, by simpa using hline.noted⟩

/-- A run ends with, and passes over, faults of the template only. -/
theorem faultsOfTemplate_runFrom (hf : ctx.filters.FaultsOfTemplate) (stack : ElementStack)
    (hm : l.mode = .line) :
    (∀ d, (ctx.runFrom stack l).fault = some d → d.fault.OfTemplate) ∧
      ∀ d ∈ (ctx.runFrom stack l).diagnostics, d.fault.OfTemplate := by
  fun_induction runFrom ctx stack l with
  | case1 stack l =>
    refine ⟨by rintro _ ⟨⟩, ?_⟩
    simp [Run.diagnostics, ElementStack.filterMap_diagnostic?_close]
  | case2 stack l _ s d hd =>
    have hs := faultsOfTemplate_step hf stack hm
    refine ⟨?_, hs.noted⟩
    rintro _ ⟨⟩
    exact hs.fault d hd
  | case3 stack l _ s _ ih =>
    obtain ⟨hend, hnoted⟩ := ih (ctx.mode_step stack hm)
    refine ⟨hend, ?_⟩
    intro d hd
    rw [Run.diagnostics, Run.after, List.filterMap_append, List.mem_append] at hd
    exact hd.elim ((faultsOfTemplate_step hf stack hm).noted d) (hnoted d)

theorem Steps.mode (h : ctx.Steps stack l events stack' l') (hm : l.mode = .line) :
    l'.mode = .line := h.reaches.mode hm

/-- Template lines are read wherever a line that the lexer is on asks for it. -/
structure ReadsLines (ctx : Context) (stack : ElementStack) (l : Lexer) : Prop where
  /-- Where the line starts; a run that reaches the end of the template ends here. -/
  start : l.mode = .line
  /-- Behind its indentation, where it is found out what the line is. -/
  handler : l.passSpace.mode = .line
  /-- Wherever the rest of a line is taken to compile this one, or its block. -/
  line (stack' : ElementStack) (depth : Nat) :
    lineStepM Lexer.takeLine? stack' l.passSpace depth = some (lineStep stack' l.passSpace depth)
  block (depth : Nat) :
    l.passSpace.takeBlockM Lexer.takeLine? depth = some (l.passSpace.takeBlock depth)
  /-- Wherever the rest of a line is taken to pass over this one and its block. -/
  recovery (depth : Nat) :
    let refused := (ctx.construct stack l.passSpace depth).lexer
    refused.mode = .line ∧
      refused.recoverM Lexer.takeLine? depth = some (refused.recover depth)
  /-- Wherever the rest of a line is taken in the step as a whole. -/
  step : ctx.stepM Lexer.takeLine? stack l = some (ctx.step stack l)
  /-- Behind the line; a run that the line ends, ends here. -/
  finish : (ctx.step stack l).lexer.mode = .line

theorem readsLines (ctx : Context) (stack : ElementStack) (hm : l.mode = .line) :
    ctx.ReadsLines stack l :=
  have hspace := (Lexer.reaches_passSpace l).mode hm
  { start := hm
    handler := hspace
    line := fun stack' => lineStepM_takeLine? stack' hspace
    block := Lexer.takeBlockM_takeLine? hspace
    recovery := fun depth =>
      ⟨ctx.mode_construct stack hspace depth, Lexer.recoverM_takeLine? _ depth⟩
    step := ctx.stepM_takeLine? stack hm
    finish := ctx.mode_step stack hm }

end Context

/-- At every line of a run template lines are read, and therefore no compilation fails
with, or passes over, an internal fault. -/
theorem Template.internal_faults_unreachable (t : Template) (o : Options)
    (filters : FilterRegistry) (hf : filters.FaultsOfTemplate) :
    (∀ events stack l,
      Context.Steps ⟨o.tolerant, filters⟩ {} (Lexer.ofText t.source).next events stack l →
        Context.ReadsLines ⟨o.tolerant, filters⟩ stack l) ∧
    (∀ d, t.compileWith o filters = .error d → d.fault.message ∉ internalMessages) ∧
    ∀ c, t.compileWith o filters = .ok c →
      ∀ d ∈ c.diagnostics, d.fault.message ∉ internalMessages := by
  let ctx : Context := ⟨o.tolerant, filters⟩
  have hrun := ctx.faultsOfTemplate_runFrom hf {} (l := (Lexer.ofText t.source).next) rfl
  refine ⟨fun events stack l h => Context.readsLines _ stack (h.mode rfl), ?_⟩
  cases hfault : (Context.runFrom ⟨o.tolerant, filters⟩ {} (Lexer.ofText t.source).next).fault with
  | none =>
    rw [compileWith_of_ok hfault]
    refine ⟨by rintro _ ⟨⟩, ?_⟩
    rintro _ ⟨⟩
    exact hrun.2
  | some d =>
    rw [compileWith_of_fault hfault]
    refine ⟨?_, by rintro _ ⟨⟩⟩
    rintro _ ⟨⟩
    exact hrun.1 d hfault

def Filter.refusing (message : Text) : Filter := fun _ _ point =>
  { fault := some ⟨.refusedByFilter message, point⟩ }

/-- A list that is not closed, a filter that refuses its block and an unknown filter. -/
theorem Template.internal_faults_unreachable_past_list :
    let filters := FilterRegistry.builtin.register "strict" (.refusing "No such luck")
    let t : Template := ⟨"draft", "%p(a=b |\n  %b\n:strict\n  c\n:none\n"⟩
    filters.FaultsOfTemplate ∧
      Context.ReadsLines ⟨true, filters⟩ {} (Lexer.ofText t.source).next ∧
      ∃ c, t.compileWith ⟨true⟩ filters = .ok c ∧ c.diagnostics.length = 3 ∧
        ∀ d ∈ c.diagnostics, d.fault.message ∉ internalMessages := by
  intro filters t
  have hf : filters.FaultsOfTemplate := by
    intro name f h block depth point d hd
    obtain ⟨e, he, rfl⟩ := FilterRegistry.mem_of_find? h
    refine FilterRegistry.forall_insert (P := fun f => ∀ d, (f block depth point).fault = some d →
      d.fault.OfTemplate) ?_ ?_ e he d hd
    · rintro _ ⟨⟩
      exact (by decide : (Fault.refusedByFilter "No such luck").OfTemplate)
    · intro e he d hd
      rw [FilterRegistry.fault_builtin e he] at hd
      cases hd
  obtain ⟨hlines, -, hnoted⟩ := internal_faults_unreachable t ⟨true⟩ filters hf
  have hok := compileWith_of_ok (t := t) (o := ⟨true⟩)
    (Context.fault_runFrom_tolerant filters {} (Lexer.ofText t.source).next)
  exact ⟨hf, hlines _ _ _ (.refl _ _), _, hok, by decide +kernel, hnoted _ hok⟩

end Haml
