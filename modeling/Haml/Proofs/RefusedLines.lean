import Haml.Proofs.InternalFaults

/-!
# Refused lines

A line that is refused has closed what it had to close, and that is all: it leaves no
element open, writes nothing, and leaves the lexer among template lines. A tag is read as
a whole before its element is opened; contents are written before the line is found to end
with them, but a template line always does. Of what a tag scanned nothing is written.
-/

namespace Haml

open Script

/-- Instructions that write nothing, whatever was written before. -/
def Quiet (is : List Instruction) : Prop := ∀ w : Writer, (w.run is).buffer = w.buffer

namespace Quiet

variable {is js : List Instruction}

theorem nil : Quiet [] := fun _ => rfl

theorem scanned (ps : List Probe) : Quiet (ps.map .scanned) := by
  intro w
  induction ps with
  | nil => rfl
  | cons p ps ih => exact ih

theorem depth_cons (h : Quiet is) (depth : Nat) : Quiet (.depth depth :: is) :=
  fun w => h { w with depth := depth }

/-- Behind other instructions, quiet ones make no difference to what is written. -/
theorem buffer_append (h : Quiet js) (w : Writer) :
    (w.run (is ++ js)).buffer = (w.run is).buffer := by
  rw [Writer.run_append, h]

end Quiet

/-- A registry whose filters write nothing when they refuse a block. -/
def FilterRegistry.QuietOnFault (filters : FilterRegistry) : Prop :=
  ∀ name f, filters.find? name = some f → ∀ block depth point,
    (f block depth point).fault.isSome → Quiet (f block depth point).instructions

/-- A step that amounts to the given events, with the given elements left open. -/
structure Step.AmountsTo (s : Step) (events : List Event) (stack : ElementStack) : Prop where
  stack : s.stack = stack
  /-- The text that is pending and the code that is written are the same. -/
  buffer : ∀ w : Writer, (w.run (s.events.filterMap Event.instruction?)).buffer =
    (w.run (events.filterMap Event.instruction?)).buffer
  /-- Template lines are read behind it. -/
  mode : s.lexer.mode = .line

namespace Context

variable {ctx : Context} {stack stack' : ElementStack} {l l' : Lexer} {events : List Event}
variable {d : Diagnostic}

/-- A filter line is refused before its block is looked at, or by the filter itself. -/
theorem quiet_filterStep_of_fault (hf : ctx.filters.QuietOnFault) {depth : Nat}
    (hd : (ctx.filterStep stack l depth).fault = some d) :
    (ctx.filterStep stack l depth).stack = stack ∧
      Quiet ((ctx.filterStep stack l depth).events.filterMap Event.instruction?) := by
  simp only [filterStep_eq] at hd ⊢
  cases hfilter : ctx.filters.find? l.token.text with
  | none => exact ⟨rfl, .nil⟩
  | some filter =>
    simp only [hfilter] at hd ⊢
    cases he : (filter (l.takeBlock depth).1 depth l.point).fault with
    | none =>
      simp only [he] at hd
      cases hd
    | some e =>
      have hquiet := hf _ _ hfilter _ _ _ (by rw [he]; rfl)
      simp only [he] at hd ⊢
      split at hd
      · cases hd
      · rename_i ht
        rw [if_neg ht]
        refine ⟨rfl, ?_⟩
        rw [List.filterMap_cons_none rfl, Event.filterMap_instruction?_emit]
        exact hquiet

/-- A line that is refused has opened nothing, and its contents are not written. -/
theorem quiet_lineStep_of_fault (hm : l.mode = .line) {depth : Nat}
    (hd : (lineStep stack l depth).fault = some d) :
    (lineStep stack l depth).stack = stack ∧
      Quiet ((lineStep stack l depth).events.filterMap Event.instruction?) := by
  rw [(lineStep_of_fault hm hd).2.2]
  refine ⟨rfl, ?_⟩
  have hevents : ((l.readTag depth).probes.map fun p => Event.emit (.scanned p)) =
      ((l.readTag depth).probes.map Instruction.scanned).map .emit := by
    rw [List.map_map]
    rfl
  rw [hevents, Event.filterMap_instruction?_emit]
  exact .scanned _

theorem quiet_ownStep_of_fault (hf : ctx.filters.QuietOnFault) (hm : l.mode = .line) {depth : Nat}
    (hd : (ctx.ownStep stack l depth).fault = some d) :
    (ctx.ownStep stack l depth).stack = stack ∧
      Quiet ((ctx.ownStep stack l depth).events.filterMap Event.instruction?) := by
  simp only [ownStep_eq] at hd ⊢
  split at hd
  · rename_i hk
    rw [if_pos hk]
    exact quiet_filterStep_of_fault hf hd
  · rename_i hk
    rw [if_neg hk]
    exact quiet_lineStep_of_fault hm hd

/-- A blank line is never refused. -/
theorem endsLine_of_fault {depth : Nat} (hd : (ctx.construct stack l depth).fault = some d) :
    l.endsLine = false := by
  by_contra he
  rw [(reaches_construct_of_blank ctx stack depth (by simpa using he)).2] at hd
  cases hd

theorem construct_of_fault (hf : ctx.filters.QuietOnFault) (hm : l.mode = .line) {depth : Nat}
    (hd : (ctx.construct stack l depth).fault = some d) :
    (ctx.construct stack l depth).AmountsTo (stack.close depth l.upcoming).1
      (stack.close depth l.upcoming).2 := by
  have hmode := ctx.mode_construct stack hm depth
  have hwritten := endsLine_of_fault hd
  rw [construct_of_written hwritten] at hd hmode ⊢
  obtain ⟨hstack, hquiet⟩ := quiet_ownStep_of_fault hf hm hd
  refine ⟨hstack, fun w => ?_, hmode⟩
  rw [List.filterMap_append]
  exact (hquiet.depth_cons depth).buffer_append w

/-- Passing over a refused line neither writes nor closes anything. -/
theorem step_of_fault (hf : ctx.filters.QuietOnFault) (hm : l.mode = .line)
    (hd : (ctx.construct stack l.passSpace l.token.depth).fault = some d) :
    (ctx.step stack l).AmountsTo
      (.emit (.depth l.token.depth) :: (stack.close l.token.depth l.passSpace.upcoming).1)
      (stack.close l.token.depth l.passSpace.upcoming).2 := by
  have hline := construct_of_fault hf ((Lexer.reaches_passSpace l).mode hm) hd
  have hmode := ctx.mode_step stack hm
  obtain ⟨l', hl'⟩ := Lexer.exists_recover
    (ctx.construct stack l.passSpace l.token.depth).lexer l.token.depth
  rw [step_of_written (endsLine_of_fault hd)] at hmode ⊢
  refine ⟨?_, ?_, hmode⟩
  · simp only [indentedLine_eq, hd, hl']
    split <;> exact hline.stack
  · intro w
    have hbuffer := hline.buffer { w with depth := l.token.depth }
    simp only [indentedLine_eq, hd, hl']
    split
    · have hnone : [Event.tolerated d].filterMap Event.instruction? = [] := rfl
      rw [List.filterMap_append, hnone, List.append_nil]
      exact hbuffer
    · exact hbuffer

/-- A refused line leaves no trace but its closings: no element of its own is open, what
is written is what the closings wrote, and template lines are read on. In tolerant mode
the same holds behind the lines that are passed over with it. -/
theorem refused_line_leaves_no_trace (ctx : Context) (hf : ctx.filters.QuietOnFault)
    (source : Text) (h : ctx.Steps {} (Lexer.ofText source).next events stack l)
    (hd : (ctx.construct stack l.passSpace l.token.depth).fault = some d) :
    let closed := stack.close l.token.depth l.passSpace.upcoming
    (ctx.construct stack l.passSpace l.token.depth).AmountsTo closed.1 closed.2 ∧
      (ctx.step stack l).AmountsTo (.emit (.depth l.token.depth) :: closed.1) closed.2 :=
  have hm := h.mode rfl
  ⟨construct_of_fault hf ((Lexer.reaches_passSpace l).mode hm) hd, step_of_fault hf hm hd⟩

/-- The third line closes the second and is refused in its hash, behind a complete list. -/
theorem refused_line_leaves_no_trace_in_hash :
    let ctx : Context := ⟨true, FilterRegistry.builtin.register "strict" (.refusing "No such luck")⟩
    let source : Text := "%ul\n  %li\n  %a(b='c')\x7bd: [e\x7d f\n    g\n"
    let first := ctx.step {} (Lexer.ofText source).next
    let second := ctx.step first.stack first.lexer
    let l := second.lexer
    let closed := second.stack.close l.token.depth l.passSpace.upcoming
    ctx.filters.QuietOnFault ∧ closed.1 ≠ [] ∧ (ctx.step second.stack l).lexer.kind = .eof ∧
      (ctx.construct second.stack l.passSpace l.token.depth).fault.map (·.fault) =
        some .unbalancedBrackets ∧
      (ctx.construct second.stack l.passSpace l.token.depth).AmountsTo closed.1 closed.2 ∧
      (ctx.step second.stack l).AmountsTo (.emit (.depth l.token.depth) :: closed.1) closed.2 := by
  intro ctx source first second l closed
  have hf : ctx.filters.QuietOnFault := by
    intro name f h block depth point hfault
    obtain ⟨e, he, rfl⟩ := FilterRegistry.mem_of_find? h
    refine FilterRegistry.forall_insert (P := fun f => (f block depth point).fault.isSome →
      Quiet (f block depth point).instructions) (fun _ => .nil) ?_ e he hfault
    intro e he hfault
    rw [FilterRegistry.fault_builtin e he] at hfault
    cases hfault
  have hsteps : ctx.Steps {} (Lexer.ofText source).next (first.events ++ (second.events ++ []))
      second.stack l :=
    .head (by decide +kernel) (by decide +kernel)
      (.head (by decide +kernel) (by decide +kernel) (.refl _ _))
  have hfault : (ctx.construct second.stack l.passSpace l.token.depth).fault.map (·.fault) =
      some .unbalancedBrackets := by decide +kernel
  obtain ⟨d, hd, -⟩ := Option.map_eq_some_iff.1 hfault
  exact ⟨hf, by decide +kernel, by decide +kernel, hfault,
    refused_line_leaves_no_trace ctx hf source hsteps hd⟩

end Context

end Haml
