import Haml.Proofs.InternalFaults
import Haml.Proofs.Steps
import Haml.Proofs.Tolerance
import Haml.Proofs.WideLexers

/-!
# Runs of wide sources

A source without carriage returns and its wide form are compiled alike, line by line:
with the same faults at the same points, and to the same instructions but for the width
of the line ends in their texts and for offsets into the source.
-/

namespace Haml

/-! ### What is left without the width of line ends -/

def Attributes.narrow (a : Attributes) : Attributes where
  ids := a.ids.map Text.narrow
  classes := a.classes.map Text.narrow
  pairs := a.pairs.map fun p => (p.1.narrow, p.2.narrow)
  hash := a.hash.map fun e => (e.1.narrow, e.2.narrow)
  reference := a.reference.map Text.narrow

/-- An instruction with a line feed for each wide line end in any of its texts, and
without offsets. -/
def Instruction.narrow : Instruction → Instruction
  | .start tolerant => .start tolerant
  | .depth d => .depth d
  | .markup t => .markup t.narrow
  | .trimMarkup => .trimMarkup
  | .code line newline => .code line.narrow newline.narrow
  | .expression indentation c mode point => .expression indentation.narrow c.narrow mode point
  | .text t interpolate point processing => .text t.narrow interpolate point processing
  | .attributes a point => .attributes a.narrow point
  | .closeBlock kind upcoming => .closeBlock kind upcoming.narrow
  | .scanned probe => .scanned probe.narrow
  | .finish => .finish

theorem Attributes.Like.narrow {a a' : Attributes} (h : a.Like .narrow a') :
    a'.narrow = a.narrow := by
  obtain @⟨ids, classes, pairs, reference, hash, hash', hhash⟩ := h
  have hentries : (hash'.map fun e => (e.1.narrow, e.2.narrow)) =
      hash.map fun e => (e.1.narrow, e.2.narrow) := by
    induction hhash with
    | nil => rfl
    | @cons e e' _ _ he _ ih =>
      have hvalue : e'.2.narrow = e.2.narrow := he.2
      rw [List.map_cons, List.map_cons, ih, he.1, hvalue]
  simp only [Attributes.narrow, hentries]

theorem Instruction.Like.narrow {i i' : Instruction} (h : i.Like .narrow i') :
    i'.narrow = i.narrow := by
  cases h with
  | same => rfl
  | @markup s n n' hs hn =>
    have hn : n'.narrow = n.narrow := hn
    simp only [Instruction.narrow, Text.narrow_append hs, hn]
  | code c hn => exact congrArg (Instruction.code c.narrow) hn
  | expression indentation c mode hp => exact hp ▸ rfl
  | text t interpolate processing hp => exact hp ▸ rfl
  | attributes ha hp => exact hp ▸ congrArg (Instruction.attributes · _) ha.narrow
  | closeBlock kind hu => exact congrArg (Instruction.closeBlock kind) hu
  | scanned hp => exact congrArg Instruction.scanned hp

namespace Event

variable {es es' : List Event} (h : List.Forall₂ (Event.Like .narrow) es es')

include h

theorem instructions_congr :
    (es'.filterMap instruction?).map Instruction.narrow =
      (es.filterMap instruction?).map Instruction.narrow := by
  induction h with
  | nil => rfl
  | @cons e e' es es' he _ ih =>
    cases he with
    | same => cases hi : e.instruction? <;> simp [hi, ih]
    | emit hi => simp [instruction?, hi.narrow, ih]
    | _ => exact ih

theorem diagnostics_congr : es'.filterMap diagnostic? = es.filterMap diagnostic? := by
  induction h with
  | nil => rfl
  | cons he _ ih =>
    cases he with
    | same => simp only [List.filterMap_cons, ih]
    | _ => exact ih

end Event

/-! ### Steps and runs -/

structure Step.Widened (s s' : Step) : Prop where
  events : List.Forall₂ (Event.Like .narrow) s.events s'.events
  stack : s.stack.Like .narrow s'.stack
  lexer : s.lexer.Widened s'.lexer
  fault : s'.fault = s.fault

namespace Context

variable {stack stack' : ElementStack} {l l' : Lexer}

/-- A filter is given the same block, at the same point. -/
theorem widened_filterStep (ctx : Context) (hs : stack.Like .narrow stack') (h : l.Widened l')
    (hm : l.mode = .line) (hk : l.kind = .filter) (depth : Nat) :
    (ctx.filterStep stack l depth).Widened (ctx.filterStep stack' l' depth) := by
  obtain ⟨hblock, hlexer⟩ :=
    (Lexer.lockstep_widened.takeBlock Lexer.resumes_widened h hm depth).resolve_left id
  have htext := Lexer.lockstep_widened.text_eq h (by rw [Lexer.endsLine, hk]; rfl)
  simp only [filterStep_eq, htext, h.fault, h.point, hblock]
  split
  · exact ⟨.nil, hs, h, rfl⟩
  · split
    · exact ⟨Event.forall₂_like_refl _, hs, hlexer, rfl⟩
    · split
      · exact ⟨Event.forall₂_like_refl _, hs, hlexer, rfl⟩
      · exact ⟨Event.forall₂_like_refl _, hs, hlexer, rfl⟩

theorem widened_lineStep (hs : stack.Like .narrow stack') (h : l.Widened l') (hm : l.mode = .line)
    (hl : l.endsLine = false) (depth : Nat) :
    (lineStep stack l depth).Widened (lineStep stack' l' depth) := by
  have hscanned {ps ps' : List Probe} (hp : List.Forall₂ Likeness.narrow.probe ps ps') :
      List.Forall₂ (Event.Like .narrow) (ps.map fun p => .emit (.scanned p))
        (ps'.map fun p => .emit (.scanned p)) :=
    List.rel_map (fun _ _ hp => .emit (.scanned hp)) hp
  cases h.readLine hm hl depth with
  | lost h => exact h.elim
  | fault hd hd' hD hlexer hp =>
    obtain rfl := Likeness.eq_of_diagnostic hD
    rw [lineStep_of_error hm hd, lineStep_of_error (h.mode.trans hm) hd']
    exact ⟨hscanned hp, hs, hlexer, rfl⟩
  | ok hv hv' hline hlexer hp =>
    rw [lineStep_of_ok hv, lineStep_of_ok hv', hs.framesLines]
    exact ⟨List.rel_append (hscanned hp) (hline.events depth _), hs.setAny depth hline.element?,
      hlexer, rfl⟩

theorem widened_ownStep (ctx : Context) (hs : stack.Like .narrow stack') (h : l.Widened l')
    (hm : l.mode = .line) (hl : l.endsLine = false) (depth : Nat) :
    (ctx.ownStep stack l depth).Widened (ctx.ownStep stack' l' depth) := by
  simp only [ownStep_eq, h.kind]
  split
  · rename_i hk
    exact ctx.widened_filterStep hs h hm hk depth
  · exact widened_lineStep hs h hm hl depth

theorem widened_construct (ctx : Context) (hs : stack.Like .narrow stack') (h : l.Widened l')
    (hm : l.mode = .line) (depth : Nat) :
    (ctx.construct stack l depth).Widened (ctx.construct stack' l' depth) := by
  simp only [construct_eq, h.kind]
  split
  · exact ⟨.nil, hs, h, rfl⟩
  · split
    · exact ⟨.cons (.emit (.markup (Text.getLast?_indentation depth) h.token.newline)) .nil, hs,
        h.next, rfl⟩
    · rename_i he hb
      have hown := ctx.widened_ownStep (hs.close depth l.upcoming l'.upcoming) h hm
        (Lexer.endsLine_eq_false he hb) depth
      exact ⟨List.rel_append (hs.events_close depth h.upcoming) (.cons (.same _) hown.events),
        hown.stack, hown.lexer, hown.fault⟩

theorem widened_indentedLine (ctx : Context) (hs : stack.Like .narrow stack') (h : l.Widened l')
    (hm : l.mode = .line) :
    (ctx.indentedLine stack l).Widened (ctx.indentedLine stack' l') := by
  have hspace := Lexer.lockstep_widened.passSpace_within h hm
  have hline := ctx.widened_construct hs hspace ((Lexer.reaches_passSpace l).mode hm)
    l.token.depth
  simp only [indentedLine_eq, Lexer.lockstep_widened.depth h, hline.fault]
  split
  · exact ⟨.cons (.same _) hline.events, hline.stack, hline.lexer, rfl⟩
  · split
    · -- Both lexers find a line to go on with.
      obtain ⟨k, hk⟩ := Lexer.exists_recover
        (ctx.construct stack l.passSpace l.token.depth).lexer l.token.depth
      obtain ⟨k', hk', hlexer⟩ := hline.lexer.recover hk
      simp only [hk, hk']
      exact ⟨.cons (.same _) (List.rel_append hline.events (.cons (.same _) .nil)), hline.stack,
        hlexer, rfl⟩
    · exact ⟨.cons (.same _) hline.events, hline.stack, hline.lexer, rfl⟩

theorem widened_step (ctx : Context) (hs : stack.Like .narrow stack') (h : l.Widened l')
    (hm : l.mode = .line) : (ctx.step stack l).Widened (ctx.step stack' l') := by
  simp only [step_eq, h.kind]
  split
  · exact ⟨.cons (.emit (.lineEnd h.token.newline)) .nil, hs, h.next, rfl⟩
  · exact ctx.widened_indentedLine hs h hm

/-- Step by step, both runs come to the end or to the same fault. -/
theorem widened_runFrom (ctx : Context) (hs : stack.Like .narrow stack') (h : l.Widened l')
    (hm : l.mode = .line) :
    List.Forall₂ (Event.Like .narrow) (ctx.runFrom stack l).events
        (ctx.runFrom stack' l').events ∧
      (ctx.runFrom stack' l').fault = (ctx.runFrom stack l).fault := by
  suffices hall : ∀ t m, stack.Like .narrow t → l.Widened m →
      List.Forall₂ (Event.Like .narrow) (ctx.runFrom stack l).events (ctx.runFrom t m).events ∧
        (ctx.runFrom t m).fault = (ctx.runFrom stack l).fault from hall stack' l' hs h
  clear hs h
  fun_induction runFrom ctx stack l with
  | case1 stack l hk =>
    intro t m hs h
    rw [runFrom_of_eof (h.kind.trans hk)]
    exact ⟨hs.events_close 0 h.upcoming, rfl⟩
  | case2 stack l hk s d hd =>
    intro t m hs h
    have hstep := ctx.widened_step hs h hm
    rw [runFrom_of_fault (by rwa [h.kind]) (hstep.fault.trans hd)]
    exact ⟨hstep.events, rfl⟩
  | case3 stack l hk s hd ih =>
    intro t m hs h
    have hstep := ctx.widened_step hs h hm
    obtain ⟨hevents, hfault⟩ := ih (ctx.mode_step stack hm) _ _ hstep.stack hstep.lexer
    rw [runFrom_of_step (by rwa [h.kind]) (hstep.fault.trans hd)]
    exact ⟨List.rel_append hstep.events hevents, hfault⟩

/-- A whole run over the wide form of a source. -/
theorem widened_run (ctx : Context) {source : Text} (h : '\r' ∉ source) :
    List.Forall₂ (Event.Like .narrow) (ctx.run source).events (ctx.run source.widen).events ∧
      (ctx.run source.widen).fault = (ctx.run source).fault := by
  obtain ⟨hevents, hfault⟩ := ctx.widened_runFrom (.refl {}) (Lexer.widened_ofText h).next rfl
  cases hf : (ctx.runFrom {} (Lexer.ofText source).next).fault with
  | none =>
    rw [run_of_ok hf, run_of_ok (hfault.trans hf)]
    exact ⟨.cons (.same _) (List.rel_append hevents (.cons (.same _) .nil)), rfl⟩
  | some d =>
    rw [run_of_fault hf, run_of_fault (hfault.trans hf)]
    exact ⟨.cons (.same _) hevents, rfl⟩

end Context

namespace Template

def widen (t : Template) : Template := { t with source := t.source.widen }

/-- A template without carriage returns and the same with wide line ends are compiled
alike, in either mode and with any filters: both succeed, passing over the same faults, or
both fail with one fault at one point, and the same instructions are given, in which a line
feed stands for each wide line end and offsets do not count. -/
theorem wide_line_ends_compile_alike (t : Template) (o : Options) (filters : FilterRegistry)
    (h : '\r' ∉ t.source) :
    (t.widen.compileWith o filters).map (·.diagnostics) =
        (t.compileWith o filters).map (·.diagnostics) ∧
      (t.widen.run o filters).fault = (t.run o filters).fault ∧
      (t.widen.run o filters).diagnostics = (t.run o filters).diagnostics ∧
      (t.widen.run o filters).instructions.map Instruction.narrow =
        (t.run o filters).instructions.map Instruction.narrow := by
  obtain ⟨hevents, hfault⟩ := Context.widened_run ⟨o.tolerant, filters⟩ h
  have hdiagnostics : (t.widen.run o filters).diagnostics = (t.run o filters).diagnostics :=
    Event.diagnostics_congr hevents
  have hfault : (t.widen.run o filters).fault = (t.run o filters).fault := hfault
  refine ⟨?_, hfault, hdiagnostics, Event.instructions_congr hevents⟩
  simp only [compileWith, compilation, hfault, hdiagnostics]
  cases (t.run o filters).fault <;> rfl

/-- A line end within a hash, one behind a bar, a comment that keeps its line end, and a
line that is passed over. -/
theorem wide_line_ends_compile_alike_in_draft :
    let t : Template :=
      ⟨"draft", "%p\x7ba: 'b\\\nc'\x7d d |\n  e |\n- if (f) \x7b\n  / g\n%i(h\n  j\n%k\n"⟩
    '\r' ∉ t.source ∧ (t.run ⟨true⟩ .builtin).diagnostics.length = 1 ∧
      (t.widen.run ⟨true⟩ .builtin).instructions ≠ (t.run ⟨true⟩ .builtin).instructions ∧
      (t.widen.compile ⟨true⟩).map (·.diagnostics) = (t.compile ⟨true⟩).map (·.diagnostics) ∧
      (t.widen.run ⟨true⟩ .builtin).instructions.map Instruction.narrow =
        (t.run ⟨true⟩ .builtin).instructions.map Instruction.narrow := by
  intro t
  have h : '\r' ∉ t.source := by decide
  obtain ⟨hcompile, -, -, hinstructions⟩ := wide_line_ends_compile_alike t ⟨true⟩ .builtin h
  exact ⟨h, by decide +kernel, by decide +kernel, hcompile, hinstructions⟩

end Template

end Haml
