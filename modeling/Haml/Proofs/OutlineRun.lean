import Haml.Proofs.OpenElements
import Haml.Proofs.OutlineLines
import Haml.Proofs.Steps

/-!
# Runs over outlines

A run over the lines of an outline writes its rendering. While it lasts, elements
of earlier lines are still open; they are accounted for by the markup that closes
them, which is written before anything else at their depth.
-/

namespace Haml

open Script

def Element.closer : Element → Text
  | .tag name _ => "</" ++ name ++ ">"
  | .comment _ => "-->"
  | .conditional _ => "<![endif]-->"
  | .block _ => []

/-- Whether an element is closed on a line of its own. -/
def Element.isFramed : Element → Bool
  | .tag _ options => options.inner && options.outer
  | .comment newline => newline == ['\n']
  | .conditional newline => newline == ['\n']
  | .block _ => false

theorem Element.writes_closing {e : Element} (h : e.isFramed = true) (d : Nat) (u : Upcoming) :
    Writes (.depth d :: e.closing d true u) (markupLine d e.closer) := by
  have hdepth := writes_depth d
  cases e with
  | tag name options =>
    obtain ⟨hi, ho⟩ : options.inner = true ∧ options.outer = true := by
      simpa [isFramed] using h
    have htext (a b : Text) : [a, b, ['\n']].flatten = a ++ b ++ ['\n'] := by simp
    have hclosing : closing d true u (.tag name options) =
        [Text.indentation d, "</" ++ name ++ ">", ['\n']].map .markup := by
      rw [closing, hi, ho]
      rfl
    have hwrites := writes_markups [Text.indentation d, "</" ++ name ++ ">", ['\n']]
    rw [htext] at hwrites
    rw [hclosing]
    exact hdepth.cons hwrites
  | comment newline =>
    obtain rfl : newline = ['\n'] := by simpa [isFramed] using h
    exact hdepth.cons (writes_markup _)
  | conditional newline =>
    obtain rfl : newline = ['\n'] := by simpa [isFramed] using h
    exact hdepth.cons (writes_markup _)
  | block kind => cases h

namespace ElementStack

variable {s t : ElementStack} {d : Nat}

def Framed (s : ElementStack) : Prop := ∀ i e, s.get? i = some e → e.isFramed = true

theorem Framed.framesLines (h : s.Framed) (d : Nat) : s.framesLines d = true := by
  cases d with
  | zero => rfl
  | succ d =>
    rw [ElementStack.framesLines]
    split
    · rename_i options hget
      have hf := h d _ hget
      simp only [Element.isFramed, Bool.and_eq_true] at hf
      exact hf.1
    · rfl

/-- The lines of markup that close what is open at a depth or deeper. -/
def closers (s : ElementStack) (d : Nat) : Text :=
  (s.openFrom d).flatMap fun p => markupLine p.1 p.2.closer

theorem closers_eq_append (s : ElementStack) (d : Nat) :
    s.closers d = s.closers (d + 1) ++ ((s.get? d).map fun e => markupLine d e.closer).getD [] := by
  rw [closers, openFrom_eq_append, List.flatMap_append, ← closers]
  cases s.get? d <;> simp

theorem closers_eq_nil (h : ∀ i, d ≤ i → s.get? i = none) : s.closers d = [] := by
  rw [closers, openFrom_eq_nil h]
  rfl

/-- Closing down to a depth writes the closing lines and nothing else. -/
theorem writes_close (h : s.Framed) (d : Nat) (u : Upcoming) :
    Writes ((s.close d u).1.filterMap Event.instruction?) (s.closers d) := by
  have hall : ∀ p ∈ s.openFrom d, p.2.isFramed = true := by
    rintro ⟨k, e⟩ hp
    exact h k e (mem_openFrom.1 hp).2
  rw [close_events, closers]
  generalize s.openFrom d = ps at hall
  induction ps with
  | nil => exact .nil
  | cons p ps ih =>
    have hp := Element.writes_closing (hall p (by simp)) p.1 u
    rw [List.flatMap_cons, List.flatMap_cons, List.filterMap_append, closingEvents,
      h.framesLines, List.filterMap_cons_none rfl, Event.filterMap_instruction?_emit]
    exact hp.append (ih fun q hq => hall q (List.mem_cons_of_mem p hq))

end ElementStack

/-- What is noted about faults that are passed over, and on which line. -/
def notes (events : List Event) : List (Text × Nat) :=
  (events.filterMap Event.diagnostic?).map fun d => (d.fault.message, d.point.line)

theorem notes_append (events more : List Event) :
    notes (events ++ more) = notes events ++ notes more := by
  rw [notes, List.filterMap_append, List.map_append]
  rfl

/-- What comes of a line at depth `d`: it closes what is open there or deeper,
writes `text`, and leaves `e?` open at its depth. -/
structure LineOutcome (stack : ElementStack) (d : Nat) (text : Text) (e? : Option Element)
    (faults : List (Text × Nat)) (events : List Event) (stack' : ElementStack) : Prop where
  get?_eq : ∀ i, stack'.get? i = if i < d then stack.get? i else if i = d then e? else none
  writes : Writes (events.filterMap Event.instruction?) (stack.closers d ++ text)
  notes_eq : notes events = faults

/-- What comes of lines at depth `d` and deeper: with what closes the elements
still open, they write what closes those open before, and then `text`. -/
structure BlockOutcome (stack : ElementStack) (d : Nat) (text : Text) (faults : List (Text × Nat))
    (events : List Event) (stack' : ElementStack) : Prop where
  framed : stack'.Framed
  get?_eq : ∀ i, i < d → stack'.get? i = stack.get? i
  writes : ∃ written, Writes (events.filterMap Event.instruction?) written ∧
    written ++ stack'.closers d = stack.closers d ++ text
  notes_eq : notes events = faults

variable {stack stack' stack'' : ElementStack} {d : Nat} {text text' : Text}
  {faults faults' : List (Text × Nat)} {events events' : List Event} {e : Element}

theorem BlockOutcome.nil (h : stack.Framed) : BlockOutcome stack d [] [] [] stack where
  framed := h
  get?_eq _ _ := rfl
  writes := ⟨[], .nil, by simp⟩
  notes_eq := rfl

theorem BlockOutcome.append (h : BlockOutcome stack d text faults events stack')
    (h' : BlockOutcome stack' d text' faults' events' stack'') :
    BlockOutcome stack d (text ++ text') (faults ++ faults') (events ++ events') stack'' := by
  obtain ⟨written, hw, ht⟩ := h.writes
  obtain ⟨written', hw', ht'⟩ := h'.writes
  refine ⟨h'.framed, fun i hi => (h'.get?_eq i hi).trans (h.get?_eq i hi), ?_, ?_⟩
  · refine ⟨written ++ written', ?_, ?_⟩
    · rw [List.filterMap_append]
      exact hw.append hw'
    · rw [List.append_assoc, ht', ← List.append_assoc, ht, List.append_assoc]
  · rw [notes_append, h.notes_eq, h'.notes_eq]

theorem LineOutcome.framed {e? : Option Element}
    (h : LineOutcome stack d text e? faults events stack') (hs : stack.Framed)
    (he : ∀ e, e? = some e → e.isFramed = true) : stack'.Framed := by
  intro i e hi
  rw [h.get?_eq] at hi
  by_cases hlt : i < d
  · rw [if_pos hlt] at hi
    exact hs i e hi
  · rw [if_neg hlt] at hi
    by_cases heq : i = d
    · rw [if_pos heq] at hi
      exact he e hi
    · rw [if_neg heq] at hi
      cases hi

/-- A line that leaves nothing open. -/
theorem LineOutcome.alone (h : LineOutcome stack d text none faults events stack')
    (hs : stack.Framed) : BlockOutcome stack d text faults events stack' where
  framed := h.framed hs fun e he => by cases he
  get?_eq i hi := by rw [h.get?_eq, if_pos hi]
  writes := by
    have hnone : stack'.closers d = [] := by
      apply ElementStack.closers_eq_nil
      intro i hi
      rw [h.get?_eq, if_neg (by omega), ite_self]
    exact ⟨_, h.writes, by rw [hnone, List.append_nil]⟩
  notes_eq := h.notes_eq

/-- A line that leaves an element open, and the lines inside of it. -/
theorem LineOutcome.around (h : LineOutcome stack d text (some e) faults events stack')
    (h' : BlockOutcome stack' (d + 1) text' faults' events' stack'') :
    BlockOutcome stack d (text ++ text' ++ markupLine d e.closer) (faults ++ faults')
      (events ++ events') stack'' := by
  obtain ⟨written, hw, ht⟩ := h'.writes
  have hinside : stack'.closers (d + 1) = [] := by
    apply ElementStack.closers_eq_nil
    intro i hi
    rw [h.get?_eq, if_neg (by omega), if_neg (by omega)]
  have hopen : stack''.get? d = some e := by
    rw [h'.get?_eq d (by omega), h.get?_eq, if_neg (by omega), if_pos rfl]
  refine ⟨h'.framed, ?_, ?_, ?_⟩
  · intro i hi
    rw [h'.get?_eq i (by omega), h.get?_eq, if_pos hi]
  · refine ⟨stack.closers d ++ text ++ written, ?_, ?_⟩
    · rw [List.filterMap_append]
      exact h.writes.append hw
    · rw [hinside, List.nil_append] at ht
      rw [stack''.closers_eq_append, hopen, ← List.append_assoc, List.append_assoc _ written, ht]
      simp
  · rw [notes_append, h.notes_eq, h'.notes_eq]

namespace Context

variable {ctx : Context} {l l' : Lexer} {n : Nat} {w b more rest : Text}

/-- A line that is read without a fault is compiled in one step. -/
theorem step_line (ctx : Context) {line : Line}
    (hl : l.Reads .line n (w ++ (b ++ '\n' :: more))) (hw : Lexer.Indents d w)
    (hb : LineBody b) (hs : stack.Framed) (hf : l.passSpace.kind ≠ .filter)
    (hline : l.passSpace.readLine d = { value := .ok line, lexer := l' })
    (ht : Writes (line.instructions d true) text) :
    ∃ events stack', ctx.Steps stack l events stack' l' ∧
      LineOutcome stack d text line.element? [] events stack' := by
  obtain ⟨hdepth, hend, hbody⟩ := hl.indented hw hb
  have hwritten := (hbody.within hb).endsLine
  have hclosed := stack.get?_close d l.passSpace.upcoming
  have hframed : (stack.close d l.passSpace.upcoming).2.framesLines d = true :=
    (ElementStack.framesLines_congr (t := stack) fun i hi => by rw [hclosed, if_pos hi]).trans
      (hs.framesLines d)
  have hstep : ctx.step stack l =
      { events := .emit (.depth d) :: ((stack.close d l.passSpace.upcoming).1 ++
          .emit (.depth d) :: line.events d true)
        stack := (line.element?.map ((stack.close d l.passSpace.upcoming).2.set d)).getD
          (stack.close d l.passSpace.upcoming).2
        lexer := l' } := by
    have hv : (l.passSpace.readLine l.token.depth).value = .ok line := by rw [hdepth, hline]
    rw [step_of_line hwritten hf hv]
    simp only [lineStep_of_ok hv]
    simp only [hdepth, hframed, hline]
    rfl
  have hsteps := Steps.single (Lexer.kind_ne_eof_of_not_endsLine hend) (by rw [hstep])
  rw [hstep] at hsteps
  refine ⟨_, _, hsteps, ?_, ?_, ?_⟩
  · intro i
    cases line.element? with
    | none => simp only [Option.map_none, Option.getD_none, hclosed, ite_self]
    | some e =>
      simp only [Option.map_some, Option.getD_some, ElementStack.get?_set, hclosed]
      by_cases hi : i = d
      · rw [if_pos hi, if_neg (by omega), if_pos hi]
      · rw [if_neg hi, if_neg hi]
  · simp only [List.filterMap_cons, Event.instruction?_emit, List.filterMap_append,
      Line.filterMap_instruction?_events]
    exact (writes_depth d).cons ((ElementStack.writes_close hs d _).append
      ((writes_depth d).cons ht))
  · simp only [notes, List.filterMap_cons, Event.diagnostic?_emit, List.filterMap_append,
      Line.filterMap_diagnostic?_events, ElementStack.filterMap_diagnostic?_close]
    rfl

/-- A line with this text is refused with this message, wherever it stands. It
does nothing, and reading stops within it. -/
structure Refuses (ctx : Context) (b message : Text) : Prop where
  tolerant : ctx.tolerant = true
  refused : ∀ (stack : ElementStack) (l : Lexer) (n d : Nat) (more : Text),
    l.Reads .line n (b ++ '\n' :: more) → ∃ diagnostic l',
      ctx.ownStep stack l d =
        { events := [], stack := stack, lexer := l', fault := some diagnostic } ∧
      diagnostic.fault.message = message ∧ diagnostic.point.line = n ∧ l'.Within n more

/-- A line that is refused is passed over in one step, with all lines below it. -/
theorem step_refused {φ : Type} [FaultyForm φ] {below : Outline φ} {message s : Text}
    (hr : ctx.Refuses b message)
    (hl : l.Reads .line n (w ++ (b ++ '\n' :: (s ++ rest)))) (hw : Lexer.Indents d w)
    (hb : LineBody b) (hs : stack.Framed) (hp : below.Prints (d + 1) s)
    (hrest : NotDeeper d rest) :
    ∃ events stack' l', ctx.Steps stack l events stack' l' ∧
      l'.Reads .line (n + 1 + below.size) rest ∧
      LineOutcome stack d [] none [(message, n)] events stack' := by
  obtain ⟨hdepth, hend, hbody⟩ := hl.indented hw hb
  have hwritten := (hbody.within hb).endsLine
  have hclosed := stack.get?_close d l.passSpace.upcoming
  obtain ⟨diagnostic, l₁, hown, hmessage, hline, hwithin⟩ :=
    hr.refused (stack.close d l.passSpace.upcoming).2 l.passSpace n d (s ++ rest) hbody
  -- Recovery passes over the rest of the line, then over the lines below it.
  obtain ⟨l', hrecover, hl'⟩ : ∃ l', l₁.recover d = .ok l' ∧
      l'.Reads .line (n + 1 + below.size) rest := by
    have hin : (l₁.inMode .line).Within n (s ++ rest) :=
      ⟨hwithin.endsLine, hwithin.line, hwithin.rest⟩
    obtain ⟨l₂, h₂, hl₂⟩ := hp.passedOver (Nat.lt_succ_self d) _ _ _ hin.passLine
    obtain ⟨l₃, h₃, hl₃⟩ := hl₂.passDeeperLines_eq hrest
    exact ⟨l₃, h₂.trans h₃, hl₃⟩
  have hstep : ctx.step stack l =
      { events := .emit (.depth d) :: ((stack.close d l.passSpace.upcoming).1 ++
          [.emit (.depth d)]) ++ [.tolerated diagnostic]
        stack := (stack.close d l.passSpace.upcoming).2
        lexer := l' } := by
    rw [step_of_written hwritten]
    simp only [indentedLine_eq, hdepth, construct_of_written hwritten, hown, hr.tolerant, if_true,
      hrecover]
  have hsteps := Steps.single (Lexer.kind_ne_eof_of_not_endsLine hend) (by rw [hstep])
  rw [hstep] at hsteps
  refine ⟨_, _, l', hsteps, hl', ?_, ?_, ?_⟩
  · intro i
    rw [hclosed, ite_self]
  · have hwrites := (writes_depth d).cons
      ((ElementStack.writes_close hs d l.passSpace.upcoming).append (writes_depth d))
    simpa [List.filterMap_cons] using hwrites
  · simp [notes, List.filterMap_cons, ElementStack.filterMap_diagnostic?_close, hmessage, hline]

end Context

namespace Outline

variable {φ : Type} [FaultyForm φ] {ctx : Context} {o : Outline φ} {s rest : Text} {l : Lexer}
  {n : Nat}

/-- What comes of a container, given what comes of the lines inside of it. -/
theorem Prints.run_around {c : Container} {w : Text} (h : o.Prints (d + 1) s)
    (hc : (c.mayBeEmpty || !o.isNil) = true) (hrest : NotDeeper d rest) (hs : stack.Framed)
    (hw : Lexer.Indents d w) (hl : l.Reads .line n (w ++ (c.line ++ '\n' :: (s ++ rest))))
    (hinside : ∀ stack l, stack.Framed → l.Reads .line (n + 1) (s ++ rest) →
      ∃ events stack' l', ctx.Steps stack l events stack' l' ∧
        l'.Reads .line (n + 1 + o.size) rest ∧
        BlockOutcome stack (d + 1) (o.render (d + 1)) (o.faults (n + 1)) events stack') :
    ∃ events stack' l', ctx.Steps stack l events stack' l' ∧
      l'.Reads .line (n + 1 + o.size) rest ∧
      BlockOutcome stack d (c.around d o.isNil (o.render (d + 1))) (o.faults (n + 1)) events
        stack' := by
  obtain ⟨-, -, hbody⟩ := hl.indented hw c.lineBody
  obtain ⟨hf, point, l₁, hline, hl₁⟩ := hbody.readLine_container d
  rw [h.depth_lt hrest hl₁] at hline
  by_cases hself : o.isNil = true ∧ c.selfClosed?.isSome = true
  · -- Nothing is below the line, and the container closes itself.
    obtain ⟨hnil, hself⟩ := hself
    obtain ⟨alone, halone⟩ := Option.isSome_iff_exists.1 hself
    rw [hnil, Bool.not_true] at hline
    obtain ⟨helement, hwrites⟩ := Container.reading_of_selfClosed halone point d
    obtain ⟨events, stack', hsteps, hout⟩ :=
      Context.step_line ctx hl hw c.lineBody hs hf hline hwrites
    rw [helement] at hout
    obtain rfl := isNil_iff.1 hnil
    obtain rfl : s = [] := by cases h; rfl
    exact ⟨events, stack', l₁, hsteps, hl₁,
      Container.around_of_selfClosed halone d _ ▸ hout.alone hs⟩
  · have hopen : o.isNil = false ∨ c.mayBeEmpty = true ∧ c.selfClosed? = none := by
      cases hnil : o.isNil with
      | false => exact .inl rfl
      | true =>
        refine .inr ⟨by simpa [hnil] using hc, ?_⟩
        simpa [hnil] using hself
    have hread : (!o.isNil) = true ∨ c.mayBeEmpty = true ∧ c.selfClosed? = none :=
      hopen.imp_left fun h => by rw [h]; rfl
    obtain ⟨helement, hwrites⟩ := Container.reading_of_open hread point d
    obtain ⟨events₁, stack₁, hsteps₁, hout₁⟩ :=
      Context.step_line ctx hl hw c.lineBody hs hf hline hwrites
    rw [helement] at hout₁
    have hframed : stack₁.Framed := by
      apply hout₁.framed hs
      intro e he
      cases he
      cases c <;> rfl
    obtain ⟨events₂, stack₂, l₂, hsteps₂, hl₂, hout₂⟩ := hinside stack₁ l₁ hframed hl₁
    have hcloser : c.element.closer = c.closing := by cases c <;> rfl
    rw [Container.around_of_open (hopen.imp_right And.right), ← hcloser]
    exact ⟨_, stack₂, l₂, hsteps₁.trans hsteps₂, hl₂, hout₁.around hout₂⟩

/-- A run over the lines of an outline writes its rendering and notes its faults. -/
theorem Prints.run (hφ : ∀ x : φ, ctx.Refuses (FaultyForm.text x) (FaultyForm.message x))
    (h : o.Prints d s) (hfilled : o.isFilled = true) (hrest : NotDeeper d rest)
    (hs : stack.Framed) (hl : l.Reads .line n (s ++ rest)) :
    ∃ events stack' l', ctx.Steps stack l events stack' l' ∧
      l'.Reads .line (n + o.size) rest ∧
      BlockOutcome stack d (o.render d) (o.faults n) events stack' := by
  induction h generalizing stack l n rest with
  | nil d => exact ⟨[], stack, l, .refl _ _, hl, .nil hs⟩
  | @text d t next w s hw hp ih =>
    rw [printed_append] at hl
    obtain ⟨-, -, hbody⟩ := hl.indented hw t.lineBody
    obtain ⟨hf, l₁, hline, hl₁⟩ := hbody.readLine_text d
    obtain ⟨events₁, stack₁, hsteps₁, hout₁⟩ :=
      Context.step_line ctx hl hw t.lineBody hs hf hline (t.writes_line _ d)
    obtain ⟨events₂, stack₂, l₂, hsteps₂, hl₂, hout₂⟩ :=
      ih hfilled hrest (hout₁.alone hs).framed hl₁
    rw [Nat.add_assoc] at hl₂
    exact ⟨_, stack₂, l₂, hsteps₁.trans hsteps₂, hl₂, (hout₁.alone hs).append hout₂⟩
  | @element d c children next w s s' hw hp hp' ih ih' =>
    rw [printed_append, List.append_assoc] at hl
    obtain ⟨⟨hc, hchildren⟩, hnext⟩ : ((c.mayBeEmpty || !children.isNil) = true ∧
        children.isFilled = true) ∧ next.isFilled = true := by
      simpa [isFilled] using hfilled
    have hbehind := hp'.notDeeper hrest
    obtain ⟨events₁, stack₁, l₁, hsteps₁, hl₁, hout₁⟩ := hp.run_around hc hbehind hs hw hl
      fun stack l hs hl => ih hchildren (hbehind.mono (Nat.le_succ d)) hs hl
    obtain ⟨events₂, stack₂, l₂, hsteps₂, hl₂, hout₂⟩ := ih' hnext hrest hout₁.framed hl₁
    rw [Nat.add_assoc, Nat.add_assoc] at hl₂
    exact ⟨_, stack₂, l₂, hsteps₁.trans hsteps₂, hl₂, hout₁.append hout₂⟩
  | @faulty d x below next w s s' hw hp hp' ih ih' =>
    rw [printed_append, List.append_assoc] at hl
    obtain ⟨events₁, stack₁, l₁, hsteps₁, hl₁, hout₁⟩ := Context.step_refused (hφ x) hl hw
      (FaultyForm.lineBody x) hs hp (hp'.notDeeper hrest)
    obtain ⟨events₂, stack₂, l₂, hsteps₂, hl₂, hout₂⟩ :=
      ih' hfilled hrest (hout₁.alone hs).framed hl₁
    rw [Nat.add_assoc, Nat.add_assoc] at hl₂
    exact ⟨_, stack₂, l₂, hsteps₁.trans hsteps₂, hl₂, (hout₁.alone hs).append hout₂⟩

end Outline

end Haml
