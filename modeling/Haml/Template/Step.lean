import Haml.Event
import Haml.Filter.Basic
import Haml.Line.Meaning
import Haml.Line.Reader

/-!
# Steps of a compilation

A template is compiled line by line. Each line first closes what is open at its
depth or deeper, then gives its own instructions. A faulty line ends the
compilation, or in tolerant mode is noted and passed over with its block.
-/

namespace Haml

structure Context where
  tolerant : Bool
  filters : FilterRegistry

/-- The outcome of compiling a line: what happened, what is open now, where the
lexer is, and the diagnostic if the line is faulty. -/
structure Step where
  events : List Event
  stack : ElementStack
  lexer : Lexer
  fault : Option Diagnostic := none

namespace Context

section Taking

variable {m : Type → Type} [Monad m] (take : Lexer.LineTaker m)

def filterStepM (ctx : Context) (stack : ElementStack) (l : Lexer) (depth : Nat) : m Step :=
  match ctx.filters.find? l.token.text with
  | none =>
    pure
      { events := [], stack := stack, lexer := l
        fault := some (l.fault (.unknownFilter l.token.text)) }
  | some filter => do
    let block ← l.takeBlockM take depth
    let result := filter block.1 depth l.point
    let events := .filtering l.token.text block.1.length :: result.instructions.map .emit
    match result.fault with
    | none => pure { events := events, stack := stack, lexer := block.2 }
    | some d =>
      if ctx.tolerant then
        pure { events := events ++ [.tolerated d], stack := stack, lexer := block.2 }
      else pure { events := events, stack := stack, lexer := block.2, fault := some d }

/-- Writes the contents of a line. That the line ends with them is found out last. -/
def contentsStepM (stack : ElementStack) (l : Lexer) (inner : Bool)
    (write : Contents → List Instruction) : m Step := do
  let body ← l.passSpace.takeBodyM take
  let events := (write body.1).map .emit
  match body.2.endContents inner body.1 with
  | .ok l' => pure { events := events, stack := stack, lexer := l' }
  | .error d => pure { events := events, stack := stack, lexer := body.2, fault := some d }

/-- Opens the element of a tag, once all that is declared about it is read, and then
writes its contents. -/
def tagStepM (stack : ElementStack) (l : Lexer) (depth : Nat) : m Step :=
  let tag := l.readTag depth
  let scanned := tag.probes.map fun p => Event.emit (.scanned p)
  match tag.value with
  | .error d => pure { events := scanned, stack := stack, lexer := tag.lexer, fault := some d }
  | .ok head => do
    let opened := (head.element?.map (stack.set depth)).getD stack
    let contents ← contentsStepM take opened tag.lexer head.options.inner
      (·.insideTag depth head.options.inner head.point)
    pure { contents with
      events := scanned ++ head.events depth (stack.framesLines depth) ++ contents.events }

def lineStepM (stack : ElementStack) (l : Lexer) (depth : Nat) : m Step :=
  match l.directive? take depth with
  | some read => do
    let r ← read
    pure
      { events := r.1.events depth (stack.framesLines depth)
        stack := (r.1.element?.map (stack.set depth)).getD stack
        lexer := r.2 }
  | none =>
    if l.startsTag then tagStepM take stack l depth
    else contentsStepM take stack l true
      (·.withoutTag depth (stack.framesLines depth) l.point)

/-- Compiles a line that is not blank, when everything that it closes is closed. -/
def ownStepM (ctx : Context) (stack : ElementStack) (l : Lexer) (depth : Nat) : m Step :=
  if l.kind = .filter then ctx.filterStepM take stack l depth else lineStepM take stack l depth

def constructM (ctx : Context) (stack : ElementStack) (l : Lexer) (depth : Nat) : m Step :=
  if l.kind = .eof then pure { events := [], stack := stack, lexer := l }
  else if l.kind.breaksLine then
    pure
      { events := [.emit (.markup (Text.indentation depth ++ l.token.newline))]
        stack := stack
        lexer := l.next }
  else do
    let closed := stack.close depth l.upcoming
    let own ← ctx.ownStepM take closed.2 l depth
    pure { own with events := closed.1 ++ .emit (.depth depth) :: own.events }

/-- Compiles a line from its indentation on. In tolerant mode only a failure to
pass over a faulty line is left as a fault. -/
def indentedLineM (ctx : Context) (stack : ElementStack) (l : Lexer) : m Step := do
  let depth := l.token.depth
  let step ← ctx.constructM take stack l.passSpace depth
  let events := .emit (.depth depth) :: step.events
  match step.fault with
  | none => pure { step with events := events }
  | some d =>
    if ctx.tolerant then
      match ← step.lexer.recoverM take depth with
      | .ok l' => pure { events := events ++ [.tolerated d], stack := step.stack, lexer := l' }
      | .error d' =>
        pure
          { events := events ++ [.tolerated d], stack := step.stack, lexer := step.lexer
            fault := some d' }
    else pure { step with events := events }

def stepM (ctx : Context) (stack : ElementStack) (l : Lexer) : m Step :=
  if l.kind.breaksLine then
    pure { events := [.emit (.markup l.token.newline)], stack := stack, lexer := l.next }
  else ctx.indentedLineM take stack l

end Taking

def filterStep (ctx : Context) (stack : ElementStack) (l : Lexer) (depth : Nat) : Step :=
  (ctx.filterStepM Lexer.takeAnyLine stack l depth).run

def contentsStep (stack : ElementStack) (l : Lexer) (inner : Bool)
    (write : Contents → List Instruction) : Step :=
  (contentsStepM Lexer.takeAnyLine stack l inner write).run

def lineStep (stack : ElementStack) (l : Lexer) (depth : Nat) : Step :=
  (lineStepM Lexer.takeAnyLine stack l depth).run

def ownStep (ctx : Context) (stack : ElementStack) (l : Lexer) (depth : Nat) : Step :=
  (ctx.ownStepM Lexer.takeAnyLine stack l depth).run

def construct (ctx : Context) (stack : ElementStack) (l : Lexer) (depth : Nat) : Step :=
  (ctx.constructM Lexer.takeAnyLine stack l depth).run

def indentedLine (ctx : Context) (stack : ElementStack) (l : Lexer) : Step :=
  (ctx.indentedLineM Lexer.takeAnyLine stack l).run

def step (ctx : Context) (stack : ElementStack) (l : Lexer) : Step :=
  (ctx.stepM Lexer.takeAnyLine stack l).run

theorem filterStep_eq (ctx : Context) (stack : ElementStack) (l : Lexer) (depth : Nat) :
    ctx.filterStep stack l depth =
      match ctx.filters.find? l.token.text with
      | none =>
        { events := [], stack := stack, lexer := l
          fault := some (l.fault (.unknownFilter l.token.text)) }
      | some filter =>
        let block := l.takeBlock depth
        let result := filter block.1 depth l.point
        let events := .filtering l.token.text block.1.length :: result.instructions.map .emit
        match result.fault with
        | none => { events := events, stack := stack, lexer := block.2 }
        | some d =>
          if ctx.tolerant then
            { events := events ++ [.tolerated d], stack := stack, lexer := block.2 }
          else { events := events, stack := stack, lexer := block.2, fault := some d } := by
  rfl

theorem contentsStep_eq (stack : ElementStack) (l : Lexer) (inner : Bool)
    (write : Contents → List Instruction) :
    contentsStep stack l inner write =
      let body := l.passSpace.takeBody
      let events := (write body.1).map .emit
      match body.2.endContents inner body.1 with
      | .ok l' => { events := events, stack := stack, lexer := l' }
      | .error d => { events := events, stack := stack, lexer := body.2, fault := some d } := by
  rfl

theorem lineStep_eq (stack : ElementStack) (l : Lexer) (depth : Nat) :
    lineStep stack l depth =
      match l.directive? Lexer.takeAnyLine depth with
      | some read =>
        { events := read.run.1.events depth (stack.framesLines depth)
          stack := (read.run.1.element?.map (stack.set depth)).getD stack
          lexer := read.run.2 }
      | none =>
        if l.startsTag then
          let tag := l.readTag depth
          let scanned := tag.probes.map fun p => Event.emit (.scanned p)
          match tag.value with
          | .error d => { events := scanned, stack := stack, lexer := tag.lexer, fault := some d }
          | .ok head =>
            let opened := (head.element?.map (stack.set depth)).getD stack
            let contents := contentsStep opened tag.lexer head.options.inner
              (·.insideTag depth head.options.inner head.point)
            { contents with
              events := scanned ++ head.events depth (stack.framesLines depth) ++
                contents.events }
        else
          contentsStep stack l true (·.withoutTag depth (stack.framesLines depth) l.point) := by
  rw [lineStep, lineStepM]
  cases l.directive? Lexer.takeAnyLine depth with
  | some read => rfl
  | none =>
    by_cases ht : l.startsTag
    · simp only [ht, if_true, tagStepM]
      cases (l.readTag depth).value <;> rfl
    · simp only [ht]
      rfl

theorem ownStep_eq (ctx : Context) (stack : ElementStack) (l : Lexer) (depth : Nat) :
    ctx.ownStep stack l depth =
      if l.kind = .filter then ctx.filterStep stack l depth else lineStep stack l depth := by
  rw [ownStep, ownStepM]
  split <;> rfl

theorem construct_eq (ctx : Context) (stack : ElementStack) (l : Lexer) (depth : Nat) :
    ctx.construct stack l depth =
      if l.kind = .eof then { events := [], stack := stack, lexer := l }
      else if l.kind.breaksLine then
        { events := [.emit (.markup (Text.indentation depth ++ l.token.newline))]
          stack := stack
          lexer := l.next }
      else
        let closed := stack.close depth l.upcoming
        let own := ctx.ownStep closed.2 l depth
        { own with events := closed.1 ++ .emit (.depth depth) :: own.events } := by
  rw [construct, constructM]
  split
  · rfl
  · split <;> rfl

theorem indentedLine_eq (ctx : Context) (stack : ElementStack) (l : Lexer) :
    ctx.indentedLine stack l =
      let depth := l.token.depth
      let step := ctx.construct stack l.passSpace depth
      let events := .emit (.depth depth) :: step.events
      match step.fault with
      | none => { step with events := events }
      | some d =>
        if ctx.tolerant then
          match step.lexer.recover depth with
          | .ok l' => { events := events ++ [.tolerated d], stack := step.stack, lexer := l' }
          | .error d' =>
            { events := events ++ [.tolerated d], stack := step.stack, lexer := step.lexer
              fault := some d' }
        else { step with events := events } := by
  rfl

theorem step_eq (ctx : Context) (stack : ElementStack) (l : Lexer) :
    ctx.step stack l =
      if l.kind.breaksLine then
        { events := [.emit (.markup l.token.newline)], stack := stack, lexer := l.next }
      else ctx.indentedLine stack l := by
  rw [step, stepM]
  split <;> rfl

theorem lexer_contentsStep (stack : ElementStack) (l : Lexer) (inner : Bool)
    (write : Contents → List Instruction) :
    (contentsStep stack l inner write).lexer = (l.readContents inner).lexer := by
  rw [contentsStep_eq, Lexer.readContents, Lexer.readBody]
  cases h : l.passSpace.takeBody.2.endContents inner l.passSpace.takeBody.1 <;> simp only [h]

/-- Compiling a line leads as far as reading it as a whole. -/
theorem lexer_lineStep (stack : ElementStack) (l : Lexer) (depth : Nat) :
    (lineStep stack l depth).lexer = (l.readLine depth).lexer := by
  rw [lineStep_eq, Lexer.readLine]
  cases l.directive? Lexer.takeAnyLine depth with
  | some read => rfl
  | none =>
    by_cases ht : l.startsTag
    · simp only [ht, if_true]
      cases (l.readTag depth).value with
      | error d => rfl
      | ok head => exact lexer_contentsStep _ _ _ _
    · simp only [ht]
      exact lexer_contentsStep _ _ _ _

/-- A line is compiled past its first token, or its first token names an unknown
filter. -/
theorem lexer_construct (ctx : Context) (stack : ElementStack) {l : Lexer} (depth : Nat)
    (h : l.endsLine = false) :
    (ctx.construct stack l depth).lexer.remaining < l.remaining ∨
      ((ctx.construct stack l depth).lexer = l ∧
        (ctx.construct stack l depth).fault.isSome) := by
  have he : l.kind ≠ .eof := Lexer.kind_ne_eof_of_not_endsLine h
  have hb : l.kind.breaksLine = false := Lexer.breaksLine_eq_false h
  simp only [construct_eq, ownStep_eq, he, hb, if_false, Bool.false_eq_true]
  by_cases hf : l.kind = .filter
  · simp only [hf, if_true, filterStep_eq]
    cases ctx.filters.find? l.token.text with
    | none => exact .inr ⟨rfl, rfl⟩
    | some filter =>
      have ht := Lexer.remaining_takeBlock_lt h depth
      left
      simp only
      split
      · exact ht
      · split <;> exact ht
  · have hr := Lexer.remaining_readLine_lt h depth
    left
    simp only [hf, if_false, lexer_lineStep]
    exact hr

/-- A line that is compiled without a fault, or passed over, leaves less to read. -/
theorem remaining_step_lt (ctx : Context) (stack : ElementStack) {l : Lexer}
    (hl : l.kind ≠ .eof) (hf : (ctx.step stack l).fault = none) :
    (ctx.step stack l).lexer.remaining < l.remaining := by
  cases hb : l.kind.breaksLine with
  | true =>
    simp only [step_eq, hb, if_true]
    exact Lexer.remaining_next_lt hl
  | false =>
    have hle := Lexer.remaining_passSpace_le l
    simp only [step_eq, hb, Bool.false_eq_true, if_false] at hf ⊢
    cases he : l.passSpace.endsLine with
    | true =>
      have hs : l.kind = .space := by
        by_cases hs : l.kind = .space
        · exact hs
        · exfalso
          have hp : l.passSpace = l := by simp [Lexer.passSpace, hs]
          rw [hp] at he
          cases hk : l.kind <;>
            simp_all [Lexer.endsLine, Token.Kind.endsLine, Token.Kind.breaksLine]
      have hp : l.passSpace = l.next := by simp [Lexer.passSpace, hs]
      have hlt := Lexer.remaining_next_lt hl
      have hn := Lexer.remaining_next_le l.next
      by_cases hk : l.next.kind = .eof
      · simp only [indentedLine_eq, construct_eq, hp, hk, if_true]
        exact hlt
      · have hbr : l.next.kind.breaksLine := by
          rw [hp] at he
          cases hk' : l.next.kind <;>
            simp_all [Lexer.endsLine, Token.Kind.endsLine, Token.Kind.breaksLine]
        simp only [indentedLine_eq, construct_eq, hp, hk, hbr, if_true, if_false]
        exact Nat.lt_of_le_of_lt hn hlt
    | false =>
      have hc := lexer_construct ctx stack l.token.depth he
      simp only [indentedLine_eq] at hf ⊢
      split at hf
      · rename_i hn
        rcases hc with hc | ⟨_, hc⟩
        · exact Nat.lt_of_lt_of_le hc hle
        · simp [hn] at hc
      · rename_i d hd
        simp only [hd]
        split at hf
        · rename_i ht
          simp only [ht, if_true]
          split at hf
          · rename_i l' hr
            rcases hc with hc | ⟨hc, _⟩
            · have := Lexer.remaining_recover_le hr
              simp only
              omega
            · rw [hc] at hr
              have := Lexer.remaining_recover_lt he hr
              simp only
              omega
          · simp at hf
        · simp at hf
          simp [hf] at hd

end Context

end Haml
