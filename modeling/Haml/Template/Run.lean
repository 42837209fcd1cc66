import Haml.Template.Step

/-!
# Compilation runs

A run compiles line after line to the end of the template, or to the first fault
that is not tolerated, and closes in the end what is still open.
-/

namespace Haml

/-- Everything that happened in a run, and the diagnostic that ended it early. -/
structure Run where
  events : List Event
  fault : Option Diagnostic := none
  deriving DecidableEq, Repr

namespace Run

def instructions (r : Run) : List Instruction := r.events.filterMap Event.instruction?

def diagnostics (r : Run) : List Diagnostic := r.events.filterMap Event.diagnostic?

/-- The events before those of a run. -/
def after (events : List Event) (r : Run) : Run := { r with events := events ++ r.events }

end Run

namespace Context

def runFrom (ctx : Context) (stack : ElementStack) (l : Lexer) : Run :=
  if _ : l.kind = .eof then { events := (stack.close 0 l.upcoming).1 }
  else
    let s := ctx.step stack l
    match _ : s.fault with
    | some d => { events := s.events, fault := some d }
    | none => (ctx.runFrom s.stack s.lexer).after s.events
termination_by l.remaining
decreasing_by exact remaining_step_lt ctx stack ‹_› ‹_›

def run (ctx : Context) (source : Text) : Run :=
  let r := (ctx.runFrom {} (Lexer.ofText source).next).after [.emit (.start ctx.tolerant)]
  if r.fault.isSome then r else { r with events := r.events ++ [.emit .finish] }

end Context

end Haml
