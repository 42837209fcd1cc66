import Haml.Filter.Builtin
import Haml.Options
import Haml.Script.Writer
import Haml.Template.Run

/-!
# Compiling templates

The public entry points: a named template is compiled with given options and
filters to the body of a rendering function, along with the faults that were
passed over and a log of what happened.
-/

namespace Haml

def version : Text := "0.3.0"

structure Template where
  name : Text
  source : Text
  deriving DecidableEq, Repr

structure Compilation where
  /-- The body of the rendering function. -/
  code : Text
  /-- The faults that were passed over, in order. -/
  diagnostics : List Diagnostic
  deriving DecidableEq, Repr

inductive LogEntry where
  | compiling (template : Text)
  | filtering (filter : Text) (lines : Nat)
  | tolerated (template : Text) (d : Diagnostic)
  | compiled (template : Text) (bytes faults : Nat)
  deriving DecidableEq, Repr

namespace LogEntry

/-- Whether an entry is a warning; all others are for debugging. -/
def isWarning : LogEntry → Bool
  | .tolerated _ _ => true
  | _ => false

def message : LogEntry → Text
  | .compiling template => "compiling template '" ++ template ++ "'"
  | .filtering filter lines =>
    "applying filter '" ++ filter ++ "' to " ++ Text.ofNat lines ++ " lines"
  | .tolerated template d => template ++ ": " ++ d.report
  | .compiled template bytes faults =>
    "compiled template '" ++ template ++ "': " ++ Text.ofNat bytes ++ " bytes, " ++
      Text.ofNat faults ++ " skipped faults"

def ofEvent? (template : Text) : Event → Option LogEntry
  | .emit _ | .opened _ _ | .closed _ _ => none
  | .filtering filter lines => some (.filtering filter lines)
  | .tolerated d => some (.tolerated template d)

end LogEntry

namespace Template

def run (t : Template) (o : Options) (filters : FilterRegistry) : Run :=
  Context.run ⟨o.tolerant, filters⟩ t.source

def compilation (r : Run) : Except Diagnostic Compilation :=
  match r.fault with
  | some d => .error d
  | none => .ok ⟨Script.body r.instructions, r.diagnostics⟩

def compileWith (t : Template) (o : Options) (filters : FilterRegistry) :
    Except Diagnostic Compilation :=
  compilation (t.run o filters)

def compile (t : Template) (o : Options) : Except Diagnostic Compilation :=
  t.compileWith o .builtin

def log (t : Template) (o : Options) (filters : FilterRegistry) : List LogEntry :=
  let r := t.run o filters
  .compiling t.name :: r.events.filterMap (LogEntry.ofEvent? t.name) ++
    match compilation r with
    | .error _ => []
    | .ok c => [.compiled t.name c.code.byteSize c.diagnostics.length]

end Template

end Haml
