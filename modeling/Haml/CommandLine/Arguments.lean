import Haml.Text.Basic

/-!
# Arguments

What the command line asks for. Options and the file may come in any order; two
hyphens end the options; no option may be repeated.
-/

namespace Haml

structure Job where
  path : Text
  /-- Options in their JSON form. -/
  options : Option Text
  /-- Whether faults are tolerated whatever the options say. -/
  tolerant : Bool
  deriving DecidableEq, Repr

inductive Command where
  | version
  /-- Compile a file and write the script. -/
  | build (job : Job) (output : Option Text)
  /-- Compile a file and only report. -/
  | check (job : Job)
  deriving DecidableEq, Repr

namespace Command

/-- The options that take a value. -/
inductive Setting where
  | options
  | output
  deriving DecidableEq, Repr

inductive Argument where
  | file
  | tolerateFaults
  /-- An option, perhaps with its value in the same argument. -/
  | setting (s : Setting) (value : Option Text)
  | endOfOptions
  | unknown
  deriving DecidableEq, Repr

def longOption (name : Text) (value : Option Text) : Argument :=
  if name = "options" then .setting .options value
  else if name = "output" then .setting .output value
  else if name = "tolerate-faults" ∧ value.isNone then .tolerateFaults
  else .unknown

/-- What an argument is. A single hyphen names a file. -/
def Argument.ofText : Text → Argument
  | ['-'] => .file
  | ['-', '-'] => .endOfOptions
  | '-' :: '-' :: t =>
    let value := (t.dropWhile (· != '=')).drop 1
    longOption (t.takeWhile (· != '=')) (if t.contains '=' then some value else none)
  | '-' :: 'o' :: t =>
    .setting .output (if t.isEmpty then none else some ((Text.after? "=" t).getD t))
  | '-' :: _ => .unknown
  | _ => .file

/-- The arguments taken in so far. -/
structure Draft where
  file : Option Text := none
  options : Option Text := none
  output : Option Text := none
  tolerant : Bool := false
  deriving DecidableEq, Repr

namespace Draft

def takeFile? (d : Draft) (path : Text) : Option Draft :=
  if d.file.isSome then none else some { d with file := some path }

/-- Takes the value of an option in. The output has to be named. -/
def takeSetting? (d : Draft) (value : Text) : Setting → Option Draft
  | .options => if d.options.isSome then none else some { d with options := some value }
  | .output =>
    if d.output.isSome || value.isEmpty then none else some { d with output := some value }

/-- Whether an argument can be the value of the option before it. -/
def isValue (a : Text) : Bool := a.head? ≠ some '-' || a == "-"

def take? (d : Draft) : List Text → Option Draft
  | [] => some d
  | a :: as =>
    match Argument.ofText a with
    | .unknown => none
    | .endOfOptions => as.foldlM takeFile? d
    | .file => (d.takeFile? a).bind fun d => d.take? as
    | .tolerateFaults => if d.tolerant then none else take? { d with tolerant := true } as
    | .setting s (some value) => (d.takeSetting? value s).bind fun d => d.take? as
    | .setting s none =>
      match as with
      | [] => none
      | value :: as =>
        if isValue value then (d.takeSetting? value s).bind fun d => d.take? as else none

def job? (d : Draft) : Option Job := d.file.map fun path => ⟨path, d.options, d.tolerant⟩

end Draft

def asksVersion (a : Text) : Bool := a == "--version" || (Text.after? "-V" a).isSome

def ofArguments? : List Text → Option Command
  | [] => none
  | a :: as =>
    if asksVersion a then some .version
    else if a = "build" then
      (Draft.take? {} as).bind fun d => d.job?.map (.build · d.output)
    else if a = "check" then
      (Draft.take? {} as).bind fun d => if d.output.isSome then none else d.job?.map .check
    else none

end Command

end Haml
