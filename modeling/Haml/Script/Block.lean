import Haml.Instruction
import Haml.Text.Pattern

/-!
# Blocks of script

Which lines of script leave a block open, and which line closes one itself.
-/

namespace Haml.Script

inductive ParameterState where
  /-- Before the list, or behind a character of a name. -/
  | name
  /-- Behind a comma. -/
  | comma
  /-- Behind blanks, which a name has to follow. -/
  | blank
  deriving DecidableEq, Repr

/-- The text behind a list of parameter names and its closing parenthesis. A
comma stands right behind the name before it. -/
def afterParameters? : ParameterState → Text → Option Text
  | _, [] => none
  | .name, ')' :: t => some t
  | .name, ',' :: t => afterParameters? .comma t
  | _, c :: t =>
    if isWordChar c then afterParameters? .name t
    else if isBlank c then afterParameters? .blank t
    else none

def isOpeningBrace (t : Text) : Bool :=
  match t.trimStart with
  | '\x7b' :: u => u.all isBlank
  | _ => false

def isFunctionHead (t : Text) : Bool :=
  match Text.after? "function" t with
  | none => false
  | some u =>
    match u.trimStart with
    | '(' :: v => (afterParameters? .name v).any isOpeningBrace
    | _ => false

def opensFunction : Text → Bool
  | [] => false
  | c :: t => isFunctionHead (c :: t) || opensFunction t

def opensBlock (line : Text) : Bool := line.trimEnd.getLast? == some '\x7b'

def openedBlock? (line : Text) : Option BlockKind :=
  if opensFunction line then some .function
  else if opensBlock line then some .code
  else none

/-- Whether the next line closes a block itself: it is a code line that starts
with a closing brace. -/
def closesBlock (u : Upcoming) : Bool :=
  u.kind = .minus && (Pattern.closingBrace u.rest).isSome

def closer : BlockKind → Text
  | .code => "\x7d"
  | .function => "\x7d);"

end Haml.Script
