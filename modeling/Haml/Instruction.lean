import Haml.Reading
import Haml.Tag.Basic

/-!
# Instructions

A template is compiled to a sequence of instructions for whoever writes the
rendering code: markup to be written out, code to be run, expressions whose
values are written out. Nothing here depends on the language of that code.
-/

namespace Haml

inductive EmbedMode where
  | escape
  | preserve
  | raw
  deriving DecidableEq, Repr

inductive TextProcessing where
  | verbatim
  | escape
  | preserve
  deriving DecidableEq, Repr

def TextProcessing.embedMode : TextProcessing → EmbedMode
  | .verbatim => .raw
  | .escape => .escape
  | .preserve => .preserve

inductive BlockKind where
  | code
  | function
  deriving DecidableEq, Repr

/-- What comes next in the template when a block is closed: the kind of the first
token of the next line, where it ends, and what follows it. -/
structure Upcoming where
  kind : Token.Kind
  position : Nat
  rest : Text
  deriving DecidableEq, Repr

def Lexer.upcoming (l : Lexer) : Upcoming := ⟨l.kind, l.cursor.position, l.rest⟩

inductive Instruction where
  /-- Start the output; a tolerant template logs the errors of its expressions. -/
  | start (tolerant : Bool)
  /-- The depth of the line to which the next instructions belong. -/
  | depth (depth : Nat)
  | markup (text : Text)
  /-- Drop white space at the end of the markup written since the last code. -/
  | trimMarkup
  | code (line newline : Text)
  | expression (indentation code : Text) (mode : EmbedMode) (point : Point)
  /-- Write text out, with the values of the expressions in it if asked for. -/
  | text (text : Text) (interpolate : Bool) (point : Point) (processing : TextProcessing)
  /-- Write attributes out that are known only when the template is rendered. -/
  | attributes (attributes : Attributes) (point : Point)
  /-- End the block that a code line opened. -/
  | closeBlock (kind : BlockKind) (upcoming : Upcoming)
  /-- An expression was scanned; nothing is written. -/
  | scanned (probe : Probe)
  | finish
  deriving DecidableEq, Repr

/-- Whether an instruction only concerns markup that waits to be written out. -/
def Instruction.isMarkup : Instruction → Bool
  | .markup _ | .trimMarkup => true
  | _ => false

end Haml
