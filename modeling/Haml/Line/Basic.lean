import Haml.Instruction

/-!
# Lines

What a line of a template says.
-/

namespace Haml

/-- What stands on a line behind the tag, or on a line without one. -/
inductive Contents where
  /-- An expression whose value is written out. -/
  | expression (mode : EmbedMode) (code : Text) (point : Point) (newline : Text)
  /-- Text; `extra` levels of indentation were written behind its mark. -/
  | text (text : Text) (interpolate : Bool) (extra : Nat) (newline : Text)
  deriving DecidableEq, Repr

inductive Line where
  | doctype (parameters newline : Text)
  /-- An expression whose value is written out. -/
  | expression (mode : EmbedMode) (code : Text) (point : Point) (newline : Text)
  /-- Code to be run. -/
  | code (code newline : Text)
  /-- A comment that leaves no trace, with its block. -/
  | hidden
  /-- A comment of the markup. -/
  | comment (text newline : Text) (hasContents : Bool)
  /-- Text that is escaped. -/
  | escaped (text : Text) (point : Point) (newline : Text)
  | tag (head : TagHead) (contents : Contents)
  | plain (contents : Contents) (point : Point)
  deriving DecidableEq, Repr

def Token.Kind.embedMode : Token.Kind → EmbedMode
  | .tilde => .preserve
  | .unescaped => .raw
  | _ => .escape

end Haml
