import Haml.Text.Basic

/-!
# Points

A point is a place in a template as it is shown to people: the line, how many of
its characters have been read, and the line itself.
-/

namespace Haml

structure Point where
  /-- The number of the line, from one. -/
  line : Nat
  /-- How many characters of the line have been read. -/
  column : Nat
  /-- The line, without its end. -/
  text : Text
  deriving DecidableEq, Repr

/-- A message about a point: the place in words, the line, and a caret under the
last character read. -/
def Point.report (p : Point) (message : Text) : Text :=
  message ++ " at line " ++ Text.ofNat p.line ++ " and character " ++ Text.ofNat p.column ++
    ":\n" ++ p.text ++ "\n" ++ List.replicate (p.column - 1) '-' ++ "^"

end Haml
