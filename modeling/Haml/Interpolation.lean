import Haml.Text.Basic

/-!
# Interpolation

Text may hold expressions between `#` with an opening brace and the next closing
brace. A single backslash in front keeps such a region as it stands and is itself
dropped; after two backslashes the region is an expression again.
-/

namespace Haml

inductive Piece where
  | literal (text : Text)
  | code (text : Text)
  deriving DecidableEq, Repr

namespace Piece

/-- A literal piece, unless it would be empty. -/
def ofLiteral (t : Text) : List Piece := if t.isEmpty then [] else [.literal t]

/-- Whether a region is escaped, by the characters before it, nearest first. -/
def isEscaped : Text → Bool
  | '\\' :: '\\' :: _ => false
  | '\\' :: _ => true
  | _ => false

/-- Splits a text after the characters of `before`, nearest first, which belong
to no region. -/
def splitAfter (before : Text) : Text → List Piece
  | [] => ofLiteral before.reverse
  | '#' :: '\x7b' :: t =>
    if t.contains '\x7d' then
      let code := t.takeWhile (· != '\x7d')
      let rest := (t.dropWhile (· != '\x7d')).drop 1
      if isEscaped before then
        ofLiteral (before.drop 1).reverse ++
          .literal ('#' :: '\x7b' :: code ++ ['\x7d']) :: splitAfter [] rest
      else ofLiteral before.reverse ++ .code code :: splitAfter [] rest
    else splitAfter ('#' :: before) ('\x7b' :: t)
  | c :: t => splitAfter (c :: before) t
termination_by t => t.length
decreasing_by
  · have h := (List.dropWhile_sublist (p := (· != '\x7d')) (l := t)).length_le
    simp only [List.length_drop, List.length_cons]
    omega
  · have h := (List.dropWhile_sublist (p := (· != '\x7d')) (l := t)).length_le
    simp only [List.length_drop, List.length_cons]
    omega
  · simp
  · simp

def split (t : Text) : List Piece := splitAfter [] t

end Piece

end Haml
