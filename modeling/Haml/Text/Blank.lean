import Haml.Text.Basic

/-!
# Blank characters

The characters with the Unicode property White_Space, and the operations that
cut a text at them.
-/

namespace Haml

/-- Whether a character has the property White_Space. -/
def isBlank (c : Char) : Bool :=
  let n := c.toNat
  (9 ≤ n && n ≤ 13) || n == 0x20 || n == 0x85 || n == 0xA0 || n == 0x1680 ||
    (0x2000 ≤ n && n ≤ 0x200A) || n == 0x2028 || n == 0x2029 || n == 0x202F ||
    n == 0x205F || n == 0x3000

def isIndent (c : Char) : Bool := c == ' ' || c == '\t'

def isLineBreak (c : Char) : Bool := c == '\n' || c == '\r'

namespace Text

def dropEndWhile (p : Char → Bool) (t : Text) : Text := (t.reverse.dropWhile p).reverse

def trimStart (t : Text) : Text := t.dropWhile isBlank

def trimEnd (t : Text) : Text := dropEndWhile isBlank t

def trim (t : Text) : Text := trimEnd (trimStart t)

def words : Text → List Text
  | [] => []
  | c :: t =>
    if isBlank c then words t
    else
      match t with
      | [] => [[c]]
      | d :: _ =>
        if isBlank d then [c] :: words t
        else
          match words t with
          | [] => [[c]]
          | w :: ws => (c :: w) :: ws

end Text

end Haml
