import Haml.Text.Basic

/-!
# JSON tokens

A JSON text is cut into tokens by a machine that reads it character by character.
Of numbers only the form is checked. Strings are kept as they are written.
-/

namespace Haml.Json

inductive Token where
  | openArray
  | closeArray
  | openObject
  | closeObject
  | comma
  | colon
  | null
  | boolean (value : Bool)
  | number
  /-- A string, as it is written between the quotes. -/
  | string (written : Text)
  deriving DecidableEq, Repr

inductive NumberState where
  | minus
  | zero
  | whole
  | point
  | fraction
  | exponent
  | exponentSign
  | exponentDigits
  deriving DecidableEq, Repr

def NumberState.isComplete : NumberState → Bool
  | .zero | .whole | .fraction | .exponentDigits => true
  | _ => false

def NumberState.next? (s : NumberState) (c : Char) : Option NumberState :=
  let digit := c.isDigit
  let mark := c == 'e' || c == 'E'
  match s with
  | .minus => if c = '0' then some .zero else if digit then some .whole else none
  | .zero => if c = '.' then some .point else if mark then some .exponent else none
  | .whole =>
    if digit then some .whole
    else if c = '.' then some .point
    else if mark then some .exponent
    else none
  | .point => if digit then some .fraction else none
  | .fraction => if digit then some .fraction else if mark then some .exponent else none
  | .exponent =>
    if digit then some .exponentDigits
    else if c = '+' ∨ c = '-' then some .exponentSign
    else none
  | .exponentSign => if digit then some .exponentDigits else none
  | .exponentDigits => if digit then some .exponentDigits else none

inductive State where
  | between
  | number (s : NumberState)
  /-- A word, of which `left` is still to come. -/
  | word (left : Text) (token : Token)
  /-- A string, of which `written` has come, last character first. -/
  | string (written : Text)
  /-- A string, behind a backslash. -/
  | escape (written : Text)
  /-- A string, with `n` hexadecimal digits of an escape still to come. -/
  | hex (n : Nat) (written : Text)
  deriving DecidableEq, Repr

def isHexDigit (c : Char) : Bool :=
  c.isDigit || ('a' ≤ c && c ≤ 'f') || ('A' ≤ c && c ≤ 'F')

/-- What a character outside all tokens completes and starts. -/
def begin? (c : Char) : Option (List Token × State) :=
  match c with
  | ' ' | '\n' | '\t' | '\r' => some ([], .between)
  | '[' => some ([.openArray], .between)
  | ']' => some ([.closeArray], .between)
  | '\x7b' => some ([.openObject], .between)
  | '\x7d' => some ([.closeObject], .between)
  | ',' => some ([.comma], .between)
  | ':' => some ([.colon], .between)
  | '"' => some ([], .string [])
  | 't' => some ([], .word "rue" (.boolean true))
  | 'f' => some ([], .word "alse" (.boolean false))
  | 'n' => some ([], .word "ull" .null)
  | '-' => some ([], .number .minus)
  | '0' => some ([], .number .zero)
  | c => if c.isDigit then some ([], .number .whole) else none

def State.step? (s : State) (c : Char) : Option (List Token × State) :=
  match s with
  | .between => begin? c
  | .number n =>
    match n.next? c with
    | some n' => some ([], .number n')
    | none => if n.isComplete then (begin? c).map fun r => (.number :: r.1, r.2) else none
  | .word left token =>
    match left with
    | [] => none
    | d :: left =>
      if c ≠ d then none
      else if left.isEmpty then some ([token], .between)
      else some ([], .word left token)
  | .string written =>
    if c = '"' then some ([.string written.reverse], .between)
    else if c = '\\' then some ([], .escape (c :: written))
    else if c.toNat < 32 then none
    else some ([], .string (c :: written))
  | .escape written =>
    if c = 'u' then some ([], .hex 4 (c :: written))
    else if c ∈ ['"', '\\', '/', 'b', 'f', 'n', 'r', 't'] then some ([], .string (c :: written))
    else none
  | .hex n written =>
    if !isHexDigit c then none
    else if n ≤ 1 then some ([], .string (c :: written))
    else some ([], .hex (n - 1) (c :: written))

def State.tokens? : State → Text → Option (List Token)
  | .between, [] => some []
  | .number n, [] => if n.isComplete then some [.number] else none
  | _, [] => none
  | s, c :: t =>
    match s.step? c with
    | none => none
    | some r => (r.2.tokens? t).map (r.1 ++ ·)

def tokens? (t : Text) : Option (List Token) := State.between.tokens? t

def hexValue (c : Char) : Nat :=
  if c.isDigit then c.toNat - 48
  else if 'a' ≤ c then c.toNat - 87
  else c.toNat - 55

def hexUnit (a b c d : Char) : Nat :=
  ((hexValue a * 16 + hexValue b) * 16 + hexValue c) * 16 + hexValue d

def escapedChar : Char → Char
  | 'b' => '\x08'
  | 'f' => '\x0c'
  | 'n' => '\n'
  | 'r' => '\r'
  | 't' => '\t'
  | c => c

/-- The text that a written string stands for; there is none if half of a
surrogate pair stands alone. -/
def unescape? : Text → Option Text
  | [] => some []
  | '\\' :: 'u' :: a :: b :: c :: d :: t =>
    let unit := hexUnit a b c d
    if unit < 0xD800 ∨ 0xDFFF < unit then (unescape? t).map (Char.ofNat unit :: ·)
    else
      match t with
      | '\\' :: 'u' :: e :: f :: g :: h :: t =>
        let low := hexUnit e f g h
        if unit < 0xDC00 ∧ 0xDC00 ≤ low ∧ low ≤ 0xDFFF then
          (unescape? t).map
            (Char.ofNat (0x10000 + (unit - 0xD800) * 0x400 + (low - 0xDC00)) :: ·)
        else none
      | _ => none
  | '\\' :: c :: t => (unescape? t).map (escapedChar c :: ·)
  | c :: t => (unescape? t).map (c :: ·)

end Haml.Json
