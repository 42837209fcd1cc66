import Haml.Text.Pattern

/-!
# Reader

A place in a source text: what is still to be read, how many bytes are behind
it, and one remembered place to return to.
-/

namespace Haml

structure Reader where
  source : Text
  /-- How many bytes of the source have been read. -/
  position : Nat
  rest : Text
  /-- The position to return to. -/
  mark : Nat
  deriving DecidableEq, Repr

namespace Reader

def ofText (source : Text) : Reader := ⟨source, 0, source, 0⟩

def atEnd (r : Reader) : Bool := r.rest.isEmpty

def peek? (r : Reader) (n : Nat) : Option Char := r.rest[n]?

def read (r : Reader) : Option Char × Reader :=
  match r.rest with
  | [] => (none, r)
  | c :: t => (some c, { r with position := r.position + c.utf8Size, rest := t })

/-- Moves to a position; one past the end stands for the end. -/
def seek (r : Reader) (position : Nat) : Reader :=
  { r with position := min position r.source.byteSize, rest := r.source.dropBytes position }

def setMark (r : Reader) : Reader := { r with mark := r.position }

def reset (r : Reader) : Reader := r.seek r.mark

def slice (r : Reader) (start stop : Nat) : Text := r.source.slice start stop

/-- What a pattern matches at the present position; nothing is read. -/
def match? (r : Reader) (p : Pattern) : Option Text := p r.rest

end Reader

end Haml
