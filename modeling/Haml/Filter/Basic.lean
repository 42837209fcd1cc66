import Haml.Instruction
import Haml.Text.Visible

/-!
# Filters

A filter turns the lines of a block into instructions. Filters are looked up by
name in a registry.
-/

namespace Haml

/-- What a filter makes of a block: the instructions it gave, and the diagnostic
if it refused the block after them. -/
structure FilterResult where
  instructions : List Instruction := []
  fault : Option Diagnostic := none
  deriving DecidableEq, Repr

/-- A filter takes the lines of the block, without the indentation of the line
that names it, the depth of that line, and where it stands. -/
abbrev Filter := List Text → Nat → Point → FilterResult

/-- Filters by name, in the order of their names. -/
structure FilterRegistry where
  entries : List (Text × Filter) := []

namespace FilterRegistry

/-- Puts a filter into a list that is sorted by name, in place of one of the same name. -/
def insert (name : Text) (f : Filter) : List (Text × Filter) → List (Text × Filter)
  | [] => [(name, f)]
  | e :: es =>
    if name = e.1 then (name, f) :: es
    else if Text.precedes name e.1 then (name, f) :: e :: es
    else e :: insert name f es

def register (r : FilterRegistry) (name : Text) (f : Filter) : FilterRegistry :=
  ⟨insert name f r.entries⟩

def find? (r : FilterRegistry) (name : Text) : Option Filter := r.entries.lookup name

def contains (r : FilterRegistry) (name : Text) : Bool := (r.find? name).isSome

def names (r : FilterRegistry) : List Text := r.entries.map (·.1)

def describe (r : FilterRegistry) : Text :=
  "FilterRegistry \x7b filters: [" ++ Text.join ", " (r.names.map Text.listed) ++ "] \x7d"

end FilterRegistry

end Haml
