import Haml.Json.Basic
import Haml.Text.Quoted

/-!
# Options

The options of a compilation and their JSON form: an object in which
`tolerateFaults` may be given once and other members are ignored, or an array
that holds at most the one value.
-/

namespace Haml

structure Options where
  /-- Whether faulty lines are noted and passed over. -/
  tolerant : Bool := false
  deriving DecidableEq, Repr

namespace Options

def tolerantName : Text := "tolerateFaults"

/-- Takes one more member of an object in; `given` is the option if it was given
before. -/
def takeMember? (given : Option Bool) (m : Text × Json) : Option (Option Bool) :=
  match Json.unescape? m.1 with
  | none => none
  | some name =>
    if name ≠ tolerantName then some given
    else
      match given, m.2 with
      | none, .boolean b => some (some b)
      | _, _ => none

def ofValue? : Json → Option Options
  | .array [] => some {}
  | .array [.boolean b] => some ⟨b⟩
  | .object members => (members.foldlM takeMember? none).map fun given => ⟨given.getD false⟩
  | _ => none

def ofJson? (t : Text) : Option Options := (Json.parse? t).bind ofValue?

def toJson (o : Options) : Text :=
  "\x7b" ++ tolerantName.quote ++ ":" ++
    (if o.tolerant then "true".toList else "false".toList) ++ "\x7d"

end Options

end Haml
