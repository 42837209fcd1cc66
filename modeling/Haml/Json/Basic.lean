import Haml.Json.Token

/-!
# JSON values

The value that a JSON text stands for. The tokens are taken in one by one; the
arrays and objects around the current place are kept in a stack of frames.
-/

namespace Haml

/-- A JSON value. Strings and names are as they are written, and of a number only
its presence is known. -/
inductive Json where
  | null
  | boolean (value : Bool)
  | number
  | string (written : Text)
  | array (elements : List Json)
  | object (members : List (Text × Json))

namespace Json

/-- An array or object that is not complete. -/
inductive Frame where
  | array (done : List Json)
  /-- An object that waits for the value of the member called `name`. -/
  | object (done : List (Text × Json)) (name : Text)

inductive Expecting where
  | value
  /-- A value, or the end of an array that has just begun. -/
  | element
  /-- The name of a member, or the end of the object if it has just begun. -/
  | member (done : List (Text × Json)) (first : Bool)
  | colon (done : List (Text × Json)) (name : Text)
  /-- Whatever may follow a complete value. -/
  | after (value : Json)

def takeValue? (frames : List Frame) : Token → Option (List Frame × Expecting)
  | .null => some (frames, .after .null)
  | .boolean b => some (frames, .after (.boolean b))
  | .number => some (frames, .after .number)
  | .string s => some (frames, .after (.string s))
  | .openArray => some (.array [] :: frames, .element)
  | .openObject => some (frames, .member [] true)
  | _ => none

def takeAfter? (value : Json) : List Frame → Token → Option (List Frame × Expecting)
  | .array done :: fs, .comma => some (.array (done ++ [value]) :: fs, .value)
  | .array done :: fs, .closeArray => some (fs, .after (.array (done ++ [value])))
  | .object done name :: fs, .comma => some (fs, .member (done ++ [(name, value)]) false)
  | .object done name :: fs, .closeObject =>
    some (fs, .after (.object (done ++ [(name, value)])))
  | _, _ => none

def take? (place : List Frame × Expecting) (t : Token) : Option (List Frame × Expecting) :=
  match place with
  | (frames, .value) => takeValue? frames t
  | (frames, .element) =>
    match frames, t with
    | .array done :: fs, .closeArray => some (fs, .after (.array done))
    | _, t => takeValue? frames t
  | (frames, .member done first) =>
    match t with
    | .string name => some (frames, .colon done name)
    | .closeObject => if first then some (frames, .after (.object done)) else none
    | _ => none
  | (frames, .colon done name) =>
    match t with
    | .colon => some (.object done name :: frames, .value)
    | _ => none
  | (frames, .after value) => takeAfter? value frames t

def parse? (t : Text) : Option Json :=
  match (tokens? t).bind fun ts => ts.foldlM take? ([], .value) with
  | some ([], .after value) => some value
  | _ => none

end Json

end Haml
