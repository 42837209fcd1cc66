import Haml.Text.Basic

/-!
# Static attributes

Attributes known when the template is compiled. They are merged by name, in the
order in which the names first appear: the parts of `id` and `for` accumulate,
classes accumulate, and of any other attribute the last value counts.
-/

namespace Haml.Html

inductive Value where
  | single (value : Text)
  | parts (values : List Text)
  deriving DecidableEq, Repr

/-- Attributes by name, in the order of first appearance. -/
abbrev AttributeSet := List (Text × Value)

/-- Attributes whose values are joined with hyphens. -/
def isHyphenated (name : Text) : Bool := name == "id" || name == "for"

/-- Attributes that are written with their own name as value. -/
def isBooleanAttribute (name : Text) : Bool :=
  name == "selected" || name == "checked" || name == "disabled"

def Value.first (name value : Text) : Value :=
  if name = "class" then .parts [value] else .single value

def Value.combine (name value : Text) : Value → Value
  | .parts vs =>
    if isHyphenated name || name == "class" then .parts (vs ++ [value]) else .single value
  | .single v => if isHyphenated name then .parts [v, value] else .single value

namespace AttributeSet

def insert (name value : Text) : AttributeSet → AttributeSet
  | [] => [(name, .first name value)]
  | (n, v) :: s => if n = name then (n, v.combine name value) :: s else (n, v) :: insert name value s

/-- Takes one more attribute in; empty parts of `id` and `for` are left out. -/
def combine (s : AttributeSet) (pair : Text × Text) : AttributeSet :=
  if isHyphenated pair.1 && pair.2.isEmpty then s else insert pair.1 pair.2 s

end AttributeSet

def Value.render (name : Text) : Value → Text
  | .parts vs => if name = "class" then Text.join " " vs else Text.join "-" vs
  | .single v => if isBooleanAttribute name then name else v

def renderAttribute (a : Text × Value) : Text :=
  " " ++ a.1 ++ "=\"" ++ a.2.render a.1 ++ "\""

def staticAttributes (ids classes : List Text) (pairs : List (Text × Text)) : Text :=
  let all := ids.map (("id".toList, ·)) ++ classes.map (("class".toList, ·)) ++ pairs
  ((all.foldl AttributeSet.combine []).map renderAttribute).flatten

end Haml.Html
