import Haml.Source.Point

/-!
# Tags

What a line declares about an element before its contents: the name, the ids and
classes, an object that contributes more of them, the attributes of the list and
the hash, and the marks for white space.
-/

namespace Haml

structure Attributes where
  ids : List Text := []
  classes : List Text := []
  /-- The names and values of the attribute list. -/
  pairs : List (Text × Text) := []
  /-- The keys and expressions of the attribute hash. -/
  hash : List (Text × Text) := []
  /-- An object whose id and class are added when the template is rendered. -/
  reference : Option Text := none
  deriving DecidableEq, Repr

/-- Whether attributes are known only when the template is rendered. -/
def Attributes.isDynamic (a : Attributes) : Bool := !a.hash.isEmpty || a.reference.isSome

structure TagOptions where
  selfClosing : Bool := false
  /-- Whether white space stands just inside the element. -/
  inner : Bool := true
  /-- Whether white space stands around the element. -/
  outer : Bool := true
  deriving DecidableEq, Repr

structure TagHead where
  name : Text
  attributes : Attributes
  options : TagOptions
  /-- Where the attribute hash could start. -/
  point : Point
  deriving DecidableEq, Repr

/-- The elements that close themselves when they have no contents. -/
def selfClosingNames : List Text :=
  ["meta".toList, "img".toList, "link".toList, "script".toList, "br".toList, "hr".toList]

def isSelfClosingName (name : Text) : Bool := selfClosingNames.contains name

/-- The element of a line that gives only ids and classes. -/
def defaultTagName : Text := "div"

end Haml
