import Haml.Instruction

/-!
# Open elements

Tags, comments and code blocks stay open until the indentation drops back. They
are kept by depth: slot `d` holds what a line at depth `d` opened, and the last
slot is never empty.
-/

namespace Haml

/-- Something that a line opened and a later line closes. -/
inductive Element where
  | tag (name : Text) (options : TagOptions)
  /-- A comment, closed with the line end it was opened with. -/
  | comment (newline : Text)
  | conditional (newline : Text)
  | block (kind : BlockKind)
  deriving DecidableEq, Repr

structure ElementStack where
  slots : List (Option Element) := []
  deriving DecidableEq, Repr

namespace ElementStack

def get? (s : ElementStack) (depth : Nat) : Option Element := s.slots[depth]?.join

def set (s : ElementStack) (depth : Nat) (e : Element) : ElementStack :=
  ⟨(s.slots ++ List.replicate (depth + 1 - s.slots.length) none).set depth (some e)⟩

def erase (s : ElementStack) (depth : Nat) : ElementStack :=
  ⟨((s.slots.set depth none).reverse.dropWhile Option.isNone).reverse⟩

/-- The deepest depth at which an element is open. -/
def highest? (s : ElementStack) : Option Nat :=
  if s.slots.isEmpty then none else some (s.slots.length - 1)

def isEmpty (s : ElementStack) : Bool := s.slots.all Option.isNone

/-- Whether lines at this depth may be set off by line ends and indentation. Only
a tag one level up can forbid it. -/
def framesLines (s : ElementStack) : Nat → Bool
  | 0 => true
  | depth + 1 =>
    match s.get? depth with
    | some (.tag _ options) => options.inner
    | _ => true

end ElementStack

def Element.closing (depth : Nat) (framed : Bool) (upcoming : Upcoming) :
    Element → List Instruction
  | .comment newline => [.markup (Text.indentation depth ++ "-->" ++ newline)]
  | .conditional newline => [.markup (Text.indentation depth ++ "<![endif]-->" ++ newline)]
  | .block kind => [.closeBlock kind upcoming]
  | .tag name options =>
    (if options.inner then [.markup (Text.indentation depth)] else [.trimMarkup]) ++
      [.markup ("</" ++ name ++ ">")] ++
      if options.outer && framed then [.markup "\n"] else []

end Haml
