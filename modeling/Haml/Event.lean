import Haml.Element

/-!
# Events

What happens in the course of a compilation: instructions are given, elements
are opened and closed, filters are applied, faults are passed over.
-/

namespace Haml

inductive Event where
  | emit (i : Instruction)
  /-- A line leaves an element open at its depth. -/
  | opened (depth : Nat) (e : Element)
  | closed (depth : Nat) (e : Element)
  | filtering (name : Text) (lines : Nat)
  /-- A fault is noted and passed over. -/
  | tolerated (d : Diagnostic)
  deriving DecidableEq, Repr

namespace Event

def instruction? : Event → Option Instruction
  | .emit i => some i
  | _ => none

/-- The fault that is passed over, if any. -/
def diagnostic? : Event → Option Diagnostic
  | .tolerated d => some d
  | _ => none

@[simp] theorem instruction?_emit (i : Instruction) : (emit i).instruction? = some i := rfl

@[simp] theorem diagnostic?_emit (i : Instruction) : (emit i).diagnostic? = none := rfl

@[simp] theorem instruction?_tolerated (d : Diagnostic) : (tolerated d).instruction? = none := rfl

@[simp] theorem diagnostic?_tolerated (d : Diagnostic) : (tolerated d).diagnostic? = some d := rfl

@[simp] theorem filterMap_diagnostic?_emit (is : List Instruction) :
    (is.map emit).filterMap diagnostic? = [] := by
  simp

@[simp] theorem filterMap_instruction?_emit (is : List Instruction) :
    (is.map emit).filterMap instruction? = is := by
  induction is with
  | nil => rfl
  | cons i is ih => simpa using ih

end Event

namespace ElementStack

def closeAt (s : ElementStack) (depth : Nat) (upcoming : Upcoming) :
    List Event × ElementStack :=
  let s' := s.erase depth
  match s.get? depth with
  | none => ([], s')
  | some e =>
    (.closed depth e ::
      (.depth depth :: e.closing depth (s'.framesLines depth) upcoming).map .emit, s')

/-- Closes the elements of the `n` depths from `depth` on, deepest first. -/
def closeDepths (s : ElementStack) (depth : Nat) (upcoming : Upcoming) :
    Nat → List Event × ElementStack
  | 0 => ([], s)
  | n + 1 =>
    let first := s.closeAt (depth + n) upcoming
    let more := first.2.closeDepths depth upcoming n
    (first.1 ++ more.1, more.2)

/-- Closes all elements at `depth` or deeper. -/
def close (s : ElementStack) (depth : Nat) (upcoming : Upcoming) :
    List Event × ElementStack :=
  s.closeDepths depth upcoming (s.slots.length - depth)

end ElementStack

end Haml
