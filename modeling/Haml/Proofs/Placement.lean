import Haml.Proofs.Likeness
import Haml.Template.Compile

/-!
# What does not depend on places

Points, offsets and what is upcoming say where in a template something stands. Rows that
differ only in these are compiled to the same operations.
-/

namespace Haml

/-- The point that stands for all points. -/
def Point.anywhere : Point := ⟨0, 0, []⟩

def Upcoming.anything : Upcoming := ⟨.eof, 0, []⟩

/-- An expression that was scanned, by its length and not by its ends. -/
def Probe.unplaced (p : Probe) : Probe := ⟨0, p.stop - p.start, p.expression⟩

/-- The likeness of what differs only in where it stands. -/
def Likeness.unplaced : Likeness where
  text := Eq
  point _ _ := True
  fault _ _ := True
  probe p p' := p'.unplaced = p.unplaced
  upcoming _ _ := True
  text_refl _ := rfl
  point_refl _ := trivial
  fault_refl _ := trivial
  probe_refl _ := rfl
  upcoming_refl _ := trivial
  text_isEmpty h := by rw [h]

/-- The likeness of what differs in where it stands and in what is upcoming, but not in
whether a block is closed by that. -/
def Likeness.inCode : Likeness where
  text := Eq
  point _ _ := True
  fault _ _ := True
  probe _ _ := True
  upcoming u u' := Script.closesBlock u' = Script.closesBlock u
  text_refl _ := rfl
  point_refl _ := trivial
  fault_refl _ := trivial
  probe_refl _ := trivial
  upcoming_refl _ := rfl
  text_isEmpty h := by rw [h]

/-- What an instruction does to the output, wherever it stands in the template. The
start, the end and the depth of a line are no operations. -/
def Instruction.operation? : Instruction → Option Instruction
  | .start _ | .depth _ | .finish => none
  | .expression indentation c mode _ => some (.expression indentation c mode .anywhere)
  | .text t interpolate _ processing => some (.text t interpolate .anywhere processing)
  | .attributes a _ => some (.attributes a .anywhere)
  | .closeBlock kind _ => some (.closeBlock kind .anything)
  | .scanned probe => some (.scanned probe.unplaced)
  | i => some i

def operations (is : List Instruction) : List Instruction := is.filterMap Instruction.operation?

def Run.operations (r : Run) : List Instruction := Haml.operations r.instructions

def Event.operations (es : List Event) : List Instruction :=
  Haml.operations (es.filterMap Event.instruction?)

@[simp] theorem Event.operations_append (es fs : List Event) :
    operations (es ++ fs) = operations es ++ operations fs := by
  simp [operations, Haml.operations]

@[simp] theorem Event.operations_depth (d : Nat) (es : List Event) :
    operations (.emit (.depth d) :: es) = operations es := rfl

theorem Instruction.Like.operation? {i i' : Instruction} (h : i.Like .unplaced i') :
    i'.operation? = i.operation? := by
  cases h with
  | same => rfl
  | markup _ hn =>
    cases hn
    rfl
  | code c hn =>
    cases hn
    rfl
  | attributes ha _ =>
    cases ha.eq fun h => h
    rfl
  | scanned hp => exact congrArg (fun p => some (Instruction.scanned p)) hp
  | _ => rfl

/-- Events that differ only in where they stand do the same. -/
theorem Event.operations_congr {es es' : List Event}
    (h : List.Forall₂ (Event.Like .unplaced) es es') : operations es' = operations es := by
  induction h with
  | nil => rfl
  | @cons e e' es es' he _ ih =>
    have hhead : operations [e'] = operations [e] := by
      cases he with
      | emit hi => simp [operations, Haml.operations, List.filterMap_cons, hi.operation?]
      | _ => rfl
    rw [← List.singleton_append, operations_append, hhead, ih, ← operations_append,
      List.singleton_append]

/-- What closing down to a depth does depends on the elements alone. -/
theorem ElementStack.operations_close {s s' : ElementStack} (h : s.Like .unplaced s') (d : Nat)
    (u u' : Upcoming) :
    Event.operations (s'.close d u').1 = Event.operations (s.close d u).1 :=
  Event.operations_congr (h.events_close d trivial)

/-- Nothing is open behind a line at the outermost depth. -/
theorem ElementStack.same_close_zero (s : ElementStack) (u v : Upcoming) :
    (({} : ElementStack).close 0 v).2.Same (s.close 0 u).2 := by
  intro i
  rw [get?_close, get?_close, if_neg (Nat.not_lt_zero i), if_neg (Nat.not_lt_zero i)]

end Haml
