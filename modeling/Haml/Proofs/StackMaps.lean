import Haml.Proofs.OpenElements
import Mathlib.Data.Finmap
import Mathlib.Order.Bounds.Basic

/-!
# The stack as a finite map

Whatever is put on a stack, looked up and taken off it again, it answers as a finite map from
depths to elements does. No empty slot is ever left at its end, so that the deepest slot is the
greatest depth of the map.
-/

namespace Haml

/-- Whether lines right below an element must not be set off by line ends and indentation. -/
def Element.isTight : Element → Bool
  | .tag _ options => !options.inner
  | _ => false

namespace ElementStack

inductive Operation where
  | set (depth : Nat) (e : Element)
  | get (depth : Nat)
  | take (depth : Nat)
  | framesLines (depth : Nat)
  deriving DecidableEq, Repr

inductive Answer where
  | done
  | element (e : Option Element)
  | flag (b : Bool)
  deriving DecidableEq, Repr

/-- What a machine answers to operations, and its state behind them. -/
def Operation.run {σ : Type} (step : σ → Operation → Answer × σ) (s : σ) :
    List Operation → List Answer × σ
  | [] => ([], s)
  | o :: os =>
    let r := run step (step s o).2 os
    ((step s o).1 :: r.1, r.2)

def step (s : ElementStack) : Operation → Answer × ElementStack
  | .set d e => (.done, s.set d e)
  | .get d => (.element (s.get? d), s)
  | .take d => (.element (s.get? d), s.erase d)
  | .framesLines d => (.flag (s.framesLines d), s)

abbrev DepthMap := Finmap fun _ : Nat => Element

def DepthMap.step (m : DepthMap) : Operation → Answer × DepthMap
  | .set d e => (.done, m.insert d e)
  | .get d => (.element (m.lookup d), m)
  | .take d => (.element (m.extract d).1, (m.extract d).2)
  | .framesLines d => (.flag (d == 0 || !(m.lookup (d - 1)).any Element.isTight), m)

/-- The stack holds the elements of the map, and its last slot is not empty. -/
structure Holds (m : DepthMap) (s : ElementStack) : Prop where
  get?_eq : ∀ d, s.get? d = m.lookup d
  last_ne : s.slots.getLast? ≠ some none

variable {m : DepthMap} {s : ElementStack}

/-! ### The last slot -/

theorem last_set_ne (h : s.slots.getLast? ≠ some none) (d : Nat) (e : Element) :
    (s.set d e).slots.getLast? ≠ some none := by
  simp only [set]
  by_cases hd : s.slots.length ≤ d
  · -- the stack grows by as many slots as it takes to reach `d`
    have hlength : (s.slots ++ List.replicate (d + 1 - s.slots.length) none).length = d + 1 := by
      rw [List.length_append, List.length_replicate]
      omega
    rw [List.getLast?_eq_getElem?, List.length_set, hlength, Nat.add_sub_cancel,
      List.getElem?_set_self (by omega)]
    simp
  · have hgrown : d + 1 - s.slots.length = 0 := by omega
    rw [hgrown, List.replicate_zero, List.append_nil, List.getLast?_eq_getElem?, List.length_set,
      List.getElem?_set]
    split
    · split <;> simp
    · rwa [← List.getLast?_eq_getElem?]

theorem last_erase_ne (s : ElementStack) (d : Nat) :
    (s.erase d).slots.getLast? ≠ some none := by
  intro h
  simp only [erase, List.getLast?_reverse] at h
  have hhead := List.head?_dropWhile_not Option.isNone (s.slots.set d none).reverse
  rw [h] at hhead
  cases hhead

theorem get?_pred_length (h : s.slots.getLast? ≠ some none) (hne : s.slots ≠ []) :
    (s.get? (s.slots.length - 1)).isSome := by
  rw [get?, ← List.getLast?_eq_getElem?]
  cases hlast : s.slots.getLast? with
  | none => exact absurd (List.getLast?_eq_none_iff.1 hlast) hne
  | some slot =>
    cases slot with
    | none => exact absurd hlast h
    | some e => rfl

theorem highest?_eq_none_iff (h : s.slots.getLast? ≠ some none) :
    s.highest? = none ↔ ∀ d, s.get? d = none := by
  by_cases hne : s.slots = []
  · simp [highest?, get?, hne]
  · have hlast := get?_pred_length h hne
    simp only [highest?, List.isEmpty_iff, hne, if_false]
    constructor
    · intro hsome
      cases hsome
    · intro hnone
      rw [hnone] at hlast
      cases hlast

theorem highest?_eq_some_iff (h : s.slots.getLast? ≠ some none) {d : Nat} :
    s.highest? = some d ↔ IsGreatest {i | (s.get? i).isSome} d := by
  have hbound : ∀ i ∈ {i | (s.get? i).isSome}, i < s.slots.length := by
    intro i hi
    obtain ⟨e, he⟩ := Option.isSome_iff_exists.1 hi
    exact lt_length_of_get? he
  by_cases hne : s.slots = []
  · constructor
    · intro hd
      simp [highest?, hne] at hd
    · intro hd
      have := hbound d hd.1
      simp [hne] at this
  · have hgreatest : IsGreatest {i | (s.get? i).isSome} (s.slots.length - 1) :=
      ⟨get?_pred_length h hne, fun i hi => Nat.le_sub_one_of_lt (hbound i hi)⟩
    simp only [highest?, List.isEmpty_iff, hne, if_false, Option.some.injEq]
    constructor
    · rintro rfl
      exact hgreatest
    · exact hgreatest.unique

/-! ### In step with the map -/

theorem holds_empty : Holds ∅ {} := by
  refine ⟨fun d => ?_, by simp⟩
  rw [Finmap.lookup_empty, get?_eq_none_of_length_le (Nat.zero_le d)]

namespace Holds

theorem mem_iff (h : Holds m s) (d : Nat) : d ∈ m ↔ (s.get? d).isSome := by
  rw [h.get?_eq, Finmap.lookup_isSome]

theorem eq_empty_iff (h : Holds m s) : m = ∅ ↔ ∀ d, s.get? d = none := by
  simp only [h.get?_eq]
  constructor
  · rintro rfl
    exact Finmap.lookup_empty
  · intro hnone
    apply Finmap.ext_lookup
    intro d
    rw [hnone, Finmap.lookup_empty]

theorem set (h : Holds m s) (d : Nat) (e : Element) : Holds (m.insert d e) (s.set d e) := by
  refine ⟨fun i => ?_, last_set_ne h.last_ne d e⟩
  rw [get?_set]
  by_cases hi : i = d
  · rw [if_pos hi, hi, Finmap.lookup_insert]
  · rw [if_neg hi, Finmap.lookup_insert_of_ne m hi, h.get?_eq]

theorem erase (h : Holds m s) (d : Nat) : Holds (m.erase d) (s.erase d) := by
  refine ⟨fun i => ?_, last_erase_ne s d⟩
  rw [get?_erase]
  by_cases hi : i = d
  · rw [if_pos hi, hi, Finmap.lookup_erase]
  · rw [if_neg hi, Finmap.lookup_erase_ne hi, h.get?_eq]

theorem framesLines_eq (h : Holds m s) (d : Nat) :
    s.framesLines d = (d == 0 || !(m.lookup (d - 1)).any Element.isTight) := by
  cases d with
  | zero => rfl
  | succ d =>
    rw [framesLines, h.get?_eq, Nat.add_sub_cancel]
    cases m.lookup d with
    | none => rfl
    | some e => cases e <;> simp [Element.isTight]

/-- One operation: the same answer is given, and the stack holds the new map. -/
theorem step (h : Holds m s) (o : Operation) :
    (s.step o).1 = (m.step o).1 ∧ Holds (m.step o).2 (s.step o).2 := by
  cases o with
  | set d e => exact ⟨rfl, h.set d e⟩
  | get d => exact ⟨congrArg Answer.element (h.get?_eq d), h⟩
  | take d =>
    simp only [ElementStack.step, DepthMap.step, Finmap.extract_eq_lookup_erase]
    exact ⟨congrArg Answer.element (h.get?_eq d), h.erase d⟩
  | framesLines d => exact ⟨congrArg Answer.flag (h.framesLines_eq d), h⟩

/-- Any operations: the same answers are given, and the stack holds the map at the end. -/
theorem run (h : Holds m s) (os : List Operation) :
    (Operation.run ElementStack.step s os).1 = (Operation.run DepthMap.step m os).1 ∧
      Holds (Operation.run DepthMap.step m os).2 (Operation.run ElementStack.step s os).2 := by
  induction os generalizing m s with
  | nil => exact ⟨rfl, h⟩
  | cons o os ih =>
    obtain ⟨hanswer, hheld⟩ := h.step o
    obtain ⟨hmore, hend⟩ := ih hheld
    refine ⟨?_, hend⟩
    simp only [Operation.run, hanswer, hmore]

end Holds

/-- A stack behaves as a finite map from depths to elements. After any operations on a new stack
all answers have been those of the map, the stack shows the elements of the map and no others, and
its last slot is not empty. So the deepest depth it reports is the greatest of the map, and it
reports none just when the map is empty, which is when it calls itself empty. -/
theorem run_as_finite_map (os : List Operation) :
    let s := Operation.run ElementStack.step {} os
    let m := Operation.run DepthMap.step ∅ os
    s.1 = m.1 ∧ (∀ d, s.2.get? d = m.2.lookup d) ∧ s.2.slots.getLast? ≠ some none ∧
      (∀ d, s.2.highest? = some d ↔ IsGreatest {i | i ∈ m.2} d) ∧
      (s.2.highest? = none ↔ m.2 = ∅) ∧ (s.2.isEmpty = true ↔ m.2 = ∅) := by
  obtain ⟨hanswers, hheld⟩ := holds_empty.run os
  refine ⟨hanswers, hheld.get?_eq, hheld.last_ne, fun d => ?_, ?_, ?_⟩
  · simp only [hheld.mem_iff]
    exact highest?_eq_some_iff hheld.last_ne
  · rw [hheld.eq_empty_iff]
    exact highest?_eq_none_iff hheld.last_ne
  · rw [hheld.eq_empty_iff]
    exact isEmpty_iff

end ElementStack

end Haml
