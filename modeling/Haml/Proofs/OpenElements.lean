import Haml.Event
import Mathlib.Data.List.Basic
import Mathlib.Data.List.TakeWhile

/-!
# Open elements by depth

A stack of open elements is a finite map from depths to elements. Closing down
to a depth takes exactly the elements at that depth or deeper off it, deepest
first, and leaves all others alone.
-/

def Haml.Element.isBlock : Haml.Element → Bool
  | .block _ => true
  | _ => false

namespace Haml.ElementStack

/-- Empty slots at the end of a stack hold nothing. -/
theorem join_getElem?_dropEnd (xs : List (Option Element)) (i : Nat) :
    ((xs.reverse.dropWhile Option.isNone).reverse[i]?).join = xs[i]?.join := by
  have hxs : xs = (xs.reverse.dropWhile Option.isNone).reverse ++
      (xs.reverse.takeWhile Option.isNone).reverse := by
    rw [← List.reverse_append, List.takeWhile_append_dropWhile, List.reverse_reverse]
  have hnone : ∀ x ∈ (xs.reverse.takeWhile Option.isNone).reverse, x = none := by
    intro x hx
    simpa using List.mem_takeWhile_imp (List.mem_reverse.1 hx)
  generalize (xs.reverse.dropWhile Option.isNone).reverse = kept at hxs ⊢
  generalize (xs.reverse.takeWhile Option.isNone).reverse = empty at hxs hnone
  subst hxs
  by_cases hi : i < kept.length
  · rw [List.getElem?_append_left hi]
  · rw [List.getElem?_append_right (by omega), List.getElem?_eq_none (by omega)]
    cases hx : empty[i - kept.length]? with
    | none => rfl
    | some x => rw [hnone x (List.mem_of_getElem? hx)]; rfl

theorem get?_erase (s : ElementStack) (d i : Nat) :
    (s.erase d).get? i = if i = d then none else s.get? i := by
  simp only [get?, erase, join_getElem?_dropEnd, List.getElem?_set]
  by_cases h : i = d
  · subst h
    simp only [if_true]
    split <;> rfl
  · simp [h, Ne.symm h]

theorem get?_set (s : ElementStack) (d i : Nat) (e : Element) :
    (s.set d e).get? i = if i = d then some e else s.get? i := by
  simp only [get?, set, List.getElem?_set, List.length_append, List.length_replicate]
  by_cases h : i = d
  · subst h
    simp only [if_true]
    rw [if_pos (by omega)]
    rfl
  · simp only [h, Ne.symm h, if_false]
    by_cases hi : i < s.slots.length
    · rw [List.getElem?_append_left hi]
    · rw [List.getElem?_append_right (by omega), List.getElem?_replicate,
        List.getElem?_eq_none (by omega)]
      split <;> rfl

theorem get?_eq_none_of_length_le {s : ElementStack} {i : Nat} (h : s.slots.length ≤ i) :
    s.get? i = none := by
  simp [get?, h]

theorem lt_length_of_get? {s : ElementStack} {i : Nat} {e : Element} (h : s.get? i = some e) :
    i < s.slots.length := by
  apply Nat.lt_of_not_le
  intro hi
  rw [get?_eq_none_of_length_le hi] at h
  cases h

theorem isEmpty_iff {s : ElementStack} : s.isEmpty = true ↔ ∀ i, s.get? i = none := by
  simp only [isEmpty, List.all_eq_true, Option.isNone_iff_eq_none]
  constructor
  · intro h i
    cases hi : s.slots[i]? with
    | none => simp [get?, hi]
    | some x => simp [get?, hi, h x (List.mem_of_getElem? hi)]
  · intro h x hx
    obtain ⟨i, hi⟩ := List.mem_iff_getElem?.1 hx
    simpa [get?, hi] using h i

/-- The open elements at `depth` or deeper, with their depths, deepest first. -/
def openFrom (s : ElementStack) (depth : Nat) : List (Nat × Element) :=
  (List.range' depth (s.slots.length - depth)).reverse.filterMap fun k => (s.get? k).map (k, ·)

theorem mem_openFrom {s : ElementStack} {d k : Nat} {e : Element} :
    (k, e) ∈ s.openFrom d ↔ d ≤ k ∧ s.get? k = some e := by
  simp only [openFrom, List.mem_filterMap, List.mem_reverse, List.mem_range'_1,
    Option.map_eq_some_iff]
  constructor
  · rintro ⟨j, hj, e', he, h⟩
    cases h
    exact ⟨hj.1, he⟩
  · rintro ⟨hd, he⟩
    have := lt_length_of_get? he
    exact ⟨k, ⟨hd, by omega⟩, e, he, rfl⟩

theorem openFrom_eq_nil {s : ElementStack} {d : Nat} (h : ∀ i, d ≤ i → s.get? i = none) :
    s.openFrom d = [] := by
  apply List.eq_nil_iff_forall_not_mem.2
  rintro ⟨k, e⟩ hk
  obtain ⟨hd, he⟩ := mem_openFrom.1 hk
  rw [h k hd] at he
  cases he

/-- The open elements come in strictly decreasing depth. -/
theorem openFrom_decreasing (s : ElementStack) (d : Nat) :
    (s.openFrom d).Pairwise fun a b => b.1 < a.1 := by
  apply List.Pairwise.filterMap (R := fun a b : Nat => b < a)
  · intro a b hab x hx y hy
    obtain ⟨_, _, rfl⟩ := Option.map_eq_some_iff.1 hx
    obtain ⟨_, _, rfl⟩ := Option.map_eq_some_iff.1 hy
    exact hab
  · rw [List.pairwise_reverse]
    exact List.pairwise_lt_range'

/-- Depths past the last slot may be looked at as well. -/
theorem openFrom_eq {s : ElementStack} {d n : Nat} (h : s.slots.length - d ≤ n) :
    s.openFrom d = (List.range' d n).reverse.filterMap fun k => (s.get? k).map (k, ·) := by
  obtain ⟨m, rfl⟩ := Nat.exists_eq_add_of_le h
  rw [← List.range'_append_1, List.reverse_append, List.filterMap_append]
  have hnil : ((List.range' (d + (s.slots.length - d)) m).reverse.filterMap fun k =>
      (s.get? k).map (k, ·)) = [] := by
    rw [List.filterMap_eq_nil_iff]
    intro k hk
    have hk := List.mem_range'_1.1 (List.mem_reverse.1 hk)
    rw [get?_eq_none_of_length_le (by omega)]
    rfl
  rw [hnil, List.nil_append, openFrom]

/-- The element at a depth is closed after all deeper ones. -/
theorem openFrom_eq_append (s : ElementStack) (d : Nat) :
    s.openFrom d = s.openFrom (d + 1) ++ ((s.get? d).map (d, ·)).toList := by
  rw [openFrom_eq (n := s.slots.length - (d + 1) + 1) (by omega), List.range'_succ,
    List.reverse_cons, List.filterMap_append, ← openFrom]
  cases h : s.get? d <;> simp [h]

theorem framesLines_congr {s t : ElementStack} {d : Nat} (h : ∀ i, i < d → s.get? i = t.get? i) :
    s.framesLines d = t.framesLines d := by
  cases d with
  | zero => rfl
  | succ d => simp only [framesLines, h d (Nat.lt_succ_self d)]

def closingEvents (s : ElementStack) (upcoming : Upcoming) (p : Nat × Element) : List Event :=
  .closed p.1 p.2 ::
    (.depth p.1 :: p.2.closing p.1 (s.framesLines p.1) upcoming).map .emit

theorem closeAt_eq (s : ElementStack) (d : Nat) (u : Upcoming) :
    s.closeAt d u =
      (((s.get? d).map (d, ·)).toList.flatMap (s.closingEvents u), s.erase d) := by
  have hf : (s.erase d).framesLines d = s.framesLines d :=
    framesLines_congr fun i hi => by rw [get?_erase, if_neg (by omega)]
  simp only [closeAt]
  cases s.get? d <;> simp [closingEvents, hf]

theorem closingEvents_congr {s t : ElementStack} {u : Upcoming} {p : Nat × Element}
    (h : ∀ i, i < p.1 → s.get? i = t.get? i) : s.closingEvents u p = t.closingEvents u p := by
  rw [closingEvents, closingEvents, framesLines_congr h]

theorem get?_closeDepths (s : ElementStack) (d : Nat) (u : Upcoming) (n i : Nat) :
    (s.closeDepths d u n).2.get? i = if d ≤ i ∧ i < d + n then none else s.get? i := by
  induction n generalizing s with
  | zero => simp only [closeDepths]; rw [if_neg (by omega)]
  | succ n ih =>
    simp only [closeDepths, ih, closeAt_eq, get?_erase]
    by_cases h : d ≤ i ∧ i < d + n
    · rw [if_pos h, if_pos (by omega)]
    · by_cases hi : i = d + n
      · rw [if_neg h, if_pos hi, if_pos (by omega)]
      · rw [if_neg h, if_neg hi, if_neg (by omega)]

theorem closeDepths_events (s : ElementStack) (d : Nat) (u : Upcoming) (n : Nat) :
    (s.closeDepths d u n).1 =
      ((List.range' d n).reverse.filterMap fun k => (s.get? k).map (k, ·)).flatMap
        (s.closingEvents u) := by
  induction n generalizing s with
  | zero => rfl
  | succ n ih =>
    -- The deepest element goes first; what is left below it is as it was.
    have hget : ∀ k, k < d + n → (s.erase (d + n)).get? k = s.get? k := by
      intro k hk
      rw [get?_erase, if_neg (by omega)]
    have hopen : ((List.range' d n).reverse.filterMap fun k =>
          ((s.erase (d + n)).get? k).map (k, ·)) =
        (List.range' d n).reverse.filterMap fun k => (s.get? k).map (k, ·) := by
      apply List.filterMap_congr
      intro k hk
      rw [hget k (List.mem_range'_1.1 (List.mem_reverse.1 hk)).2]
    rw [List.range'_1_concat, List.reverse_append, List.filterMap_append, List.flatMap_append]
    simp only [closeDepths, closeAt_eq, ih, hopen]
    congr 1
    apply List.flatMap_congr
    rintro ⟨k, e⟩ hk
    obtain ⟨j, hj, hje⟩ := List.mem_filterMap.1 hk
    obtain ⟨_, _, h⟩ := Option.map_eq_some_iff.1 hje
    cases h
    have := (List.mem_range'_1.1 (List.mem_reverse.1 hj)).2
    exact closingEvents_congr fun i hi => hget i (by simp only at hi; omega)

/-- Closing down to a depth leaves exactly the elements above it open. -/
theorem get?_close (s : ElementStack) (d : Nat) (u : Upcoming) (i : Nat) :
    (s.close d u).2.get? i = if i < d then s.get? i else none := by
  rw [close, get?_closeDepths]
  by_cases h : i < d
  · rw [if_pos h, if_neg (by omega)]
  · rw [if_neg h]
    by_cases hi : i < s.slots.length
    · rw [if_pos (by omega)]
    · rw [if_neg (by omega), get?_eq_none_of_length_le (by omega)]

/-- Closing down to a depth closes the elements open there or deeper, deepest first. -/
theorem close_events (s : ElementStack) (d : Nat) (u : Upcoming) :
    (s.close d u).1 = (s.openFrom d).flatMap (s.closingEvents u) := by
  rw [close, closeDepths_events, openFrom]

theorem filterMap_diagnostic?_close (s : ElementStack) (d : Nat) (u : Upcoming) :
    (s.close d u).1.filterMap Event.diagnostic? = [] := by
  rw [close_events, List.filterMap_flatMap, List.flatMap_eq_nil_iff]
  intro p _
  rw [closingEvents, List.filterMap_cons_none rfl, Event.filterMap_diagnostic?_emit]

def Same (s t : ElementStack) : Prop := ∀ i, s.get? i = t.get? i

section Same

variable {s t : ElementStack}

theorem Same.framesLines (h : s.Same t) (d : Nat) : s.framesLines d = t.framesLines d :=
  framesLines_congr fun i _ => h i

theorem Same.set (h : s.Same t) (d : Nat) (e : Element) : (s.set d e).Same (t.set d e) := by
  intro i
  rw [get?_set, get?_set, h i]

theorem Same.openFrom (h : s.Same t) (d : Nat) : s.openFrom d = t.openFrom d := by
  rw [openFrom_eq (s := s) (d := d) (n := max s.slots.length t.slots.length) (by omega),
    openFrom_eq (s := t) (d := d) (n := max s.slots.length t.slots.length) (by omega)]
  simp only [h _]

theorem Same.close (h : s.Same t) (d : Nat) (u v : Upcoming) :
    (s.close d u).2.Same (t.close d v).2 := by
  intro i
  rw [get?_close, get?_close, h i]

end Same

end Haml.ElementStack
