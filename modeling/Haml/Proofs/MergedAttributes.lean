import Haml.Html.Attributes
import Mathlib.Data.List.Induction
import Mathlib.Data.List.Nodup

/-!
# Static attributes are merged by name

The attributes of a tag are taken in one by one, and the value of a name changes its form on the
way. What comes out is said here without that: the names in the order in which they first
appear, each with a value that is made from all values of the name at once.
-/

namespace Haml.Html

/-- Whether an attribute adds nothing: it is an empty part of an id or of a reference to one. -/
def addsNothing (p : Text × Text) : Bool := (p.1 = "id" ∨ p.1 = "for") ∧ p.2 = []

/-- The attributes of a tag one after another: the ids, the classes, then the attribute list,
without those that add nothing. -/
def givenPairs (ids classes : List Text) (pairs : List (Text × Text)) : List (Text × Text) :=
  (ids.map (("id".toList, ·)) ++ classes.map (("class".toList, ·)) ++ pairs).filter
    (!addsNothing ·)

/-- The names of attributes, each once, in the order in which they first appear. -/
def namesOf (s : List (Text × Text)) : List Text := (s.map Prod.fst).eraseDups

def valuesOf (n : Text) (s : List (Text × Text)) : List Text :=
  (s.filter (·.1 = n)).map Prod.snd

def mergedValue (n : Text) (vs : List Text) : Text :=
  if n = "id" ∨ n = "for" then Text.join "-" vs
  else if n = "class" then Text.join " " vs
  else if n = "selected" ∨ n = "checked" ∨ n = "disabled" then n
  else vs.getLastD []

def mergedPairs (s : List (Text × Text)) : List (Text × Text) :=
  (namesOf s).map fun n => (n, mergedValue n (valuesOf n s))

def asMarkup (p : Text × Text) : Text := " " ++ p.1 ++ "=\"" ++ p.2 ++ "\""

def Value.ofValues (n : Text) (vs : List Text) : Value :=
  if n = "class" then .parts vs
  else if isHyphenated n then
    match vs with
    | [v] => .single v
    | vs => .parts vs
  else .single (vs.getLastD [])

namespace AttributeSet

def ofPairs (s : List (Text × Text)) : AttributeSet :=
  (namesOf s).map fun n => (n, .ofValues n (valuesOf n s))

end AttributeSet

variable {n : Text} {vs : List Text} {s : List (Text × Text)}

theorem isHyphenated_iff : isHyphenated n = true ↔ n = "id" ∨ n = "for" := by
  simp [isHyphenated]

theorem isBooleanAttribute_iff :
    isBooleanAttribute n = true ↔ n = "selected" ∨ n = "checked" ∨ n = "disabled" := by
  simp [isBooleanAttribute, or_assoc]

theorem ne_class_of_isHyphenated (h : isHyphenated n = true) : n ≠ "class" := by
  rcases isHyphenated_iff.1 h with rfl | rfl <;> decide

theorem isBooleanAttribute_of_isHyphenated (h : isHyphenated n = true) :
    isBooleanAttribute n = false := by
  rcases isHyphenated_iff.1 h with rfl | rfl <;> decide

/-! ### One value more -/

namespace Value

theorem ofValues_class (vs : List Text) : ofValues "class" vs = .parts vs := if_pos rfl

theorem ofValues_single (h : isHyphenated n = true) (v : Text) : ofValues n [v] = .single v := by
  unfold ofValues
  rw [if_neg (ne_class_of_isHyphenated h), if_pos h]

theorem ofValues_parts (h : isHyphenated n = true) (v w : Text) (vs : List Text) :
    ofValues n (v :: w :: vs) = .parts (v :: w :: vs) := by
  unfold ofValues
  rw [if_neg (ne_class_of_isHyphenated h), if_pos h]

theorem ofValues_last (hc : n ≠ "class") (hh : isHyphenated n = false) (vs : List Text) :
    ofValues n vs = .single (vs.getLastD []) := by
  unfold ofValues
  rw [if_neg hc, hh, if_neg Bool.false_ne_true]

theorem first_eq_ofValues (n v : Text) : Value.first n v = .ofValues n [v] := by
  unfold Value.first ofValues
  split
  · rfl
  · split <;> rfl

theorem combine_ofValues (h : vs ≠ []) (v : Text) :
    (ofValues n vs).combine n v = ofValues n (vs ++ [v]) := by
  by_cases hc : n = "class"
  · subst hc
    rw [ofValues_class, ofValues_class]
    rfl
  cases hh : isHyphenated n with
  | true =>
    match vs with
    | [] => exact absurd rfl h
    | [w] =>
      rw [ofValues_single hh, List.singleton_append, ofValues_parts hh]
      exact if_pos hh
    | w :: x :: vs =>
      rw [ofValues_parts hh, List.cons_append, List.cons_append, ofValues_parts hh, combine, hh]
      rfl
  | false =>
    rw [ofValues_last hc hh, ofValues_last hc hh, List.getLastD_concat, combine, hh]
    rfl

theorem render_ofValues (h : vs ≠ []) : (ofValues n vs).render n = mergedValue n vs := by
  by_cases hc : n = "class"
  · subst hc
    rw [ofValues_class]
    rfl
  cases hh : isHyphenated n with
  | true =>
    rw [mergedValue, if_pos (isHyphenated_iff.1 hh)]
    match vs with
    | [] => exact absurd rfl h
    | [v] =>
      rw [ofValues_single hh, render, isBooleanAttribute_of_isHyphenated hh,
        if_neg Bool.false_ne_true]
      exact (List.append_nil v).symm
    | v :: w :: vs =>
      rw [ofValues_parts hh, render, if_neg hc]
  | false =>
    have hn : ¬ (n = "id" ∨ n = "for") := fun hn => by
      rw [isHyphenated_iff.2 hn] at hh
      cases hh
    rw [ofValues_last hc hh, mergedValue, if_neg hn, if_neg hc]
    simp only [render, isBooleanAttribute_iff]

end Value

/-! ### One pair more -/

theorem mem_namesOf : n ∈ namesOf s ↔ ∃ v, (n, v) ∈ s := by
  simp [namesOf]

theorem namesOf_concat (s : List (Text × Text)) (p : Text × Text) :
    namesOf (s ++ [p]) = namesOf s ++ if p.1 ∈ namesOf s then [] else [p.1] := by
  rw [namesOf, List.map_append, List.eraseDups_append, ← namesOf]
  congr 1
  by_cases h : p.1 ∈ namesOf s
  · have hmem : p.1 ∈ s.map Prod.fst := List.mem_eraseDups.1 h
    simp only [if_pos h, List.map_singleton, List.removeAll]
    rw [List.filter_cons_of_neg (by simpa using hmem)]
    rfl
  · have hmem : p.1 ∉ s.map Prod.fst := fun hm => h (List.mem_eraseDups.2 hm)
    simp only [if_neg h, List.map_singleton, List.removeAll]
    rw [List.filter_cons_of_pos (by simpa using hmem)]
    rfl

theorem nodup_namesOf (s : List (Text × Text)) : (namesOf s).Nodup := by
  induction s using List.reverseRecOn with
  | nil => exact List.nodup_nil
  | append_singleton s p ih =>
    rw [namesOf_concat]
    split
    · rwa [List.append_nil]
    · rename_i h
      rw [← List.concat_eq_append]
      exact ih.concat h

theorem valuesOf_concat (n : Text) (s : List (Text × Text)) (p : Text × Text) :
    valuesOf n (s ++ [p]) = valuesOf n s ++ if p.1 = n then [p.2] else [] := by
  by_cases h : p.1 = n <;> simp [valuesOf, h]

theorem valuesOf_ne_nil (h : n ∈ namesOf s) : valuesOf n s ≠ [] := by
  obtain ⟨v, hv⟩ := mem_namesOf.1 h
  have hmem : v ∈ valuesOf n s := by simpa [valuesOf] using hv
  exact List.ne_nil_of_mem hmem

theorem valuesOf_eq_nil (h : n ∉ namesOf s) : valuesOf n s = [] := by
  rw [valuesOf, List.map_eq_nil_iff, List.filter_eq_nil_iff]
  rintro ⟨m, v⟩ hv hm
  obtain rfl : m = n := by simpa using hm
  exact h (mem_namesOf.2 ⟨v, hv⟩)

namespace AttributeSet

/-- A value goes to the attribute of its name, or starts a new one behind all others. -/
theorem insert_map (f : Text → Value) {ns : List Text} (h : ns.Nodup) (name value : Text) :
    insert name value (ns.map fun n => (n, f n)) =
      if name ∈ ns then
        ns.map fun n => (n, if n = name then (f n).combine name value else f n)
      else (ns.map fun n => (n, f n)) ++ [(name, .first name value)] := by
  induction ns with
  | nil => rfl
  | cons m ns ih =>
    obtain ⟨hm, hns⟩ := List.nodup_cons.1 h
    rw [List.map_cons, insert, ih hns]
    by_cases he : m = name
    · subst he
      have hothers : (ns.map fun n => (n, if n = m then (f n).combine m value else f n)) =
          ns.map fun n => (n, f n) := by
        refine List.map_congr_left fun n hn => ?_
        rw [if_neg (ne_of_mem_of_not_mem hn hm)]
      simp [hothers]
    · by_cases hmem : name ∈ ns <;> simp [he, Ne.symm he, hmem]

theorem insert_ofPairs (s : List (Text × Text)) (p : Text × Text) :
    insert p.1 p.2 (ofPairs s) = ofPairs (s ++ [p]) := by
  rw [ofPairs, insert_map _ (nodup_namesOf s), ofPairs, namesOf_concat]
  by_cases h : p.1 ∈ namesOf s
  · rw [if_pos h, if_pos h, List.append_nil]
    refine List.map_congr_left fun n hn => ?_
    rw [valuesOf_concat]
    by_cases hp : p.1 = n
    · subst hp
      rw [if_pos rfl, if_pos rfl, Value.combine_ofValues (valuesOf_ne_nil hn)]
    · rw [if_neg (Ne.symm hp), if_neg hp, List.append_nil]
  · rw [if_neg h, if_neg h, List.map_append]
    congr 1
    · refine List.map_congr_left fun n hn => ?_
      rw [valuesOf_concat, if_neg (ne_of_mem_of_not_mem hn h).symm, List.append_nil]
    · rw [List.map_singleton, valuesOf_concat, valuesOf_eq_nil h, if_pos rfl, List.nil_append,
        Value.first_eq_ofValues]

theorem foldl_insert (s more : List (Text × Text)) :
    more.foldl (fun a p => insert p.1 p.2 a) (ofPairs s) = ofPairs (s ++ more) := by
  induction more generalizing s with
  | nil => rw [List.append_nil]; rfl
  | cons p more ih =>
    rw [List.foldl_cons, insert_ofPairs, ih, List.append_assoc]
    rfl

theorem combine_eq (a : AttributeSet) (p : Text × Text) :
    a.combine p = if !addsNothing p then insert p.1 p.2 a else a := by
  have hnothing : (isHyphenated p.1 && p.2.isEmpty) = addsNothing p := by
    rw [Bool.eq_iff_iff]
    simp [addsNothing, isHyphenated]
  rw [combine, hnothing]
  cases addsNothing p <;> rfl

/-- Taking attributes in one by one gives each name all its values. -/
theorem foldl_combine (s : List (Text × Text)) :
    s.foldl combine [] = ofPairs (s.filter (!addsNothing ·)) := by
  calc s.foldl combine []
    _ = s.foldl (fun a p => if !addsNothing p then insert p.1 p.2 a else a) [] := by
      congr 1
      funext a p
      exact combine_eq a p
    _ = (s.filter (!addsNothing ·)).foldl (fun a p => insert p.1 p.2 a) (ofPairs []) :=
      List.foldl_filter.symm
    _ = ofPairs (s.filter (!addsNothing ·)) := foldl_insert [] _

theorem flatten_renderAttribute (s : List (Text × Text)) :
    ((ofPairs s).map renderAttribute).flatten = (mergedPairs s).flatMap asMarkup := by
  rw [ofPairs, mergedPairs, List.map_map, List.flatMap_map, List.flatMap_def]
  congr 1
  refine List.map_congr_left fun n hn => ?_
  rw [Function.comp_apply, renderAttribute, Value.render_ofValues (valuesOf_ne_nil hn)]
  rfl

end AttributeSet

/-- The attributes of a tag are written as they are specified: over the names in the order in
which they first appear, with all parts of an id or a reference joined with hyphens, all classes
with spaces, the name itself for a flag, and otherwise the last value. -/
theorem staticAttributes_eq_merged (ids classes : List Text) (pairs : List (Text × Text)) :
    staticAttributes ids classes pairs =
      (mergedPairs (givenPairs ids classes pairs)).flatMap asMarkup := by
  rw [staticAttributes, AttributeSet.foldl_combine, AttributeSet.flatten_renderAttribute]
  rfl

end Haml.Html
