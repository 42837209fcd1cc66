import Haml.Script.Snippet
import Mathlib.Data.List.Induction
import Mathlib.Order.Defs.LinearOrder
import Mathlib.Data.Char
import Mathlib.Tactic.SplitIfs

/-!
# Attributes as an object

The pairs of an attribute list become the members of an object: each name once, with the last of
its values, and the names in the order of their bytes. The names are compared by code point on
the way; in UTF-8 that is the order of the bytes.
-/

namespace Haml

namespace Text

def utf8 (t : Text) : List UInt8 := t.flatMap String.utf8EncodeChar

/-! ### The order of the bytes -/

/-- The bytes of a smaller character come first, whatever stands behind the characters. -/
theorem utf8EncodeChar_lt {a b : Char} (h : a < b) (u v : List UInt8) :
    String.utf8EncodeChar a ++ u < String.utf8EncodeChar b ++ v := by
  have hbound (c : Char) : c.val.toNat < 0x110000 := by
    have hc : c.val.toNat < 0xD800 ∨ 0xDFFF < c.val.toNat ∧ c.val.toNat < 0x110000 := c.valid
    omega
  have ha := hbound a
  have hb := hbound b
  have hlt : a.val.toNat < b.val.toNat := h
  simp only [String.utf8EncodeChar]
  generalize a.val.toNat = x at *
  generalize b.val.toNat = y at *
  -- the bytes carry the digits to base 64, and the first digits that differ decide
  have hdigit {x y : Nat} (h : x < y) : x / 64 < y / 64 ∨ x / 64 = y / 64 ∧ x % 64 < y % 64 := by
    omega
  have hdecide : x / 262144 < y / 262144 ∨ x / 262144 = y / 262144 ∧
      (x / 4096 % 64 < y / 4096 % 64 ∨ x / 4096 % 64 = y / 4096 % 64 ∧
        (x / 64 % 64 < y / 64 % 64 ∨ x / 64 % 64 = y / 64 % 64 ∧ x % 64 < y % 64)) := by
    have hsecond (n : Nat) : n / 4096 = n / 64 / 64 := by omega
    have hthird (n : Nat) : n / 262144 = n / 64 / 64 / 64 := by omega
    simp only [hsecond, hthird]
    rcases hdigit hlt with h | ⟨h, hlast⟩
    · rcases hdigit h with h' | ⟨h', hlast⟩
      · rcases hdigit h' with h'' | ⟨h'', hlast⟩
        · exact .inl h''
        · exact .inr ⟨h'', .inl hlast⟩
      · exact .inr ⟨by rw [h'], .inr ⟨by rw [h'], .inl hlast⟩⟩
    · exact .inr ⟨by rw [h], .inr ⟨by rw [h], .inr ⟨by rw [h], hlast⟩⟩⟩
  have htail (n : Nat) : (n % 64 + 128) % 2 ^ 8 = n % 64 + 128 := by omega
  have hlead {n : Nat} (hn : n < 0x110000) :
      (n / 262144 % 8 + 240) % 2 ^ 8 = n / 262144 + 240 := by omega
  split_ifs <;>
    simp only [List.cons_append, List.nil_append, List.cons_lt_cons_iff, UInt8.lt_iff_toNat_lt,
      ← UInt8.toNat_inj, UInt8.toNat_ofNat', htail, hlead ha, hlead hb] <;>
    omega

theorem utf8EncodeChar_ne_nil (c : Char) : String.utf8EncodeChar c ≠ [] := by
  simp only [String.utf8EncodeChar]
  split_ifs <;> simp

/-- A text that precedes another does so by its bytes. -/
theorem utf8_lt_of_precedes {s t : Text} (h : s.precedes t = true) : s.utf8 < t.utf8 := by
  induction s generalizing t with
  | nil =>
    match t with
    | [] => simp [precedes] at h
    | c :: t =>
      obtain ⟨b, bs, hc⟩ := List.exists_cons_of_ne_nil (utf8EncodeChar_ne_nil c)
      simp [utf8, hc]
  | cons a s ih =>
    match t with
    | [] => simp [precedes] at h
    | b :: t =>
      simp only [precedes, Bool.or_eq_true, decide_eq_true_eq, Bool.and_eq_true, beq_iff_eq] at h
      rcases h with h | ⟨rfl, h⟩
      · exact utf8EncodeChar_lt h _ _
      · exact List.append_left_lt (ih h)

/-- Of two texts one precedes the other, unless they are the same. -/
theorem precedes_of_not_precedes {s t : Text} (hne : s ≠ t) (h : s.precedes t = false) :
    t.precedes s = true := by
  induction s generalizing t with
  | nil =>
    match t with
    | [] => exact absurd rfl hne
    | _ :: _ => simp [precedes] at h
  | cons a s ih =>
    match t with
    | [] => rfl
    | b :: t =>
      simp only [precedes, Bool.or_eq_false_iff, decide_eq_false_iff_not, Bool.and_eq_false_iff,
        beq_eq_false_iff_ne] at h
      simp only [precedes, Bool.or_eq_true, decide_eq_true_eq, Bool.and_eq_true, beq_iff_eq]
      rcases lt_trichotomy a b with hab | rfl | hab
      · exact absurd hab h.1
      · have htail : precedes s t = false := h.2.resolve_left fun hn => hn rfl
        exact .inr ⟨rfl, ih (fun he => hne (he ▸ rfl)) htail⟩
      · exact .inl hab

end Text

namespace Script

/-- The names stand in the strict order of their bytes. -/
def Ascending (ps : List (Text × Text)) : Prop := ps.Pairwise fun p q => p.1.utf8 < q.1.utf8

theorem mem_insertPair {p q : Text × Text} {ps : List (Text × Text)} (h : q ∈ insertPair p ps) :
    q = p ∨ q ∈ ps := by
  induction ps with
  | nil => exact .inl (List.mem_singleton.1 h)
  | cons r ps ih =>
    rw [insertPair] at h
    split_ifs at h with he hlt
    · exact (List.mem_cons.1 h).imp_right (List.mem_cons_of_mem r)
    · exact List.mem_cons.1 h
    · rcases List.mem_cons.1 h with rfl | h
      · exact .inr (List.mem_cons_self ..)
      · exact (ih h).imp_right (List.mem_cons_of_mem r)

theorem Ascending.insertPair {ps : List (Text × Text)} (h : Ascending ps) (p : Text × Text) :
    Ascending (insertPair p ps) := by
  induction ps with
  | nil => exact List.pairwise_singleton ..
  | cons q ps ih =>
    obtain ⟨hq, hps⟩ := List.pairwise_cons.1 h
    rw [Script.insertPair]
    split_ifs with he hlt
    · refine List.pairwise_cons.2 ⟨fun r hr => ?_, hps⟩
      rw [he]
      exact hq r hr
    · have hpq := Text.utf8_lt_of_precedes hlt
      refine List.pairwise_cons.2 ⟨fun r hr => ?_, h⟩
      rcases List.mem_cons.1 hr with rfl | hr
      · exact hpq
      · exact List.lt_trans hpq (hq r hr)
    · have hqp := Text.utf8_lt_of_precedes
        (Text.precedes_of_not_precedes he (Bool.eq_false_iff.2 hlt))
      refine List.pairwise_cons.2 ⟨fun r hr => ?_, ih hps⟩
      rcases mem_insertPair hr with rfl | hr
      · exact hqp
      · exact hq r hr

theorem lookup_cons_eq (n : Text) (p : Text × Text) (ps : List (Text × Text)) :
    (p :: ps).lookup n = if n = p.1 then some p.2 else ps.lookup n := by
  rw [← Prod.eta p, List.lookup_cons]
  by_cases h : n = p.1
  · simp [h]
  · rw [if_neg h, beq_eq_false_iff_ne.2 h]

/-- A pair takes the place of the one of its name and leaves all others. -/
theorem lookup_insertPair (n : Text) (p : Text × Text) (ps : List (Text × Text)) :
    (insertPair p ps).lookup n = if n = p.1 then some p.2 else ps.lookup n := by
  induction ps with
  | nil => exact lookup_cons_eq n p []
  | cons q ps ih =>
    rw [insertPair]
    split_ifs with he hlt
    all_goals simp only [lookup_cons_eq, ih]
    all_goals grind

theorem ascending_sortedPairs (pairs : List (Text × Text)) : Ascending (sortedPairs pairs) := by
  induction pairs using List.reverseRecOn with
  | nil => exact List.Pairwise.nil
  | append_singleton pairs p ih =>
    rw [sortedPairs, List.foldl_append, List.foldl_cons, List.foldl_nil]
    exact ih.insertPair p

/-- Each name has its last value. -/
theorem lookup_sortedPairs (n : Text) (pairs : List (Text × Text)) :
    (sortedPairs pairs).lookup n = pairs.reverse.lookup n := by
  induction pairs using List.reverseRecOn with
  | nil => rfl
  | append_singleton pairs p ih =>
    rw [sortedPairs, List.foldl_append, List.foldl_cons, List.foldl_nil, ← sortedPairs,
      lookup_insertPair, ih, List.reverse_concat, lookup_cons_eq]

end Script

end Haml
