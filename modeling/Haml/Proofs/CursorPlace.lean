import Haml.Source.Cursor

/-!
# Places in a source

A cursor stands behind a beginning of its source, and what is left to read is the
rest of it. A text at the cursor is passed exactly, byte by byte, unless it ends
between a carriage return and its line feed.
-/

namespace Haml

namespace Text

theorem dropBytes_zero (t : Text) : dropBytes 0 t = t := by
  cases t <;> simp [dropBytes]

theorem takeBytes_zero (t : Text) : takeBytes 0 t = [] := by
  cases t <;> simp [takeBytes]

theorem dropBytes_append (s t : Text) : dropBytes s.byteSize (s ++ t) = t := by
  induction s with
  | nil => exact dropBytes_zero t
  | cons c s ih =>
    have hc := c.utf8Size_pos
    rw [List.cons_append, dropBytes, byteSize_cons, if_neg (by omega), Nat.add_sub_cancel_left, ih]

theorem takeBytes_append (s t : Text) : takeBytes s.byteSize (s ++ t) = s := by
  induction s with
  | nil => exact takeBytes_zero t
  | cons c s ih =>
    have hc := c.utf8Size_pos
    rw [List.cons_append, takeBytes, byteSize_cons, if_neg (by omega), Nat.add_sub_cancel_left, ih]

/-- The part of a text between two of its cuts. -/
theorem slice_append (s m t : Text) :
    (s ++ (m ++ t)).slice s.byteSize (s.byteSize + m.byteSize) = m := by
  have hstart : min s.byteSize (s ++ (m ++ t)).byteSize = s.byteSize := by
    rw [byteSize_append]
    omega
  have hstop : min (s.byteSize + m.byteSize) (s ++ (m ++ t)).byteSize =
      s.byteSize + m.byteSize := by
    rw [byteSize_append, byteSize_append]
    omega
  rw [slice, hstart, hstop, Nat.add_sub_cancel_left, dropBytes_append, takeBytes_append]

theorem byteSize_eq_zero {t : Text} : t.byteSize = 0 ↔ t = [] := by
  cases t with
  | nil => simp
  | cons c t =>
    have hc := c.utf8Size_pos
    simp only [byteSize_cons, reduceCtorEq, iff_false]
    omega

end Text

/-- The place between two texts is not within a line end. -/
def Unsplit (m r : Text) : Prop := ¬(m.getLast? = some '\r' ∧ r.head? = some '\n')

theorem Unsplit.tail {ch : Char} {m r : Text} (h : Unsplit (ch :: m) r) (hm : m ≠ []) :
    Unsplit m r := by
  intro hs
  apply h
  rwa [List.getLast?_cons_of_ne_nil hm]

theorem unsplit_of_getLast? {m : Text} (h : m.getLast? ≠ some '\r') (r : Text) : Unsplit m r :=
  fun hs => h hs.1

/-- The text `m` stands at the start of `t`, and does not end within a line end. -/
def CutOff (m t : Text) : Prop := ∃ r, t = m ++ r ∧ Unsplit m r

theorem CutOff.nil (t : Text) : CutOff [] t := ⟨t, rfl, unsplit_of_getLast? (by decide) t⟩

theorem CutOff.append {m s t : Text} (hm : Unsplit m t) (h : CutOff s t) :
    CutOff (m ++ s) (m ++ t) := by
  obtain ⟨r, rfl, hs⟩ := h
  refine ⟨r, (List.append_assoc _ _ _).symm, ?_⟩
  rintro ⟨hl, hr⟩
  by_cases hnil : s = []
  · rw [hnil, List.append_nil] at hl
    exact hm ⟨hl, by rw [hnil]; exact hr⟩
  · rw [List.getLast?_append, Option.or_of_isSome (by simpa using hnil)] at hl
    exact hs ⟨hl, hr⟩

namespace Cursor

variable {c : Cursor} {ch : Char} {t : Text}

theorem step_crlf (h : c.rest = '\r' :: '\n' :: t) : c.step = c.breakLine 2 t := by
  simp only [step, h]

/-- A character that is no line end of two characters is passed alone. -/
theorem step_single (h : c.rest = ch :: t) (hs : Unsplit [ch] t) :
    c.step.source = c.source ∧ c.step.rest = t ∧ c.step.position = c.position + ch.utf8Size := by
  rw [step, h]
  split
  · contradiction
  · rename_i heq
    obtain ⟨rfl, rfl⟩ := List.cons.inj heq
    exact absurd ⟨rfl, rfl⟩ hs
  · rename_i heq
    obtain ⟨rfl, rfl⟩ := List.cons.inj heq
    split
    · rename_i hb
      have hch : ch = '\n' ∨ ch = '\r' := by simpa [isLineBreak] using hb
      rcases hch with rfl | rfl <;> exact ⟨rfl, rfl, rfl⟩
    · exact ⟨rfl, rfl, rfl⟩

/-- A text at the cursor is passed exactly. -/
theorem skip_exact {m r : Text} (h : c.rest = m ++ r) (hs : Unsplit m r) :
    (skip m c).source = c.source ∧ (skip m c).rest = r ∧
      (skip m c).position = c.position + m.byteSize := by
  fun_induction skip m c with
  | case1 c => exact ⟨rfl, h, rfl⟩
  | case2 m c ih =>
    have hstep := step_crlf h
    have hs' : Unsplit m r := by
      by_cases hm : m = []
      · subst hm
        exact fun hc => by cases hc.1
      · exact (hs.tail (List.cons_ne_nil _ _)).tail hm
    obtain ⟨h₁, h₂, h₃⟩ := ih (by rw [hstep]; rfl) hs'
    refine ⟨by rw [h₁, hstep]; rfl, h₂, ?_⟩
    rw [h₃, hstep]
    simp only [breakLine, Text.byteSize_cons]
    have hr : '\r'.utf8Size = 1 := by decide
    have hn : '\n'.utf8Size = 1 := by decide
    omega
  | case3 ch m c hcrlf ih =>
    have hch : Unsplit [ch] (m ++ r) := by
      rintro ⟨hl, hh⟩
      obtain rfl : ch = '\r' := by simpa using hl
      cases m with
      | nil => exact hs ⟨rfl, hh⟩
      | cons a m =>
        obtain rfl : a = '\n' := by simpa using hh
        exact hcrlf m rfl rfl
    obtain ⟨h₁, h₂, h₃⟩ := step_single h hch
    by_cases hm : m = []
    · subst hm
      exact ⟨h₁, h₂, by rw [skip, h₃]; rfl⟩
    · obtain ⟨h₄, h₅, h₆⟩ := ih h₂ (hs.tail hm)
      exact ⟨h₄.trans h₁, h₅, by rw [h₆, h₃, Text.byteSize_cons, Nat.add_assoc]⟩

structure Behind (c : Cursor) (before : Text) : Prop where
  source : c.source = before ++ c.rest
  position : c.position = before.byteSize

theorem behind_ofText (source : Text) : (ofText source).Behind [] := ⟨rfl, rfl⟩

theorem Behind.skip {before m r : Text} (h : c.Behind before) (hc : c.rest = m ++ r)
    (hs : Unsplit m r) : (skip m c).Behind (before ++ m) := by
  obtain ⟨h₁, h₂, h₃⟩ := skip_exact hc hs
  exact ⟨by rw [h₁, h₂, h.source, hc, List.append_assoc],
    by rw [h₃, h.position, Text.byteSize_append]⟩

/-- The cursor is at the end of its source if its position is. -/
theorem Behind.rest_eq_nil_iff {before : Text} (h : c.Behind before) :
    c.rest = [] ↔ c.position = c.source.byteSize := by
  rw [← Text.byteSize_eq_zero, h.position, h.source, Text.byteSize_append]
  omega

end Cursor

end Haml
