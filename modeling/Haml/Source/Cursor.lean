import Haml.Source.Point
import Haml.Source.Reader

/-!
# Cursor

A cursor is a reader that also counts lines and columns. A carriage return and
the line feed after it are one line end, and the cursor never stops between them.
-/

namespace Haml

structure Cursor extends Reader where
  /-- The number of the line, from one. -/
  line : Nat
  /-- How many characters of the line have been read. -/
  column : Nat
  /-- The source from the start of the line on. -/
  lineTail : Text
  deriving DecidableEq, Repr

namespace Cursor

def ofText (source : Text) : Cursor := ⟨Reader.ofText source, 1, 0, source⟩

def point (c : Cursor) : Point :=
  ⟨c.line, c.column, c.lineTail.takeWhile fun ch => !isLineBreak ch⟩

/-- The cursor behind a line end of `size` bytes, with `t` left to read. -/
def breakLine (c : Cursor) (size : Nat) (t : Text) : Cursor :=
  { c with position := c.position + size, rest := t, line := c.line + 1, column := 0, lineTail := t }

/-- Moves past one character, or past a carriage return and its line feed. -/
def step (c : Cursor) : Cursor :=
  match c.rest with
  | [] => c
  | '\r' :: '\n' :: t => c.breakLine 2 t
  | ch :: t =>
    if isLineBreak ch then c.breakLine 1 t
    else { c with position := c.position + ch.utf8Size, rest := t, column := c.column + 1 }

/-- Moves past a text that stands at the cursor. -/
def skip : Text → Cursor → Cursor
  | [], c => c
  | '\r' :: '\n' :: t, c => skip t c.step
  | _ :: t, c => skip t c.step

theorem step_rest_length_lt {c : Cursor} (h : c.rest ≠ []) :
    c.step.rest.length < c.rest.length := by
  unfold step
  split
  · contradiction
  · simp_all only [breakLine, List.length_cons]
    omega
  · split <;> simp_all [breakLine]

theorem step_rest_length_le (c : Cursor) : c.step.rest.length ≤ c.rest.length := by
  by_cases h : c.rest = []
  · simp [step, h]
  · exact Nat.le_of_lt (step_rest_length_lt h)

theorem skip_rest_length_le (t : Text) (c : Cursor) :
    (skip t c).rest.length ≤ c.rest.length := by
  fun_induction skip t c with
  | case1 => exact Nat.le_refl _
  | case2 t c ih => exact Nat.le_trans ih (step_rest_length_le c)
  | case3 x t c _ ih => exact Nat.le_trans ih (step_rest_length_le c)

theorem skip_rest_length_lt {t : Text} {c : Cursor} (ht : t ≠ []) (hc : c.rest ≠ []) :
    (skip t c).rest.length < c.rest.length := by
  fun_cases skip t c with
  | case1 => contradiction
  | case2 t => exact Nat.lt_of_le_of_lt (skip_rest_length_le t c.step) (step_rest_length_lt hc)
  | case3 x t _ => exact Nat.lt_of_le_of_lt (skip_rest_length_le t c.step) (step_rest_length_lt hc)

end Cursor

end Haml
