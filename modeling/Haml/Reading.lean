import Haml.Expression

/-!
# Readings

The outcome of reading part of a line: a value or the diagnostic that stopped
it, the expressions scanned on the way, and the lexer where reading ended.
-/

namespace Haml

/-- An expression that was scanned: where scanning started and stopped, and the
expression unless scanning failed. -/
structure Probe where
  start : Nat
  stop : Nat
  expression : Option Text
  deriving DecidableEq, Repr

structure Reading (α : Type) where
  value : Except Diagnostic α
  lexer : Lexer
  probes : List Probe := []

theorem ok_of_map_ok {ε α β : Type} {f : α → β} {x : Except ε α} {b : β} (h : x.map f = .ok b) :
    ∃ a, x = .ok a := by
  cases x with
  | error e => cases h
  | ok a => exact ⟨a, rfl⟩

theorem error_of_map_error {ε α β : Type} {f : α → β} {x : Except ε α} {e : ε}
    (h : x.map f = .error e) : x = .error e := by
  cases x with
  | error _ =>
    cases h
    rfl
  | ok _ => cases h

end Haml
