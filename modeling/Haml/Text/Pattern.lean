import Haml.Text.Blank
import Haml.Text.WordChar

/-!
# Patterns

A pattern looks at the start of a text and answers with the longest beginning it
accepts, if any. Token rules and the probes of the source are built from these.
-/

namespace Haml

/-- A pattern gives the beginning of a text that it matches. -/
abbrev Pattern := Text → Option Text

namespace Pattern

def exactly (lead : Text) : Pattern := fun t => if lead.isPrefixOf t then some lead else none

/-- The longest run of characters that satisfy `p`, which may be empty. -/
def many (p : Char → Bool) : Pattern := fun t => some (t.takeWhile p)

/-- A character that satisfies `p`, with the longest run of `q` after it. -/
def headed (p q : Char → Bool) : Pattern
  | [] => none
  | c :: t => if p c then some (c :: t.takeWhile q) else none

def many1 (p : Char → Bool) : Pattern := headed p p

def andThen (p q : Pattern) : Pattern := fun t =>
  match p t with
  | none => none
  | some m => (q (t.drop m.length)).map (m ++ ·)

/-- One line end: a carriage return with its line feed, or either alone. -/
def lineEnd : Pattern
  | '\r' :: '\n' :: _ => some ['\r', '\n']
  | '\n' :: _ => some ['\n']
  | '\r' :: _ => some ['\r']
  | _ => none

def restOfLine : Pattern := many fun c => !isLineBreak c

def closingBrace : Pattern := andThen (many isBlank) (exactly ['\x7d'])

def blanks : Pattern := many1 isBlank

def word : Pattern := many1 isWordChar

/-- A pattern that never matches the empty text. -/
def Proper (p : Pattern) : Prop := ∀ t m, p t = some m → m ≠ []

theorem exactly_proper {lead : Text} (h : lead ≠ []) : Proper (exactly lead) := by
  intro t m hm
  simp only [exactly] at hm
  split at hm <;> simp_all

theorem headed_proper (p q : Char → Bool) : Proper (headed p q) := by
  intro t m hm
  cases t with
  | nil => simp [headed] at hm
  | cons c t =>
    simp only [headed] at hm
    split at hm <;> simp_all
    simp [← hm]

theorem many1_proper (p : Char → Bool) : Proper (many1 p) := headed_proper p p

theorem andThen_proper {p : Pattern} (h : Proper p) (q : Pattern) : Proper (andThen p q) := by
  intro t m hm
  simp only [andThen] at hm
  split at hm
  · simp at hm
  · rename_i l hl
    obtain ⟨r, _, rfl⟩ := Option.map_eq_some_iff.1 hm
    simp [h t l hl]

theorem lineEnd_proper : Proper lineEnd := by
  intro t m hm
  unfold lineEnd at hm
  split at hm <;> simp_all <;> simp [← hm]

end Pattern

end Haml
