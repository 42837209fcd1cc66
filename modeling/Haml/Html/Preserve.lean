import Haml.Text.Pattern

/-!
# Preserved line breaks

Line feeds inside an element without attributes and without inner elements are
written as character references, so that they survive layout.
-/

namespace Haml.Html

/-- An element without attributes whose contents have no markup. -/
def inlineElement : Pattern :=
  Pattern.andThen (Pattern.exactly "<") <|
  Pattern.andThen (Pattern.many1 Char.isAlpha) <|
  Pattern.andThen (Pattern.exactly ">") <|
  Pattern.andThen (Pattern.many (· != '<')) <|
  Pattern.andThen (Pattern.exactly "</") <|
  Pattern.andThen (Pattern.many1 Char.isAlpha) <|
  Pattern.exactly ">"

theorem inlineElement_proper : Pattern.Proper inlineElement :=
  Pattern.andThen_proper (Pattern.exactly_proper (by decide)) _

/-- A line feed as a character reference. -/
def lineFeed : Text := "&#x000A;"

def encodeLineFeeds (t : Text) : Text := t.flatMap fun c => if c = '\n' then lineFeed else [c]

/-- The text with the line feeds inside inline elements as character references. -/
def preserve : Text → Text
  | [] => []
  | c :: t =>
    match _ : inlineElement (c :: t) with
    | some m => encodeLineFeeds m ++ preserve ((c :: t).drop m.length)
    | none => c :: preserve t
termination_by t => t.length
decreasing_by
  · have h := List.length_pos_iff.2 (inlineElement_proper _ _ ‹_›)
    simp only [List.length_drop, List.length_cons]
    omega
  · simp

end Haml.Html
