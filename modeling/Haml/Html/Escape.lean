import Haml.Text.Basic

/-!
# Escaped text

The five characters that have a meaning in markup, written as entities.
-/

namespace Haml.Html

def escapeChar : Char → Text
  | '&' => "&amp;"
  | '<' => "&lt;"
  | '>' => "&gt;"
  | '"' => "&quot;"
  | '\'' => "&#39;"
  | c => [c]

def escape (t : Text) : Text := t.flatMap escapeChar

end Haml.Html
