import Haml.Instruction
import Haml.Text.Blank
import Haml.Text.Quoted

/-!
# Snippets of script

The body of a rendering function is put together from these. It collects the
markup in the array `html` and takes its helpers from `haml.HamlRuntime`.
-/

namespace Haml.Script

def pushLiteral (t : Text) : Text := "    html.push(" ++ t.quote ++ ");\n"

def preamble (tolerant : Bool) : Text :=
  "  var handleError = haml.HamlRuntime." ++
    (if tolerant then "_logError".toList else "_raiseError".toList) ++ ";\n" ++
    "  var html = [];\n" ++
    "  var hashFunction = null, objRefFn = null;\n" ++
    "  with (context || \x7b\x7d) \x7b\n"

def epilogue : Text := "  \x7d\n  return html.join(\"\");\n"

def pushValue : EmbedMode → Text
  | .escape => "html.push(haml.HamlRuntime.escapeHTML(String(value)));"
  | .preserve => "html.push(haml.HamlRuntime.perserveWhitespace(String(value)));"
  | .raw => "html.push(String(value));"

def pointArguments (p : Point) : Text :=
  Text.ofNat p.line ++ ", " ++ Text.ofNat p.column ++ ", " ++ p.text.quote

/-- Evaluates an expression and collects its value; no expression at all stands
for the empty text. -/
def evaluate (indentation code : Text) (mode : EmbedMode) (point : Point) : Text :=
  let expression : Text := if code.trim.isEmpty then "\"\"" else code.trim
  indentation ++ "try \x7b\n" ++
    indentation ++ "    var value = " ++ expression ++ ";\n" ++
    indentation ++ "    value = value === null ? \"\" : value;\n" ++
    indentation ++ "    " ++ pushValue mode ++ "\n" ++
    indentation ++ "\x7d catch (e) \x7b\n" ++
    indentation ++ "  handleError(haml.HamlRuntime.templateError(" ++ pointArguments point ++
      ",\n" ++
    indentation ++ "    \"Error evaluating expression - \" + e));\n" ++
    indentation ++ "\x7d\n"

/-- A key of an object literal; keys that are reserved words are quoted. -/
def objectKey (key : Text) : Text :=
  if key = "class" ∨ key = "for" then key.quote else key

def objectLiteral (entries : List (Text × Text)) : Text :=
  "\x7b" ++ Text.join ", " (entries.map fun e => objectKey e.1 ++ ": " ++ e.2) ++ "\x7d"

/-- Puts a pair into a list that is sorted by name, in place of one of the same name. -/
def insertPair (pair : Text × Text) : List (Text × Text) → List (Text × Text)
  | [] => [pair]
  | p :: ps =>
    if pair.1 = p.1 then pair :: ps
    else if Text.precedes pair.1 p.1 then pair :: p :: ps
    else p :: insertPair pair ps

/-- The pairs sorted by name, of each name the last one. -/
def sortedPairs (pairs : List (Text × Text)) : List (Text × Text) :=
  pairs.foldl (fun ps p => insertPair p ps) []

def attributeObject (pairs : List (Text × Text)) : Text :=
  "\x7b" ++ Text.join "," ((sortedPairs pairs).map fun p => p.1.quote ++ ":" ++ p.2.quote) ++ "\x7d"

def setHashFunction (hash : List (Text × Text)) : Text :=
  if hash.isEmpty then "    hashFunction = null;\n"
  else "    hashFunction = function () \x7b return " ++ objectLiteral hash ++ "; \x7d;\n"

def setReferenceFunction : Option Text → Text
  | none => "    objRefFn = null;\n"
  | some r => "    objRefFn = function () \x7b return " ++ r ++ "; \x7d;\n"

def pushAttributes (a : Attributes) (point : Point) : Text :=
  "    html.push(haml.HamlRuntime.generateElementAttributes(context, " ++
    (Text.join "-" a.ids).quote ++ ", [" ++ Text.join "," (a.classes.map Text.quote) ++
    "], objRefFn, " ++ attributeObject a.pairs ++ ", hashFunction, " ++ pointArguments point ++
    ", handleError));\n"

def dynamicAttributes (a : Attributes) (point : Point) : Text :=
  setHashFunction a.hash ++ setReferenceFunction a.reference ++ pushAttributes a point

end Haml.Script
