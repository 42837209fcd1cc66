import Haml.Filter.Basic
import Haml.Html.Preserve

/-!
# Built-in filters
-/

namespace Haml

namespace Filter

/-- Each line as text, one level less deep than the block. -/
def lines (processing : TextProcessing) : Filter := fun block depth point =>
  { instructions := block.map fun line =>
      .text (Text.indentation (depth - 1) ++ line ++ "\n") true point processing }

def plain : Filter := lines .verbatim

def escaped : Filter := lines .escape

structure Wrapping where
  opening : Text
  openingData : Text
  closingData : Text
  closing : Text
  deriving DecidableEq, Repr

/-- The block inside an element, marked as character data one level deeper. -/
def wrapped (w : Wrapping) : Filter := fun block depth point =>
  let outer := Text.indentation depth
  let inner := Text.indentation (depth + 1)
  { instructions :=
      [.markup (outer ++ w.opening ++ "\n" ++ inner ++ w.openingData ++ "\n")] ++
      block.map (fun line => .text (inner ++ line ++ "\n") true point .verbatim) ++
      [.markup (inner ++ w.closingData ++ "\n" ++ outer ++ w.closing ++ "\n")] }

def script : Filter :=
  wrapped ⟨"<script type=\"text/javascript\">", "//<![CDATA[", "//]]>", "</script>"⟩

def style : Filter :=
  wrapped ⟨"<style type=\"text/css\">", "/*<![CDATA[*/", "/*]]>*/", "</style>"⟩

def characterData : Filter := fun block depth point =>
  let indentation := Text.indentation depth
  { instructions :=
      [.markup (indentation ++ "<![CDATA[\n")] ++
      block.map (fun line => .text (indentation ++ line ++ "\n") true point .verbatim) ++
      [.markup (indentation ++ "]]>\n")] }

/-- The block on one line, its line ends as character references. -/
def preserve : Filter := fun block depth point =>
  let joined := Text.join (Html.lineFeed ++ " ") (block.map (List.drop 2))
  { instructions :=
      [.text (Text.indentation depth) false point .verbatim,
       .text (joined ++ "\n") true point .verbatim] }

end Filter

def FilterRegistry.builtin : FilterRegistry :=
  (((((({} : FilterRegistry).register "plain" Filter.plain).register
    "javascript" Filter.script).register
    "css" Filter.style).register
    "cdata" Filter.characterData).register
    "preserve" Filter.preserve).register
    "escaped" Filter.escaped

end Haml
