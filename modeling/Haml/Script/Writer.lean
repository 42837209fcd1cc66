import Haml.Html.Escape
import Haml.Html.Preserve
import Haml.Interpolation
import Haml.Script.Block
import Haml.Script.Buffer
import Haml.Script.Snippet

/-!
# Writing scripts

A writer carries instructions out one by one. What it has written in the end is
the body of a rendering function.
-/

namespace Haml

def TextProcessing.apply : TextProcessing → Text → Text
  | .verbatim, t => t
  | .escape, t => Html.escape t
  | .preserve, t => Html.preserve t

namespace Script

structure Writer where
  buffer : Buffer := { render := pushLiteral }
  /-- The depth of the line that is being written. -/
  depth : Nat := 0

namespace Writer

def onBuffer (w : Writer) (f : Buffer → Buffer) : Writer := { w with buffer := f w.buffer }

def piece (w : Writer) (point : Point) (processing : TextProcessing) : Piece → Writer
  | .literal t => w.onBuffer (·.append (processing.apply t))
  | .code c =>
    w.onBuffer
      (·.write (evaluate (Text.indentation (w.depth + 1)) c processing.embedMode point))

/-- Ends a block, unless the next line of the template does so itself. -/
def closeBlock (w : Writer) (kind : BlockKind) (upcoming : Upcoming) : Writer :=
  if closesBlock upcoming then w
  else w.onBuffer (·.write (Text.indentation w.depth ++ closer kind ++ "\n"))

def apply (w : Writer) : Instruction → Writer
  | .start tolerant => w.onBuffer (·.write (preamble tolerant))
  | .depth depth => { w with depth := depth }
  | .markup t => w.onBuffer (·.append t)
  | .trimMarkup => w.onBuffer Buffer.trim
  | .code line newline =>
    w.onBuffer (·.write (Text.indentation w.depth ++ line ++ newline))
  | .expression indentation code mode point =>
    w.onBuffer (·.write (evaluate indentation code mode point))
  | .text t true point processing =>
    (Piece.split t).foldl (fun w p => w.piece point processing p) w
  | .text t false _ processing => w.onBuffer (·.append (processing.apply t))
  | .attributes a point => w.onBuffer (·.write (dynamicAttributes a point))
  | .closeBlock kind upcoming => w.closeBlock kind upcoming
  | .scanned _ => w
  | .finish => w.onBuffer (·.write epilogue)

def run (w : Writer) (is : List Instruction) : Writer := is.foldl apply w

/-- The instructions in order, those that only concern markup left out, each with
the text that is pending when it comes. -/
def trace (w : Writer) : List Instruction → List (Text × Instruction)
  | [] => []
  | i :: is =>
    if i.isMarkup then (w.apply i).trace is
    else (w.buffer.pending, i) :: (w.apply i).trace is

def finish (w : Writer) : Text × Writer :=
  let b := (w.apply .finish).buffer.take
  (b.1, { w with buffer := b.2 })

end Writer

def body (is : List Instruction) : Text := (({} : Writer).run is).buffer.output

end Script

end Haml
