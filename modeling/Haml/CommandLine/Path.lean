import Haml.Text.Basic

/-!
# Paths

A path is cut at its slashes. Empty segments and single dots mean nothing, except
for a dot in front of a relative path, which is kept.
-/

namespace Haml

structure Path where
  /-- A slash for an absolute path, a dot for a path that starts with one. -/
  lead : Text
  /-- The segments behind the lead. -/
  segments : List Text
  deriving DecidableEq, Repr

namespace Path

/-- The parts of a text between its slashes. -/
def cut : Text → List Text
  | [] => [[]]
  | c :: t =>
    if c = '/' then [] :: cut t
    else
      match cut t with
      | [] => [[c]]
      | s :: ss => (c :: s) :: ss

/-- The segments of what follows the lead; nothing at all has none. -/
def body (t : Text) : List Text := if t.isEmpty then [] else cut t

def ofText : Text → Path
  | '/' :: t => ⟨"/", body t⟩
  | ['.'] => ⟨".", []⟩
  | '.' :: '/' :: t => ⟨".", body ('/' :: t)⟩
  | t => ⟨"", body t⟩

def toText (p : Path) : Text := p.lead ++ Text.join "/" p.segments

def isIdle (segment : Text) : Bool := segment.isEmpty || segment == "."

def trimmed (p : Path) : Path :=
  { p with segments := (p.segments.reverse.dropWhile isIdle).reverse }

/-- The last segment that means something, unless it leads up. -/
def fileName? (p : Path) : Option Text :=
  p.trimmed.segments.getLast?.filter (· ≠ "..".toList)

/-- A file name without its extension. A dot in front does not start one. -/
def withoutExtension (name : Text) : Text :=
  let stem := (name.reverse.dropWhile (· != '.')).drop 1
  if stem.isEmpty then name else stem.reverse

def stem? (p : Path) : Option Text := p.fileName?.map withoutExtension

def parent? (p : Path) : Option Path :=
  let t := p.trimmed
  if !t.segments.isEmpty then some (trimmed { t with segments := t.segments.dropLast })
  else if t.lead = "." then some ⟨[], []⟩
  else none

def join (directory name : Text) : Text :=
  if directory.isEmpty then name
  else if directory.getLast? = some '/' then directory ++ name
  else directory ++ "/" ++ name

end Path

def templateName (path : Text) : Text := (Path.ofText path).stem?.getD "template"

/-- Where the script of a template goes if nothing else is said: beside it. -/
def defaultOutput (path : Text) : Text :=
  let directory : Text := ((Path.ofText path).parent?.map Path.toText).getD "."
  Path.join directory (templateName path ++ ".js")

end Haml
