import Haml.CommandLine.Path

/-!
# Files

What the command line needs of a file system, and a file system that is a value:
the files and directories below a working directory.
-/

namespace Haml

inductive ReadResult where
  | absent
  | unreadable (reason : Text)
  | text (t : Text)
  deriving DecidableEq, Repr

structure FileSystem (m : Type → Type) where
  read : Text → m ReadResult
  /-- Writes a file; the answer is the reason if that fails. -/
  write : Text → Text → m (Option Text)

namespace FileTree

inductive Node where
  | directory
  | file (contents : Text)
  /-- A file that holds no text. -/
  | binary
  deriving DecidableEq, Repr

inductive PathFault where
  | missing
  | notDirectory
  | isDirectory
  | tooLong
  deriving DecidableEq, Repr

/-- A place that a path leads to: names below the working directory, or a
directory above it. -/
inductive Place where
  | below (names : List Text)
  | above (levels : Nat)
  | root
  deriving DecidableEq, Repr

def notTextMessage : Text := "stream did not contain valid UTF-8"

def PathFault.message : PathFault → Text
  | .missing => "No such file or directory (os error 2)"
  | .notDirectory => "Not a directory (os error 20)"
  | .isDirectory => "Is a directory (os error 21)"
  | .tooLong => "File name too long (os error 36)"

def pathLimit : Nat := 4095

def nameLimit : Nat := 255

end FileTree

/-- The files and directories below a working directory, by the names that lead
to them. -/
structure FileTree where
  entries : List (List Text × FileTree.Node) := []
  deriving DecidableEq, Repr

namespace FileTree

def node? (t : FileTree) : Place → Option Node
  | .below [] => some .directory
  | .below names => t.entries.lookup names
  | .above _ => some .directory
  | .root => some .directory

def move (place : Place) (segment : Text) : Option Place :=
  if Path.isIdle segment then some place
  else if segment = ".." then
    match place with
    | .below [] => some (.above 1)
    | .below names => some (.below names.dropLast)
    | .above n => some (.above (n + 1))
    | .root => some .root
  else
    match place with
    | .below names => some (.below (names ++ [segment]))
    | _ => none

/-- Follows a segment from a place, which has to be a directory. -/
def follow (t : FileTree) (place : Place) (segment : Text) : Except PathFault Place :=
  if t.node? place ≠ some .directory then .error .notDirectory
  else if nameLimit < segment.byteSize then .error .tooLong
  else
    match move place segment with
    | none => .error .missing
    | some next => if (t.node? next).isNone then .error .missing else .ok next

/-- Follows segments from a place, each of which has to lead somewhere. -/
def walk (t : FileTree) (place : Place) (segments : List Text) : Except PathFault Place :=
  segments.foldlM t.follow place

def origin (p : Path) : Place := if p.lead = "/" then .root else .below []

def find (t : FileTree) (path : Text) : Except PathFault Place :=
  if path.isEmpty then .error .missing
  else if pathLimit < path.byteSize then .error .tooLong
  else
    let p := Path.ofText path
    t.walk (origin p) p.segments

def read (t : FileTree) (path : Text) : ReadResult :=
  match t.find path with
  | .error _ => .absent
  | .ok place =>
    match t.node? place with
    | none => .absent
    | some .directory => .unreadable PathFault.isDirectory.message
    | some .binary => .unreadable notTextMessage
    | some (.file contents) => .text contents

def insert (t : FileTree) (names : List Text) (n : Node) : FileTree :=
  ⟨t.entries.filter (·.1 ≠ names) ++ [(names, n)]⟩

/-- Makes a directory, and those above it that are missing. -/
def insertDirectory (t : FileTree) (names : List Text) : FileTree :=
  (List.range (names.length + 1)).foldl (fun t n =>
    let path := names.take n
    if (t.node? (.below path)).isSome then t else t.insert path .directory) t

/-- Writes a file whose directory is known. A name that leads up or nowhere, or has
a slash behind it, can only be that of a directory. -/
def writeAt (t : FileTree) (directory : Place) (name : Text) (slashed : Bool)
    (contents : Text) : Except PathFault FileTree :=
  if t.node? directory ≠ some .directory then .error .notDirectory
  else if slashed || Path.isIdle name || name == ".." then .error .isDirectory
  else if nameLimit < name.byteSize then .error .tooLong
  else
    match move directory name with
    | some (.below names) =>
      if t.node? (.below names) = some .directory then .error .isDirectory
      else .ok (t.insert names (.file contents))
    | _ => .ok t

/-- Writes a file; its directory has to be there. -/
def write (t : FileTree) (path contents : Text) : Except PathFault FileTree :=
  if path.isEmpty then .error .missing
  else if pathLimit < path.byteSize then .error .tooLong
  else
    let p := Path.ofText path
    match p.segments.reverse.dropWhile List.isEmpty with
    | [] => .error .isDirectory
    | name :: before => do
      let directory ← t.walk (origin p) before.reverse
      t.writeAt directory name (p.segments.getLast? = some []) contents

def fileSystem : FileSystem (StateM FileTree) where
  read path := do return (← get).read path
  write path contents := do
    match (← get).write path contents with
    | .ok t =>
      set t
      return none
    | .error fault => return some fault.message

end FileTree

end Haml
