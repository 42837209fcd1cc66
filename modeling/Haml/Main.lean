import Haml.CommandLine.Run

/-!
# The command line

The program `haml`: `haml build` compiles a template to a script, `haml check`
only reports, `haml --version` tells the version.
-/

namespace Haml

/-- The number that the machine gives to a failure, and its words for it. -/
def failure : IO.Error → Option (Nat × String)
  | .alreadyExists _ n s | .otherError n s | .resourceBusy n s | .resourceVanished n s
  | .unsupportedOperation n s | .hardwareFault n s | .unsatisfiedConstraints n s
  | .illegalOperation n s | .protocolError n s | .timeExpired n s | .interrupted _ n s
  | .noFileOrDirectory _ n s | .invalidArgument _ n s | .permissionDenied _ n s
  | .resourceExhausted _ n s | .inappropriateType _ n s | .noSuchThing _ n s =>
    some (n.toNat, s)
  | .unexpectedEof | .userError _ => none

/-- Whether a failure says that a path leads nowhere: a name in it is missing, no
directory, or too long, or the path runs in a circle. -/
def leadsNowhere (e : IO.Error) : Bool :=
  match failure e with
  | some (n, _) => [2, 20, 36, 40].contains n
  | none => false

def reason (e : IO.Error) : Text :=
  match failure e with
  | some (n, s) => s.toList ++ " (os error " ++ Text.ofNat n ++ ")"
  | none => e.toString.toList

def readFile (path : Text) : IO ReadResult := do
  try
    let bytes ← IO.FS.readBinFile (String.ofList path)
    match String.fromUTF8? bytes with
    | some s => return .text s.toList
    | none => return .unreadable FileTree.notTextMessage
  catch e => return if leadsNowhere e then .absent else .unreadable (reason e)

def writeFile (path contents : Text) : IO (Option Text) := do
  try
    IO.FS.writeFile (String.ofList path) (String.ofList contents)
    return none
  catch e => return some (reason e)

def machine : FileSystem IO := ⟨readFile, writeFile⟩

end Haml

def main (args : List String) : IO UInt32 := do
  let outcome ← Haml.runArguments Haml.machine (args.map String.toList)
  for line in outcome.output do
    IO.println (String.ofList line)
  for message in outcome.messages do
    IO.eprintln (String.ofList message)
  return outcome.exit.toUInt32
