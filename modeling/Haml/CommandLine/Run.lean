import Haml.CommandLine.Arguments
import Haml.CommandLine.FileTree
import Haml.Template.Compile

/-!
# Running commands
-/

namespace Haml

/-- What a command leaves behind beside files: its exit code and the messages of
its two output streams. -/
structure Outcome where
  exit : Nat
  output : List Text := []
  messages : List Text := []
  deriving DecidableEq, Repr

namespace Job

def options? (json : Option Text) (tolerant : Bool) : Option Options :=
  match json with
  | none => some ⟨tolerant⟩
  | some t => (Options.ofJson? t).map fun o => ⟨o.tolerant || tolerant⟩

def compileRead (job : Job) (o : Options) : ReadResult → Except Outcome Compilation
  | .absent => .error { exit := 1, messages := ["Error: file not found: " ++ job.path] }
  | .unreadable reason =>
    .error { exit := 1, messages := ["Error reading " ++ job.path ++ ": " ++ reason] }
  | .text source =>
    match Template.compile ⟨templateName job.path, source⟩ o with
    | .error d =>
      .error { exit := 1, messages := ["Parse error in " ++ job.path ++ ": " ++ d.report] }
    | .ok c => .ok c

def warnings (job : Job) (c : Compilation) : List Text :=
  c.diagnostics.map fun d => "Warning in " ++ job.path ++ ": " ++ d.report

def compile {m : Type → Type} [Monad m] (job : Job) (fs : FileSystem m) :
    m (Except Outcome Compilation) :=
  match options? job.options job.tolerant with
  | none => return .error { exit := 2, messages := ["Invalid --options"] }
  | some o => do return job.compileRead o (← fs.read job.path)

def report (job : Job) (c : Compilation) : Outcome :=
  let summary : Nat × Text :=
    if c.diagnostics.isEmpty then (0, "OK: " ++ job.path)
    else (1, job.path ++ ": " ++ Text.ofNat c.diagnostics.length ++ " problem(s) skipped")
  { exit := summary.1, messages := job.warnings c ++ [summary.2] }

end Job

def Command.run {m : Type → Type} [Monad m] (fs : FileSystem m) : Command → m Outcome
  | .version => return { exit := 0, output := ["haml " ++ Haml.version] }
  | .check job => do
    match ← job.compile fs with
    | .error o => return o
    | .ok c => return job.report c
  | .build job output => do
    match ← job.compile fs with
    | .error o => return o
    | .ok c =>
      let path := output.getD (defaultOutput job.path)
      match ← fs.write path c.code with
      | some reason =>
        return { exit := 1
                 messages := job.warnings c ++ ["Error writing " ++ path ++ ": " ++ reason] }
      | none => return { exit := 0, messages := job.warnings c ++ ["Built: " ++ path] }

def runArguments {m : Type → Type} [Monad m] (fs : FileSystem m) (args : List Text) : m Outcome :=
  match Command.ofArguments? args with
  | none => return { exit := 2, messages := ["usage".toList] }
  | some c => c.run fs

end Haml
