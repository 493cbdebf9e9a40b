import Treewalk.Session.Prompt

/-!
# The command line

Without a path there is a prompt on standard output; with one path the script there is run,
or its trees are printed; with more there is a hint and nothing is read. The exit code says
how it went.
-/

namespace Treewalk

namespace CommandLine

/-- What the arguments ask for. -/
inductive Command
  | prompt (mode : Mode)
  | script (mode : Mode) (path : String)
  | tooManyPaths
  deriving DecidableEq

/-- The option that asks for trees. -/
def treeOption : String := "--print-ast"

/-- Behind this argument everything is a path. -/
def endOfOptions : String := "--"

def parse (arguments : List String) : Command :=
  let (front, back) := arguments.span (· ≠ endOfOptions)
  let mode := if front.contains treeOption then .printTrees else .run
  match front.filter (· ≠ treeOption) ++ back.drop 1 with
  | [] => .prompt mode
  | [path] => .script mode path
  | _ => .tooManyPaths

/-- What is left of a run of the program. -/
structure Report where
  exitCode : UInt32
  output : String
  errors : String
  deriving DecidableEq

def usage : String := "Usage: tlang [script]\n"

def reportUsage : Report := ⟨64, usage, ""⟩

/-- The report on a script that cannot be read. -/
def reportUnreadable (e : ReadError) : Report :=
  ⟨1, "", "Error: " ++ e.attempt ++ "\n\nCaused by:\n    " ++ e.fault.message ++ "\n"⟩

/-- The report on a session that is over. -/
def report (exitCode : UInt32) (s : Session Console) : Report :=
  ⟨exitCode, s.machine.standardOutput, s.sink.printed⟩

/-- Handles the text of a script. Any error in it shows in the exit code. -/
def runScript (fuel : Nat) (mode : Mode) (source : String) : Except Abort Report := do
  let (_, p) ← Prompt.handle fuel mode source ⟨Session.initial, .standardOutput⟩
  return report (if p.session.hadError then 65 else 0) p.session

/-- Converses over the standard input. -/
def runPrompt (fuel : Nat) (mode : Mode) (input : Input) : Except Abort Report := do
  let (_, p) ← Prompt.converse fuel mode input ⟨Session.initial, .standardOutput⟩
  return report 0 p.session

/-- The place of standard input among the files. -/
def standardInputPath : String := "/dev/stdin"

/-- The whole program on its arguments, the files around it and its standard input. -/
def run (fuel : Nat) (arguments : List String) (files : FileSystem) (stdin : List UInt8) :
    Except Abort Report :=
  match parse arguments with
  | .tooManyPaths => .ok reportUsage
  | .prompt mode => runPrompt fuel mode ⟨stdin, false⟩
  | .script mode path =>
    match (files.withFile standardInputPath stdin).readScript path with
    | .error e => .ok (reportUnreadable e)
    | .ok source => runScript fuel mode source

end CommandLine

end Treewalk
