import Treewalk.CommandLine

/-!
# The program

Runs the command line against the real file system, standard input and standard output. A
script is read and run as a whole; the prompt reads and handles one line at a time.
-/

namespace Treewalk.CommandLine

/-- Why a file could not be read, in the terms of a file system. Code 20 tells a path that
goes through a file from a path to a directory. -/
def readFault : IO.Error → ReadFault
  | .noFileOrDirectory .. => .notFound
  | .inappropriateType _ code _ => if code = 20 then .notDirectory else .isDirectory
  | .invalidArgument .. => .nameTooLong
  | _ => .notFound

/-- Reads the script at a path. -/
def readFile (path : String) : IO (Except ReadError String) := do
  try
    let bytes ← IO.FS.readBinFile path
    return .ok (Utf8.decode bytes.toList)
  catch e => return .error ⟨path, readFault e⟩

/-- Writes a report, and gives its exit code. -/
def deliver (r : Report) : IO UInt32 := do
  let stdout ← IO.getStdout
  let stderr ← IO.getStderr
  stdout.putStr r.output
  stderr.putStr r.errors
  stdout.flush
  return r.exitCode

/-- Writes what a session has written since the last time, and forgets it. -/
def emit (s : Session Console) : IO (Session Console) := do
  let stdout ← IO.getStdout
  let stderr ← IO.getStderr
  stdout.putStr s.machine.standardOutput
  stderr.putStr s.sink.printed
  stdout.flush
  return ⟨{ s.machine with written := [] }, { s.sink with chunks := [] }⟩

/-- Reads on until a line is complete or the input ends. -/
partial def readLine (stdin : IO.FS.Stream) (line : ByteArray) : IO ByteArray := do
  let byte ← stdin.read 1
  if byte.isEmpty then return line
  let line := line ++ byte
  if byte.data[0]? = some Input.newline then return line
  readLine stdin line

/-- Asks for lines and handles them until the input ends. -/
partial def interact (mode : Mode) (s : Session Console) : IO UInt32 := do
  let .ok (_, p) := (Prompt.ask : Turn Console Unit) ⟨s, .standardOutput⟩ | return 70
  let s ← emit p.session
  let line ← readLine (← IO.getStdin) .empty
  if line.isEmpty then return 0
  let source := Utf8.decode line.toList
  let .ok (_, p) := Prompt.handle ampleFuel mode source ⟨s, .standardOutput⟩ | return 70
  interact mode (← emit p.session)

end Treewalk.CommandLine

open Treewalk CommandLine in
def main (arguments : List String) : IO UInt32 := do
  match CommandLine.parse arguments with
  | .tooManyPaths => deliver reportUsage
  | .prompt mode => interact mode Session.initial
  | .script mode path =>
    match ← readFile path with
    | .error e => deliver (reportUnreadable e)
    | .ok source =>
      match CommandLine.runScript ampleFuel mode source with
      | .ok report => deliver report
      | .error _ => return 70
