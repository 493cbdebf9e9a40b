import Treewalk.Session
import Treewalk.Session.Input
import Treewalk.Session.Outlet

/-!
# The prompt

The prompt writes `> `, reads a line, handles it, and starts again until the input ends. A
line is run, or its trees are written. The first failure ends the prompt: of a write, of a
flush, or of reading on.

Main definition: `Prompt.converse`.
-/

namespace Treewalk

/-! ## Failures -/

inductive PromptError
  | promptNotWritten
  | notFlushed
  | notRead
  | treesNotWritten
  deriving DecidableEq

namespace PromptError

def message : PromptError → String
  | promptNotWritten => "could not write prompt: write limit reached"
  | notFlushed => "could not flush stdout: flush limit reached"
  | notRead => "read limit reached"
  | treesNotWritten => "could not write syntax tree: write limit reached"

end PromptError

/-! ## Conversations -/

/-- What is done with a source. -/
inductive Mode
  | run
  | printTrees
  deriving DecidableEq

/-- A session and where its prompt writes to. -/
structure Prompt (σ : Type) where
  session : Session σ
  outlet : Outlet

/-- A part of a conversation. It may fail, and it may be aborted. -/
abbrev Turn (σ : Type) := ExceptT PromptError (StateT (Prompt σ) (Except Abort))

namespace Prompt

variable {σ : Type}

/-- Writes text, failing with `e`. Standard output never fails. -/
def write (text : String) (e : PromptError) : Turn σ Unit := fun p =>
  match p.outlet with
  | .standardOutput =>
    .ok (.ok (), { p with
      session := { p.session with machine := p.session.machine.write text } })
  | .handle h =>
    let (fits, h) := h.write (Utf8.encode text)
    .ok (if fits then .ok () else .error e, { p with outlet := .handle h })

def flush : Turn σ Unit := fun p =>
  match p.outlet with
  | .standardOutput => .ok (.ok (), p)
  | .handle h =>
    let (succeeds, h) := h.flush
    .ok (if succeeds then .ok () else .error .notFlushed, { p with outlet := .handle h })

/-- Asks for a line. -/
def ask : Turn σ Unit := do
  write "> " .promptNotWritten
  flush

variable [Sink σ]

/-- Runs a source; what it printed is on standard output already. -/
def runSource (fuel : Nat) (source : String) : Turn σ Unit := fun p =>
  match p.session.run fuel source with
  | .error a => .error a
  | .ok (_, session) => .ok (.ok (), { p with session })

/-- The trees of a source. -/
def treesOf (source : String) : Turn σ String := fun p =>
  let (trees, session) := p.session.printTrees source
  .ok (.ok trees, { p with session })

def handle (fuel : Nat) (mode : Mode) (source : String) : Turn σ Unit :=
  match mode with
  | .run => runSource fuel source
  | .printTrees => do
    write (← treesOf source) .treesNotWritten

/-- Asks for each line and handles it, and asks once more where the lines end. -/
def converseOver (fuel : Nat) (mode : Mode) (fails : Bool) : List (List UInt8) → Turn σ Unit
  | [] => do
    ask
    if fails then throw .notRead
  | line :: rest => do
    ask
    handle fuel mode (Utf8.decode line)
    converseOver fuel mode fails rest

/-- A whole conversation over an input. -/
def converse (fuel : Nat) (mode : Mode) (input : Input) : Turn σ Unit :=
  converseOver fuel mode input.fails input.lines

end Prompt

end Treewalk
