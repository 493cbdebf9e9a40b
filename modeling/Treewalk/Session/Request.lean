import Treewalk.Session.Prompt

/-!
# Requests to a session

The ways to use a session, as data: each request has an answer and leaves a session.
-/

namespace Treewalk

inductive Request
  /-- Parse a source. -/
  | parse (source : String)
  /-- Run a source, or print its trees. -/
  | source (mode : Mode) (source : String)
  /-- Run the script at a path. -/
  | script (path : String) (files : FileSystem)
  /-- Converse over an input, with the prompt on a handle. -/
  | lines (mode : Mode) (input : Input) (handle : Handle)

inductive Answer
  | statements (stmts : List Stmt)
  | output (text : String)
  | unreadable (e : ReadError)
  /-- What reached the handle, and the failure that ended the prompt, if any. -/
  | conversation (written : List UInt8) (failure : Option PromptError)

namespace Session

variable {σ : Type} [Sink σ]

/-- Runs the script at a path. The session is left as it is where that cannot be read. -/
def runScript (fuel : Nat) (path : String) (files : FileSystem) (s : Session σ) :
    Except Abort (Except ReadError String × Session σ) :=
  match files.readScript path with
  | .error e => .ok (.error e, s)
  | .ok source => (s.run fuel source).map fun (output, s) => (.ok output, s)

/-- Converses with the prompt on a handle. -/
def runLines (fuel : Nat) (mode : Mode) (input : Input) (h : Handle) (s : Session σ) :
    Except Abort ((List UInt8 × Option PromptError) × Session σ) :=
  match Prompt.converse fuel mode input ⟨s, .handle h⟩ with
  | .error a => .error a
  | .ok (result, p) =>
    let written :=
      match p.outlet with
      | .standardOutput => []
      | .handle h => h.bytes
    let failure :=
      match result with
      | .ok () => none
      | .error e => some e
    .ok ((written, failure), p.session)

/-- Answers one request. -/
def perform (fuel : Nat) (s : Session σ) : Request → Except Abort (Answer × Session σ)
  | .parse source =>
    let (stmts, s) := s.parse source
    .ok (.statements stmts, s)
  | .source .run source =>
    (s.run fuel source).map fun (output, s) => (.output output, s)
  | .source .printTrees source =>
    let (trees, s) := s.printTrees source
    .ok (.output trees, s)
  | .script path files =>
    (s.runScript fuel path files).map fun
      | (.ok output, s) => (.output output, s)
      | (.error e, s) => (.unreadable e, s)
  | .lines mode input h =>
    (s.runLines fuel mode input h).map fun ((written, failure), s) =>
      (.conversation written failure, s)

end Session

end Treewalk
