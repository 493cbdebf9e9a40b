import Treewalk.Diagnostic.Sink
import Treewalk.FileSystem
import Treewalk.Machine.Execute
import Treewalk.Parser.Statement
import Treewalk.Tree.Printer

/-!
# Sessions

A session runs one source after the other on the same machine, and reports to a sink. Each
source is parsed afresh; a source with a lexical or syntax error is not run at all. The
globals live on from one run to the next.
-/

namespace Treewalk

structure Session (σ : Type) where
  machine : Machine
  sink : σ

namespace Session

variable {σ : Type} [Sink σ]

def initial : Session σ :=
  ⟨.initial, Sink.empty⟩

/-- Whether the latest source had an error of any kind. -/
def hadError (s : Session σ) : Bool :=
  (Sink.flags s.sink).any

/-- Parses a source and reports what is wrong with it, lexical errors first. Tokens are
parsed even where there were lexical errors. -/
def parse (source : String) (s : Session σ) : List Stmt × Session σ :=
  let scanned := scan source
  let program := Program.ofTokens scanned.tokens
  let diagnostics := scanned.errors.map Diagnostic.ofLexicalError
    ++ program.errors.map fun (fault, t) => Diagnostic.ofSyntaxFault fault t
  (program.statements, { s with sink := Sink.writeAll (Sink.reset s.sink) diagnostics })

/-- The trees of a source, those that could be parsed, one on each line. -/
def printTrees (source : String) (s : Session σ) : String × Session σ :=
  let (stmts, s) := s.parse source
  (Stmt.linesText stmts, s)

/-- Executes statements and gives what is then pending, reporting a run-time error. -/
def execute (fuel : Nat) (stmts : List Stmt) (s : Session σ) :
    Except Abort (String × Session σ) :=
  match interpret fuel stmts s.machine with
  | (.error (.abort a), _) => .error a
  | (.error (.error e), m) =>
    let (output, m) := m.takeOutput
    .ok (output, ⟨m, Sink.write s.sink (.ofRuntimeError e)⟩)
  | (.ok (), m) =>
    let (output, m) := m.takeOutput
    .ok (output, { s with machine := m })

/-- Runs a source and gives what it printed. -/
def run (fuel : Nat) (source : String) (s : Session σ) : Except Abort (String × Session σ) :=
  let (stmts, s) := s.parse source
  if (Sink.flags s.sink).sourceError then .ok ("", s) else s.execute fuel stmts

end Session

end Treewalk
