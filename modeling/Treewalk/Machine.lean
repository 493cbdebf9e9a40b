import Treewalk.Scope

/-!
# The machine

The state in which trees are walked: the scopes, what was written to standard output, and
the part of it that is pending, which is to say printed and not yet taken. A run either
finishes, or stops at a run-time error, or is aborted; the state is kept in each case.
-/

namespace Treewalk

structure Machine where
  scopes : Scopes
  /-- What was printed since the output was last taken, the latest first. -/
  pending : List String
  /-- Everything written to standard output, the latest first. -/
  written : List String
  deriving Inhabited, DecidableEq

namespace Machine

def initial : Machine :=
  ⟨.initial, [], []⟩

/-- Writes text to standard output. -/
def write (m : Machine) (text : String) : Machine :=
  { m with written := text :: m.written }

/-- Prints a value: its text on a line, on standard output and as pending output. -/
def print (m : Machine) (value : Value) : Machine :=
  let text := value.text ++ "\n"
  { m.write text with pending := text :: m.pending }

/-- All that was written to standard output. -/
def standardOutput (m : Machine) : String :=
  String.join m.written.reverse

/-- The pending output, which is then no longer pending. -/
def takeOutput (m : Machine) : String × Machine :=
  (String.join m.pending.reverse, { m with pending := [] })

end Machine

/-- The places in a tree at which an operator stands. -/
inductive Position
  | binary | logical | unary
  deriving DecidableEq

/-- Ends of a run that no parsed program comes to by itself. -/
inductive Abort
  /-- A tree has a token as an operator that is none in its position. -/
  | unexpectedOperator (position : Position) (kind : TokenKind)
  /-- A loop went on for longer than it was allowed to. -/
  | outOfFuel
  deriving DecidableEq

/-- Why a run did not finish. -/
inductive Stop
  | error (e : RuntimeError)
  | abort (a : Abort)
  deriving DecidableEq

/-- A computation that changes the machine, and keeps its changes when it stops. -/
abbrev Exec := ExceptT Stop (StateM Machine)

end Treewalk
