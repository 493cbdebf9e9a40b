import Treewalk.Parser.Fault
import Treewalk.RuntimeError
import Treewalk.Token.Scan

/-!
# Diagnostics

What is reported to the user: errors in a source, with a line and maybe a location on it, and
the run-time error that ended a run.
-/

namespace Treewalk

inductive Diagnostic
  /-- A lexical or syntax error; an empty location is not shown. -/
  | source (line : UInt32) (location message : String)
  | runtime (line : UInt32) (message : String)
  deriving DecidableEq

namespace Token

/-- How a diagnostic refers to a token. -/
def location (t : Token) : String :=
  if t.isEof then "at end" else "at '" ++ t.lexeme ++ "'"

end Token

namespace Diagnostic

def lineText (line : UInt32) : String :=
  "[line " ++ Nat.repr line.toNat ++ "]"

def text : Diagnostic → String
  | source line location message =>
    let place := if location = "" then "" else " " ++ location
    lineText line ++ " Error" ++ place ++ ": " ++ message
  | runtime line message => message ++ "\n" ++ lineText line

def ofLexicalError (e : LexicalError) : Diagnostic :=
  .source e.line "" e.fault.message

/-- A syntax error at a token. -/
def ofSyntaxFault (fault : SyntaxFault) (t : Token) : Diagnostic :=
  .source t.line t.location fault.message

def ofRuntimeError (e : RuntimeError) : Diagnostic :=
  .runtime e.line e.message

end Diagnostic

end Treewalk
