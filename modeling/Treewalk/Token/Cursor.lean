import Treewalk.Token

/-!
# A position in a token list

A cursor stands between the tokens passed and the tokens ahead, and never goes beyond the
first closing token. A list without one is closed on the line of its last token.
-/

namespace Treewalk

structure Cursor where
  /-- The tokens passed, the latest first. -/
  passed : List Token
  /-- The tokens ahead; none of them closes the list. -/
  ahead : List Token
  /-- The token that closes the list. -/
  stop : Token
  deriving DecidableEq

namespace Cursor

/-- The line of the last token, 1 where there is none. -/
def lastLine (tokens : List Token) : UInt32 :=
  (tokens.getLast?.map Token.line).getD 1

/-- A cursor before the first token. -/
def ofTokens (tokens : List Token) : Cursor where
  passed := []
  ahead := tokens.takeWhile (!·.isEof)
  stop := (tokens.find? Token.isEof).getD (Token.eof (lastLine tokens))

/-- The token that would be passed next. -/
def peek (c : Cursor) : Token :=
  c.ahead.headD c.stop

/-- The token passed last, or the first one where none has been passed. -/
def previous (c : Cursor) : Token :=
  c.passed.headD c.peek

def isAtEnd (c : Cursor) : Bool :=
  c.peek.isEof

/-- Passes one token, or none at the end. -/
def advance (c : Cursor) : Cursor :=
  match c.ahead with
  | [] => c
  | t :: ahead => { c with passed := t :: c.passed, ahead }

end Cursor

end Treewalk
