import Treewalk.Token.Piece

/-!
# From text to tokens

A token stands for each string, number, word and mark among the pieces of a text. Blanks and
comments leave no trace; a stray character and an unterminated string are lexical errors and
leave no token. Tokens and errors carry the line on which their piece ends.

Main definition: `scan`.
-/

namespace Treewalk

/-- What can be wrong with a text before there are tokens. -/
inductive LexicalFault
  | unexpectedCharacter
  | unterminatedString
  deriving DecidableEq

namespace LexicalFault

def message : LexicalFault → String
  | unexpectedCharacter => "Unexpected character."
  | unterminatedString => "Unterminated string."

end LexicalFault

structure LexicalError where
  fault : LexicalFault
  line : UInt32
  deriving DecidableEq

namespace Piece

/-- The kind of the token that a piece becomes, if any. -/
def kind? : Piece → Option TokenKind
  | string body => some (.string (String.ofList body))
  | number whole fraction =>
    some (.number (Number.ofDecimal (Decimal.ofDigits whole fraction)))
  | word letters => some (.ofWord (String.ofList letters))
  | mark m => some (.mark m)
  | _ => none

def token? (p : Piece) (line : UInt32) : Option Token :=
  p.kind?.map fun kind => ⟨kind, String.ofList p.text, line⟩

def fault? : Piece → Option LexicalFault
  | stray _ => some .unexpectedCharacter
  | unterminated _ => some .unterminatedString
  | _ => none

def error? (p : Piece) (line : UInt32) : Option LexicalError :=
  p.fault?.map fun fault => ⟨fault, line⟩

end Piece

/-- The line reached behind a text that starts on `line`. -/
def lineAfter (line : UInt32) (text : List Char) : UInt32 :=
  line + UInt32.ofNat (text.count '\n')

/-- Each piece with the line on which it ends. -/
def withLines (line : UInt32) : List Piece → List (Piece × UInt32)
  | [] => []
  | p :: ps => (p, lineAfter line p.text) :: withLines (lineAfter line p.text) ps

/-- The line reached behind the last of these pieces, `line` where there is none. -/
def lineReached (line : UInt32) (placed : List (Piece × UInt32)) : UInt32 :=
  (placed.getLast?.map Prod.snd).getD line

/-- What scanning a text gives: tokens that end with the closing one, and the lexical
errors. -/
structure Scan where
  tokens : List Token
  errors : List LexicalError

/-- Scans a text whose first line is line 1. -/
def scan (source : String) : Scan :=
  let placed := withLines 1 (pieces source.toList)
  { tokens := placed.filterMap (fun (p, line) => p.token? line)
      ++ [Token.eof (lineReached 1 placed)]
    errors := placed.filterMap (fun (p, line) => p.error? line) }

end Treewalk
