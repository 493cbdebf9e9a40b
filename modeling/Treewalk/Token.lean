import Treewalk.Value

/-!
# Tokens

A token is a kind, the text it was cut from and the line on which that text ends. Kinds are
the operator and punctuation marks, the keywords, names, the two literals with payload, and
the end of the text.
-/

namespace Treewalk

/-- Operators and punctuation. -/
inductive Mark
  | leftParen | rightParen | leftBrace | rightBrace
  | comma | dot | minus | plus | semicolon | slash | star
  | bang | bangEqual | equal | equalEqual
  | greater | greaterEqual | less | lessEqual
  deriving DecidableEq, Inhabited

namespace Mark

def chars : Mark → List Char
  | leftParen => ['(']
  | rightParen => [')']
  | leftBrace => ['{']
  | rightBrace => ['}']
  | comma => [',']
  | dot => ['.']
  | minus => ['-']
  | plus => ['+']
  | semicolon => [';']
  | slash => ['/']
  | star => ['*']
  | bang => ['!']
  | bangEqual => ['!', '=']
  | equal => ['=']
  | equalEqual => ['=', '=']
  | greater => ['>']
  | greaterEqual => ['>', '=']
  | less => ['<']
  | lessEqual => ['<', '=']

def text (m : Mark) : String :=
  String.ofList m.chars

/-- The mark that a character is on its own. -/
def ofChar? : Char → Option Mark
  | '(' => some leftParen
  | ')' => some rightParen
  | '{' => some leftBrace
  | '}' => some rightBrace
  | ',' => some comma
  | '.' => some dot
  | '-' => some minus
  | '+' => some plus
  | ';' => some semicolon
  | '/' => some slash
  | '*' => some star
  | '!' => some bang
  | '=' => some equal
  | '>' => some greater
  | '<' => some less
  | _ => none

/-- The mark that a character makes together with an equals sign after it. -/
def withEqual? : Char → Option Mark
  | '!' => some bangEqual
  | '=' => some equalEqual
  | '>' => some greaterEqual
  | '<' => some lessEqual
  | _ => none

end Mark

/-- Words that are no names. -/
inductive Keyword
  | kwAnd | kwClass | kwElse | kwFalse | kwFor | kwFun | kwIf | kwNil
  | kwOr | kwPrint | kwReturn | kwSuper | kwThis | kwTrue | kwVar | kwWhile
  deriving DecidableEq, Inhabited

namespace Keyword

def all : List Keyword :=
  [kwAnd, kwClass, kwElse, kwFalse, kwFor, kwFun, kwIf, kwNil,
    kwOr, kwPrint, kwReturn, kwSuper, kwThis, kwTrue, kwVar, kwWhile]

def text : Keyword → String
  | kwAnd => "and"
  | kwClass => "class"
  | kwElse => "else"
  | kwFalse => "false"
  | kwFun => "fun"
  | kwFor => "for"
  | kwIf => "if"
  | kwNil => "nil"
  | kwOr => "or"
  | kwPrint => "print"
  | kwReturn => "return"
  | kwSuper => "super"
  | kwThis => "this"
  | kwTrue => "true"
  | kwVar => "var"
  | kwWhile => "while"

/-- The keyword that a whole word spells. -/
def ofText? (word : String) : Option Keyword :=
  all.find? fun k => k.text = word

end Keyword

inductive TokenKind
  | mark (m : Mark)
  | keyword (k : Keyword)
  | identifier
  | number (x : Number)
  | string (s : String)
  | eof
  deriving DecidableEq, Inhabited

namespace TokenKind

/-- The kind of a word: a keyword where the whole word spells one, else a name. -/
def ofWord (word : String) : TokenKind :=
  match Keyword.ofText? word with
  | some k => keyword k
  | none => identifier

end TokenKind

/-- A token. Tokens made by hand may pair any text with any kind. -/
structure Token where
  kind : TokenKind
  lexeme : String
  line : UInt32
  deriving DecidableEq, Inhabited

namespace Token

/-- The token that closes every token list; its text is empty. -/
def eof (line : UInt32) : Token :=
  ⟨.eof, "", line⟩

def isEof (t : Token) : Bool :=
  t.kind = .eof

def isMark (m : Mark) (t : Token) : Bool :=
  t.kind = .mark m

def isKeyword (k : Keyword) (t : Token) : Bool :=
  t.kind = .keyword k

/-- The value that a number or string token carries. -/
def literal? (t : Token) : Option Value :=
  match t.kind with
  | .number x => some (.number x)
  | .string s => some (.string s)
  | _ => none

/-! ## Classes of operators, and the tokens that begin statements -/

def isEquality (t : Token) : Bool :=
  match t.kind with
  | .mark .bangEqual | .mark .equalEqual => true
  | _ => false

def isComparison (t : Token) : Bool :=
  match t.kind with
  | .mark .greater | .mark .greaterEqual | .mark .less | .mark .lessEqual => true
  | _ => false

def isTerm (t : Token) : Bool :=
  match t.kind with
  | .mark .minus | .mark .plus => true
  | _ => false

def isFactor (t : Token) : Bool :=
  match t.kind with
  | .mark .slash | .mark .star => true
  | _ => false

def isUnary (t : Token) : Bool :=
  match t.kind with
  | .mark .bang | .mark .minus => true
  | _ => false

/-- Recovery from a syntax error may resume at such a token. -/
def startsStatement (t : Token) : Bool :=
  match t.kind with
  | .keyword .kwClass | .keyword .kwFun | .keyword .kwVar | .keyword .kwFor
  | .keyword .kwIf | .keyword .kwWhile | .keyword .kwPrint | .keyword .kwReturn => true
  | _ => false

end Token

end Treewalk
