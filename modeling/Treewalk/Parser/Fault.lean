import Treewalk.Token

/-!
# Syntax errors

A fault says what the grammar asks for; an error adds the place, which is the list of tokens
ahead where the fault was found.
-/

namespace Treewalk

/-- The phrases behind which a mark is asked for. -/
inductive Phrase
  | forWord | loopCondition | forClauses
  | ifWord | ifCondition
  | whileWord | condition
  | value | block | expression | variableDeclaration
  deriving DecidableEq

namespace Phrase

def text : Phrase → String
  | forWord => "'for'"
  | loopCondition => "loop condition"
  | forClauses => "for clauses"
  | ifWord => "'if'"
  | ifCondition => "if condition"
  | whileWord => "'while'"
  | condition => "condition"
  | value => "value"
  | block => "block"
  | expression => "expression"
  | variableDeclaration => "variable declaration"

end Phrase

inductive SyntaxFault
  | missing (m : Mark) (after : Phrase)
  | missingName
  | missingExpression
  /-- An equals sign behind something other than a name. Parsing goes on. -/
  | invalidTarget
  deriving DecidableEq

namespace SyntaxFault

def message : SyntaxFault → String
  | missing m after => "Expect '" ++ m.text ++ "' after " ++ after.text ++ "."
  | missingName => "Expect variable name."
  | missingExpression => "Expect expression."
  | invalidTarget => "Invalid assignment target."

end SyntaxFault

/-- A fault, found where `ahead` was still to be read. -/
structure SyntaxError where
  fault : SyntaxFault
  ahead : List Token
  deriving DecidableEq

namespace SyntaxError

/-- The token at which an error stands: the next one ahead, or the closing one. -/
def token (stop : Token) (e : SyntaxError) : Token :=
  e.ahead.headD stop

end SyntaxError

end Treewalk
