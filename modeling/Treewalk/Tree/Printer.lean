import Treewalk.Tree

/-!
# Trees as text

A tree is written in parentheses with its operator in front, as in
`(* (group (+ 1 2)) 3)`. Operators and names are written as their tokens are spelled, a
string literal without quotes.
-/

namespace Treewalk

namespace Expr

def text : Expr → String
  | assign name value => "(= " ++ name.lexeme ++ " " ++ value.text ++ ")"
  | binary left operator right | logical left operator right =>
    "(" ++ operator.lexeme ++ " " ++ left.text ++ " " ++ right.text ++ ")"
  | grouping inner => "(group " ++ inner.text ++ ")"
  | literal value => value.text
  | unary operator operand => "(" ++ operator.lexeme ++ " " ++ operand.text ++ ")"
  | .variable name => name.lexeme

end Expr

namespace Stmt

mutual

def text : Stmt → String
  | block body => "(block" ++ spacedText body ++ ")"
  | expression e => "(; " ++ e.text ++ ")"
  | ifThen condition yes => "(if " ++ condition.text ++ " " ++ yes.text ++ ")"
  | ifThenElse condition yes no =>
    "(if-else " ++ condition.text ++ " " ++ yes.text ++ " " ++ no.text ++ ")"
  | print e => "(print " ++ e.text ++ ")"
  | declare name none => "(var " ++ name.lexeme ++ ")"
  | declare name (some e) => "(var " ++ name.lexeme ++ " = " ++ e.text ++ ")"
  | loop condition body => "(while " ++ condition.text ++ " " ++ body.text ++ ")"

/-- Each statement with a space before it. -/
def spacedText : List Stmt → String
  | [] => ""
  | s :: rest => " " ++ s.text ++ spacedText rest

end

/-- One tree on each line. -/
def linesText (stmts : List Stmt) : String :=
  String.join (stmts.map fun s => s.text ++ "\n")

end Stmt

end Treewalk
