import Treewalk.Token

/-!
# Trees

Expressions and statements. Operators and names are kept as tokens, so that a fault found
while walking the tree can be placed in the text. A tree made by hand may hold a token of
any kind as an operator.
-/

namespace Treewalk

inductive Expr
  | assign (name : Token) (value : Expr)
  | binary (left : Expr) (operator : Token) (right : Expr)
  | grouping (inner : Expr)
  | literal (value : Value)
  /-- An operator that may leave its right side alone. -/
  | logical (left : Expr) (operator : Token) (right : Expr)
  | unary (operator : Token) (operand : Expr)
  | variable (name : Token)
  deriving Inhabited, DecidableEq

inductive Stmt
  | block (body : List Stmt)
  | expression (e : Expr)
  | ifThen (condition : Expr) (yes : Stmt)
  | ifThenElse (condition : Expr) (yes no : Stmt)
  | print (e : Expr)
  /-- Binds a name in the innermost scope, to nil where no value is given. -/
  | declare (name : Token) (initializer : Option Expr)
  | loop (condition : Expr) (body : Stmt)
  deriving Inhabited

end Treewalk
