import Treewalk.Token

/-!
# Run-time errors

What can go wrong while a tree is walked, and the token at which it does. The line of an
error is that of its token.
-/

namespace Treewalk

inductive RuntimeFault
  | undefinedVariable
  /-- Negation of something other than a number. -/
  | operandNotNumber
  /-- Arithmetic or order on something other than two numbers. -/
  | operandsNotNumbers
  /-- A sum of two values that are not both numbers, and of which none is a string that the
  other can be joined to. -/
  | operandsNotSummable
  deriving DecidableEq

structure RuntimeError where
  fault : RuntimeFault
  token : Token
  deriving DecidableEq

namespace RuntimeError

def line (e : RuntimeError) : UInt32 :=
  e.token.line

def message (e : RuntimeError) : String :=
  match e.fault with
  | .undefinedVariable => "Undefined variable '" ++ e.token.lexeme ++ "'."
  | .operandNotNumber => "Operand must be a number."
  | .operandsNotNumbers => "Operands must be numbers."
  | .operandsNotSummable => "Operands must be two numbers or at least one string."

end RuntimeError

end Treewalk
