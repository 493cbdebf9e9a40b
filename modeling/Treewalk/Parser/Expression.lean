import Treewalk.Parser.Reply
import Treewalk.Tree

/-!
# Parsing expressions

From loosest to tightest: assignment, which groups to the right; the binary levels of
`Level.all`, which group to the left; the unary operators; literals, names and parentheses.

Every nested expression stands behind at least one token more, so a bound above the count
of tokens ahead is never used up; `expression` takes such a bound.
-/

namespace Treewalk

/-- Operators that bind equally, and the node that they build. -/
structure Level where
  isOperator : Token → Bool
  node : Expr → Token → Expr → Expr

namespace Level

/-- The binary levels, the loosest first. -/
def all : List Level :=
  [⟨Token.isKeyword .kwOr, .logical⟩,
    ⟨Token.isKeyword .kwAnd, .logical⟩,
    ⟨Token.isEquality, .binary⟩,
    ⟨Token.isComparison, .binary⟩,
    ⟨Token.isTerm, .binary⟩,
    ⟨Token.isFactor, .binary⟩]

end Level

namespace Parser

/-- A literal, a name, or an expression in parentheses, which `nested` reads. -/
def primary (nested : Parser Expr) : Parser Expr
  | [] => fail .missingExpression []
  | t :: ts =>
    match t.literal? with
    | some value => ⟨.ok (.literal value), [], ts⟩
    | none =>
      match t.kind with
      | .keyword .kwTrue => ⟨.ok (.literal (.bool true)), [], ts⟩
      | .keyword .kwFalse => ⟨.ok (.literal (.bool false)), [], ts⟩
      | .keyword .kwNil => ⟨.ok (.literal .nil), [], ts⟩
      | .identifier => ⟨.ok (.variable t), [], ts⟩
      | .mark .leftParen =>
        (do
          let inner ← nested
          expectMark .rightParen .expression
          return .grouping inner : Parser Expr) ts
      | _ => fail .missingExpression (t :: ts)

/-- Any number of unary operators before a primary expression. -/
def unary (nested : Parser Expr) : Parser Expr
  | [] => primary nested []
  | t :: ts =>
    if t.isUnary then (unary nested ts).map (.unary t) else primary nested (t :: ts)

/-- Goes on from `left` with operators of one level and their right operands, at most
`bound` of them. -/
def operations (level : Level) (operand : Parser Expr) : Nat → Expr → Parser Expr
  | 0, left => pure left
  | bound + 1, left => do
    match ← take? level.isOperator with
    | none => pure left
    | some operator =>
      let right ← operand
      operations level operand bound (level.node left operator right)

/-- The binary levels, each with the tighter ones as operands. -/
def binary (bound : Nat) (operand : Parser Expr) : List Level → Parser Expr
  | [] => operand
  | level :: tighter => do
    let left ← binary bound operand tighter
    operations level (binary bound operand tighter) bound left

/-- An assignment or what binds tighter. Only a name can be assigned to; another left side is
reported at the equals sign and stands for the whole. -/
def assignment (bound : Nat) (nested : Parser Expr) : Parser Expr := do
  let left ← binary bound (unary nested) Level.all
  let place ← ahead
  match ← take? (Token.isMark .equal) with
  | none => return left
  | some _ =>
    let value ← nested
    match left with
    | .variable name => return .assign name value
    | _ =>
      report ⟨.invalidTarget, place⟩
      return left

/-- An expression, for token lists shorter than the bound. -/
def expression : Nat → Parser Expr
  | 0 => fail .missingExpression
  | bound + 1 => assignment bound (expression bound)

end Parser

end Treewalk
