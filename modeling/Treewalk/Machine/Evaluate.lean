import Treewalk.Machine
import Treewalk.Tree

/-!
# Evaluating expressions

Operands are evaluated from left to right, and before their operator is looked at. `and` and
`or` give the operand that decided them.
-/

namespace Treewalk

/-! ## Operators on values -/

/-- An operator on two numbers. -/
def onNumbers (operator : Token) (f : Number → Number → Value) (x y : Value) :
    Except Stop Value :=
  match x.asNumber?, y.asNumber? with
  | some a, some b => .ok (f a b)
  | _, _ => .error (.error ⟨.operandsNotNumbers, operator⟩)

/-- The sum of numbers, or strings joined; a number is joined to a string as its text. -/
def sum (operator : Token) : Value → Value → Except Stop Value
  | .number x, .number y => .ok (.number (x + y))
  | .string s, .string t => .ok (.string (s ++ t))
  | .string s, .number y => .ok (.string (s ++ y.text))
  | .number x, .string t => .ok (.string (x.text ++ t))
  | _, _ => .error (.error ⟨.operandsNotSummable, operator⟩)

def applyBinary (operator : Token) (x y : Value) : Except Stop Value :=
  match operator.kind with
  | .mark .plus => sum operator x y
  | .mark .minus => onNumbers operator (fun a b => .number (a - b)) x y
  | .mark .star => onNumbers operator (fun a b => .number (a * b)) x y
  | .mark .slash => onNumbers operator (fun a b => .number (a / b)) x y
  | .mark .less => onNumbers operator (fun a b => .bool (a.less b)) x y
  | .mark .lessEqual => onNumbers operator (fun a b => .bool (a.atMost b)) x y
  | .mark .greater => onNumbers operator (fun a b => .bool (b.less a)) x y
  | .mark .greaterEqual => onNumbers operator (fun a b => .bool (b.atMost a)) x y
  | .mark .equalEqual => .ok (.bool (x.equals y))
  | .mark .bangEqual => .ok (.bool (!x.equals y))
  | kind => .error (.abort (.unexpectedOperator .binary kind))

def applyUnary (operator : Token) (x : Value) : Except Stop Value :=
  match operator.kind with
  | .mark .bang => .ok (.bool (!x.isTruthy))
  | .mark .minus =>
    match x with
    | .number a => .ok (.number (-a))
    | _ => .error (.error ⟨.operandNotNumber, operator⟩)
  | kind => .error (.abort (.unexpectedOperator .unary kind))

/-- Whether the left side of a logical operator decides it. -/
def decidedBy (operator : Token) (left : Value) : Except Stop Bool :=
  match operator.kind with
  | .keyword .kwOr => .ok left.isTruthy
  | .keyword .kwAnd => .ok (!left.isTruthy)
  | kind => .error (.abort (.unexpectedOperator .logical kind))

/-! ## Variables -/

namespace Exec

def get (scope : ScopeId) (name : Token) : Exec Value := fun m =>
  (((m.scopes.get scope name).mapError .error), m)

def assign (scope : ScopeId) (name : Token) (value : Value) : Exec Unit := fun m =>
  match m.scopes.assign scope name value with
  | .ok scopes => (.ok (), { m with scopes })
  | .error e => (.error (.error e), m)

def define (scope : ScopeId) (name : Token) (value : Value) : Exec Unit := fun m =>
  (.ok (), { m with scopes := m.scopes.define scope name.lexeme value })

def print (value : Value) : Exec Unit := fun m =>
  (.ok (), m.print value)

end Exec

/-! ## Expressions -/

/-- The value of an expression, its names looked up from `scope`. -/
def evaluate (scope : ScopeId) : Expr → Exec Value
  | .literal value => pure value
  | .grouping inner => evaluate scope inner
  | .variable name => Exec.get scope name
  | .assign name e => do
    let value ← evaluate scope e
    Exec.assign scope name value
    return value
  | .unary operator operand => do
    let x ← evaluate scope operand
    liftExcept (applyUnary operator x)
  | .binary left operator right => do
    let x ← evaluate scope left
    let y ← evaluate scope right
    liftExcept (applyBinary operator x y)
  | .logical left operator right => do
    let x ← evaluate scope left
    if ← liftExcept (decidedBy operator x) then return x
    else evaluate scope right

end Treewalk
