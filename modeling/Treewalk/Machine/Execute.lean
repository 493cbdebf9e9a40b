import Treewalk.Machine.Evaluate

/-!
# Executing statements

A block runs in a scope of its own, which is dropped when the block is left, be it by a
run-time error. How often a loop may be repeated is bounded by a fuel, the same for every
loop; a run that does not use up its fuel does not depend on it.

Main definition: `interpret`.
-/

namespace Treewalk

namespace Exec

/-- Runs something in a new scope inside `scope`, and drops that scope, except after an
abort. -/
def inBlock (scope : ScopeId) (body : ScopeId → Exec Unit) : Exec Unit := fun m =>
  let (inner, scopes) := m.scopes.enclose scope
  match body inner { m with scopes } with
  | (.error (.abort a), m) => (.error (.abort a), m)
  | (result, m) => (result, { m with scopes := m.scopes.discard inner })

/-- Repeats `body` for as long as `test` gives true. -/
def whileTrue (test : Exec Bool) (body : Exec Unit) : Nat → Exec Unit
  | 0, m => (.error (.abort .outOfFuel), m)
  | fuel + 1, m =>
    match test m with
    | (.error stop, m) => (.error stop, m)
    | (.ok false, m) => (.ok (), m)
    | (.ok true, m) =>
      match body m with
      | (.error stop, m) => (.error stop, m)
      | (.ok (), m) => whileTrue test body fuel m

end Exec

/-- Whether an expression has a true value. -/
def evaluatesTrue (scope : ScopeId) (e : Expr) : Exec Bool :=
  Value.isTruthy <$> evaluate scope e

mutual

/-- Executes a statement in a scope. -/
def execute (fuel : Nat) (scope : ScopeId) : Stmt → Exec Unit
  | .expression e => do
    let _ ← evaluate scope e
  | .print e => do
    Exec.print (← evaluate scope e)
  | .declare name none => Exec.define scope name .nil
  | .declare name (some e) => do
    Exec.define scope name (← evaluate scope e)
  | .ifThen condition yes => do
    if ← evaluatesTrue scope condition then execute fuel scope yes
  | .ifThenElse condition yes no => do
    if ← evaluatesTrue scope condition then execute fuel scope yes
    else execute fuel scope no
  | .loop condition body =>
    Exec.whileTrue (evaluatesTrue scope condition) (execute fuel scope body) fuel
  | .block body => Exec.inBlock scope fun inner => executeAll fuel inner body

/-- Executes statements one after the other, up to the first that stops. -/
def executeAll (fuel : Nat) (scope : ScopeId) : List Stmt → Exec Unit
  | [] => pure ()
  | s :: rest => do
    execute fuel scope s
    executeAll fuel scope rest

end

/-- Executes a program in the scope of the globals. -/
def interpret (fuel : Nat) (stmts : List Stmt) : Exec Unit :=
  executeAll fuel Scopes.globals stmts

/-- Fuel for more rounds of a loop than are ever waited for. -/
def ampleFuel : Nat := Nat.pow 2 62

end Treewalk
