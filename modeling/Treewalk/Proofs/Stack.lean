import Treewalk.Machine.Evaluate

/-!
# Lexical scoping with a stack

What programs mean, without a machine, ids of scopes or fuel. The open scopes are a stack of maps
from names to values, the innermost first and the globals last; a block pushes an empty map and
pops it.

* `Stack.evaluate`: the value of an expression, and the stack that it leaves. Operands are
  evaluated from left to right, and a stop leaves what had been assigned before.
* `Stack.Executes`, `Stack.ExecutesAll`: how statements end, and in what state. A run that does not
  end is related to nothing.
-/

namespace Treewalk

/-- The names that a scope binds, with their values. -/
abbrev Names := String → Option Value

namespace Names

def empty : Names := fun _ => none

def set (names : Names) (name : String) (value : Value) : Names :=
  fun key => if name = key then some value else names key

end Names

/-- The open scopes, the innermost first and the globals last. -/
abbrev Stack := List Names

namespace Stack

/-- The value that the innermost scope binds of those that bind the name. -/
def lookup (name : String) : Stack → Option Value
  | [] => none
  | names :: outer => if (names name).isSome then names name else lookup name outer

/-- Binds a name in the innermost scope. -/
def define (name : String) (value : Value) : Stack → Stack
  | [] => []
  | names :: outer => names.set name value :: outer

/-- Changes a name in the innermost scope that binds it, if there is one. -/
def assign? (name : String) (value : Value) : Stack → Option Stack
  | [] => none
  | names :: outer =>
    if (names name).isSome then some (names.set name value :: outer)
    else (assign? name value outer).map (names :: ·)

/-! ## Expressions -/

/-- Goes on with a value, on the stack that was left with it. -/
def andThen {α β : Type} (f : α → Stack → Except Stop β × Stack) :
    Except Stop α × Stack → Except Stop β × Stack
  | (.ok a, stack) => f a stack
  | (.error stop, stack) => (.error stop, stack)

def evaluate : Expr → Stack → Except Stop Value × Stack
  | .literal value, stack => (.ok value, stack)
  | .grouping inner, stack => evaluate inner stack
  | .variable name, stack =>
    match lookup name.lexeme stack with
    | some value => (.ok value, stack)
    | none => (.error (.error ⟨.undefinedVariable, name⟩), stack)
  | .assign name e, stack =>
    andThen (fun value stack =>
      match assign? name.lexeme value stack with
      | some stack => (.ok value, stack)
      | none => (.error (.error ⟨.undefinedVariable, name⟩), stack)) (evaluate e stack)
  | .unary operator operand, stack =>
    andThen (fun x stack => (applyUnary operator x, stack)) (evaluate operand stack)
  | .binary left operator right, stack =>
    andThen (fun x stack =>
      andThen (fun y stack => (applyBinary operator x y, stack)) (evaluate right stack))
      (evaluate left stack)
  | .logical left operator right, stack =>
    andThen (fun x stack =>
      match operator.kind with
      | .keyword .kwOr => if x.isTruthy then (.ok x, stack) else evaluate right stack
      | .keyword .kwAnd => if x.isTruthy then evaluate right stack else (.ok x, stack)
      | kind => (.error (.abort (.unexpectedOperator .logical kind)), stack))
      (evaluate left stack)

/-! ## Statements -/

structure State where
  stack : Stack
  /-- All that has been printed. -/
  printed : String

/-- The expression that a statement evaluates before anything else. -/
def first? : Stmt → Option Expr
  | .expression e | .print e | .declare _ (some e) => some e
  | .ifThen condition _ | .ifThenElse condition _ _ | .loop condition _ => some condition
  | .declare _ none | .block _ => none

mutual

inductive Executes : Stmt → State → Except Stop Unit → State → Prop
  | stop {s : Stmt} {e : Expr} {st : State} {reason : Stop} {stack : Stack}
      (hfirst : first? s = some e) (h : evaluate e st.stack = (.error reason, stack)) :
      Executes s st (.error reason) { st with stack }
  | expression {e : Expr} {st : State} {value : Value} {stack : Stack}
      (h : evaluate e st.stack = (.ok value, stack)) :
      Executes (.expression e) st (.ok ()) { st with stack }
  | print {e : Expr} {st : State} {value : Value} {stack : Stack}
      (h : evaluate e st.stack = (.ok value, stack)) :
      Executes (.print e) st (.ok ()) ⟨stack, st.printed ++ (value.text ++ "\n")⟩
  | declareNil {name : Token} {st : State} :
      Executes (.declare name none) st (.ok ())
        { st with stack := define name.lexeme .nil st.stack }
  | declare {name : Token} {e : Expr} {st : State} {value : Value} {stack : Stack}
      (h : evaluate e st.stack = (.ok value, stack)) :
      Executes (.declare name (some e)) st (.ok ())
        { st with stack := define name.lexeme value stack }
  | ifThenTrue {c : Expr} {yes : Stmt} {st st' : State} {r : Except Stop Unit} {value : Value}
      {stack : Stack} (h : evaluate c st.stack = (.ok value, stack))
      (htest : value.isTruthy = true) (hyes : Executes yes { st with stack } r st') :
      Executes (.ifThen c yes) st r st'
  | ifThenFalse {c : Expr} {yes : Stmt} {st : State} {value : Value} {stack : Stack}
      (h : evaluate c st.stack = (.ok value, stack)) (htest : value.isTruthy = false) :
      Executes (.ifThen c yes) st (.ok ()) { st with stack }
  | ifThenElseTrue {c : Expr} {yes no : Stmt} {st st' : State} {r : Except Stop Unit}
      {value : Value} {stack : Stack} (h : evaluate c st.stack = (.ok value, stack))
      (htest : value.isTruthy = true) (hyes : Executes yes { st with stack } r st') :
      Executes (.ifThenElse c yes no) st r st'
  | ifThenElseFalse {c : Expr} {yes no : Stmt} {st st' : State} {r : Except Stop Unit}
      {value : Value} {stack : Stack} (h : evaluate c st.stack = (.ok value, stack))
      (htest : value.isTruthy = false) (hno : Executes no { st with stack } r st') :
      Executes (.ifThenElse c yes no) st r st'
  | loopDone {c : Expr} {body : Stmt} {st : State} {value : Value} {stack : Stack}
      (h : evaluate c st.stack = (.ok value, stack)) (htest : value.isTruthy = false) :
      Executes (.loop c body) st (.ok ()) { st with stack }
  | loopStop {c : Expr} {body : Stmt} {st st' : State} {reason : Stop} {value : Value}
      {stack : Stack} (h : evaluate c st.stack = (.ok value, stack))
      (htest : value.isTruthy = true)
      (hbody : Executes body { st with stack } (.error reason) st') :
      Executes (.loop c body) st (.error reason) st'
  | loopAgain {c : Expr} {body : Stmt} {st st' st'' : State} {r : Except Stop Unit}
      {value : Value} {stack : Stack} (h : evaluate c st.stack = (.ok value, stack))
      (htest : value.isTruthy = true) (hbody : Executes body { st with stack } (.ok ()) st')
      (hagain : Executes (.loop c body) st' r st'') :
      Executes (.loop c body) st r st''
  /-- However the statements inside end, the scope of the block is popped. -/
  | block {body : List Stmt} {st st' : State} {r : Except Stop Unit}
      (h : ExecutesAll body { st with stack := Names.empty :: st.stack } r st') :
      Executes (.block body) st r { st' with stack := st'.stack.tail }

inductive ExecutesAll : List Stmt → State → Except Stop Unit → State → Prop
  | nil {st : State} : ExecutesAll [] st (.ok ()) st
  | stop {s : Stmt} {rest : List Stmt} {st st' : State} {reason : Stop}
      (h : Executes s st (.error reason) st') : ExecutesAll (s :: rest) st (.error reason) st'
  | cons {s : Stmt} {rest : List Stmt} {st st' st'' : State} {r : Except Stop Unit}
      (h : Executes s st (.ok ()) st') (hrest : ExecutesAll rest st' r st'') :
      ExecutesAll (s :: rest) st r st''

end

end Stack

end Treewalk
