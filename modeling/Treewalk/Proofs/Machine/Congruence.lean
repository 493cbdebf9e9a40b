import Treewalk.Proofs.Machine.Exec
import Treewalk.Proofs.Tree

/-!
# What each step has, the whole run has

`Congruence P f extra R` says that the relation `R` between computations is kept by all the ways in
which `execute` builds them. The first computation stands for a tree whose tokens have the property
`P`, the second for the same tree with `f t` in the place of each token `t`, and with `extra` more
fuel.

`Congruence.execute` is the one induction over statements and expressions; a property of runs, or a
relation between them, is shown by its congruence. Where `R` does not look at its second side, it is
a property of one run.
-/

namespace Treewalk

open Exec

structure Congruence (P : Role → Token → Prop) (f : Token → Token) (extra : Nat)
    (R : (α : Type) → Exec α → Exec α → Prop) : Prop where
  pure {α : Type} (a : α) : R α (pure a) (pure a)
  bind {α β : Type} {x y : Exec α} {g h : α → Exec β} (hx : R α x y) (hg : ∀ a, R β (g a) (h a)) :
    R β (x >>= g) (y >>= h)
  outOfFuel (test test' : Exec Bool) (body body' : Exec Unit) :
    R Unit (whileTrue test body 0) (whileTrue test' body' extra)
  inBlock {body body' : ScopeId → Exec Unit} (h : ∀ inner, R Unit (body inner) (body' inner))
    (scope : ScopeId) : R Unit (inBlock scope body) (inBlock scope body')
  get {name : Token} (h : P .name name) (scope : ScopeId) :
    R Value (get scope name) (get scope (f name))
  assign {name : Token} (h : P .name name) (scope : ScopeId) (value : Value) :
    R Unit (assign scope name value) (assign scope (f name) value)
  define {name : Token} (h : P .name name) (scope : ScopeId) (value : Value) :
    R Unit (define scope name value) (define scope (f name) value)
  print (value : Value) : R Unit (print value) (print value)
  unary {operator : Token} (h : P (.operator .unary) operator) (x : Value) :
    R Value (liftExcept (applyUnary operator x)) (liftExcept (applyUnary (f operator) x))
  binary {operator : Token} (h : P (.operator .binary) operator) (x y : Value) :
    R Value (liftExcept (applyBinary operator x y)) (liftExcept (applyBinary (f operator) x y))
  logical {operator : Token} (h : P (.operator .logical) operator) (x : Value) :
    R Bool (liftExcept (decidedBy operator x)) (liftExcept (decidedBy (f operator) x))

namespace Congruence

variable {P : Role → Token → Prop} {f : Token → Token} {extra : Nat}
  {R : (α : Type) → Exec α → Exec α → Prop}

theorem evaluate (c : Congruence P f extra R) (scope : ScopeId) {e : Expr} (h : e.Every P) :
    R Value (evaluate scope e) (evaluate scope (e.map f)) := by
  induction e with
  | literal value => exact c.pure value
  | grouping _ ih => exact ih h
  | «variable» => exact c.get h scope
  | assign _ _ ih =>
    apply c.bind (ih h.2)
    intro value
    exact c.bind (c.assign h.1 scope value) fun _ => c.pure value
  | unary _ _ ih => exact c.bind (ih h.2) fun x => c.unary h.1 x
  | binary _ _ _ ihLeft ihRight =>
    apply c.bind (ihLeft h.2.1)
    intro x
    apply c.bind (ihRight h.2.2)
    intro y
    exact c.binary h.1 x y
  | logical _ _ _ ihLeft ihRight =>
    apply c.bind (ihLeft h.2.1)
    intro x
    apply c.bind (c.logical h.1 x)
    intro decided
    cases decided with
    | true => exact c.pure x
    | false => exact ihRight h.2.2

theorem evaluatesTrue (c : Congruence P f extra R) (scope : ScopeId) {e : Expr} (h : e.Every P) :
    R Bool (evaluatesTrue scope e) (evaluatesTrue scope (e.map f)) := by
  simp only [Treewalk.evaluatesTrue, map_eq_pure_bind]
  exact c.bind (c.evaluate scope h) fun value => c.pure value.isTruthy

theorem whileTrue (c : Congruence P f extra R) {test test' : Exec Bool} {body body' : Exec Unit}
    (htest : R Bool test test') (hbody : R Unit body body') (fuel : Nat) :
    R Unit (whileTrue test body fuel) (whileTrue test' body' (fuel + extra)) := by
  induction fuel with
  | zero =>
    rw [Nat.zero_add]
    exact c.outOfFuel test test' body body'
  | succ fuel ih =>
    rw [Nat.add_right_comm, whileTrue_succ, whileTrue_succ]
    apply c.bind htest
    intro again
    cases again with
    | true => exact c.bind hbody fun _ => ih
    | false => exact c.pure ()

mutual

theorem execute (c : Congruence P f extra R) (fuel : Nat) (scope : ScopeId) :
    ∀ {s : Stmt}, s.Every P →
      R Unit (execute fuel scope s) (execute (fuel + extra) scope (s.map f))
  | .expression e, h => by
    simp only [Stmt.map, Treewalk.execute]
    exact c.bind (c.evaluate scope h) fun _ => c.pure ()
  | .print e, h => by
    simp only [Stmt.map, Treewalk.execute]
    exact c.bind (c.evaluate scope h) c.print
  | .declare name none, h => by
    simp only [Stmt.map, Option.map_none, Treewalk.execute]
    exact c.define h scope .nil
  | .declare name (some e), h => by
    simp only [Stmt.map, Option.map_some, Treewalk.execute]
    exact c.bind (c.evaluate scope h.2) (c.define h.1 scope)
  | .ifThen condition yes, h => by
    simp only [Stmt.map, Treewalk.execute]
    apply c.bind (c.evaluatesTrue scope h.1)
    intro test
    cases test with
    | true => exact c.execute fuel scope h.2
    | false => exact c.pure ()
  | .ifThenElse condition yes no, h => by
    simp only [Stmt.map, Treewalk.execute]
    apply c.bind (c.evaluatesTrue scope h.1)
    intro test
    cases test with
    | true => exact c.execute fuel scope h.2.1
    | false => exact c.execute fuel scope h.2.2
  | .loop condition body, h => by
    simp only [Stmt.map, Treewalk.execute]
    exact c.whileTrue (c.evaluatesTrue scope h.1) (c.execute fuel scope h.2) fuel
  | .block body, h => by
    simp only [Stmt.map, Treewalk.execute]
    exact c.inBlock (fun inner => c.executeAll fuel inner h) scope

theorem executeAll (c : Congruence P f extra R) (fuel : Nat) (scope : ScopeId) :
    ∀ {stmts : List Stmt}, Stmt.EveryOf P stmts →
      R Unit (executeAll fuel scope stmts)
        (executeAll (fuel + extra) scope (Stmt.mapAll f stmts))
  | [], _ => by
    simp only [Stmt.mapAll, Treewalk.executeAll]
    exact c.pure ()
  | s :: rest, h => by
    simp only [Stmt.mapAll, Treewalk.executeAll]
    exact c.bind (c.execute fuel scope h.1) fun _ => c.executeAll fuel scope h.2

end

theorem interpret (c : Congruence P f extra R) (fuel : Nat) {stmts : List Stmt}
    (h : ∀ s ∈ stmts, s.Every P) :
    R Unit (interpret fuel stmts) (interpret (fuel + extra) (stmts.map (Stmt.map f))) := by
  rw [← Stmt.mapAll_eq_map]
  exact c.executeAll fuel Scopes.globals (Stmt.everyOf_iff.mpr h)

end Congruence

end Treewalk
