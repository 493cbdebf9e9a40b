import Treewalk.Proofs.Machine.Congruence
import Treewalk.Proofs.Scope

/-!
# Runs are balanced

A run that is not aborted leaves live the scopes that it found live, and an aborted one leaves them
below scopes of its own (`balanced_execute`).

`Machine.Reachable` are the machines that earlier runs may leave behind, aborted ones included;
their scopes are well-formed.
-/

namespace Treewalk

namespace Exec

variable {α β : Type}

def Balanced (x : Exec α) : Prop :=
  ∀ m : Machine, m.scopes.WellFormed →
    (x m).2.scopes.WellFormed ∧ m.scopes.Grows (x m).2.scopes ∧
      ((∀ a, (x m).1 ≠ .error (.abort a)) → m.scopes.Keeps (x m).2.scopes)

/-- What leaves the live scopes as they are, in any case. -/
theorem balanced_of_keeps {x : Exec α}
    (h : ∀ m : Machine, m.scopes.WellFormed →
      (x m).2.scopes.WellFormed ∧ m.scopes.Keeps (x m).2.scopes) : Balanced x :=
  fun m hm => ⟨(h m hm).1, (h m hm).2.grows, fun _ => (h m hm).2⟩

theorem balanced_of_scopes_eq {x : Exec α} (h : ∀ m : Machine, (x m).2.scopes = m.scopes) :
    Balanced x :=
  balanced_of_keeps fun m hm => by
    rw [h]
    exact ⟨hm, .refl _⟩

theorem balanced_pure (a : α) : Balanced (pure a) :=
  balanced_of_scopes_eq fun _ => rfl

theorem balanced_liftExcept (r : Except Stop α) : Balanced (liftExcept r) :=
  balanced_of_scopes_eq fun m => by rw [liftExcept_apply]

theorem Balanced.bind {x : Exec α} {f : α → Exec β} (hx : Balanced x)
    (hf : ∀ a, Balanced (f a)) : Balanced (x >>= f) := by
  intro m hm
  obtain ⟨hwf, hgrows, hkeeps⟩ := hx m hm
  rw [bind_apply]
  cases hr : x m with
  | mk r m' =>
    rw [hr] at hwf hgrows hkeeps
    cases r with
    | error stop =>
      refine ⟨hwf, hgrows, fun h => hkeeps fun a ha => h a ?_⟩
      cases ha
      rfl
    | ok a =>
      obtain ⟨hwf', hgrows', hkeeps'⟩ := hf a m' hwf
      exact ⟨hwf', hgrows.trans hgrows', fun h => (hkeeps (by simp)).trans (hkeeps' h)⟩

theorem balanced_get (scope : ScopeId) (name : Token) : Balanced (get scope name) :=
  balanced_of_scopes_eq fun _ => rfl

theorem balanced_print (value : Value) : Balanced (print value) :=
  balanced_of_scopes_eq fun _ => rfl

theorem balanced_define (scope : ScopeId) (name : Token) (value : Value) :
    Balanced (define scope name value) :=
  balanced_of_keeps fun _ hm => ⟨hm.define _ _ _, Scopes.keeps_define _ _ _ _⟩

theorem balanced_assign (scope : ScopeId) (name : Token) (value : Value) :
    Balanced (assign scope name value) := by
  apply balanced_of_keeps
  intro m hm
  unfold Exec.assign
  split
  · rename_i scopes h
    exact ⟨hm.assign h, Scopes.keeps_assign h⟩
  · exact ⟨hm, .refl _⟩

theorem Balanced.inBlock {body : ScopeId → Exec Unit} (h : ∀ inner, Balanced (body inner))
    (scope : ScopeId) : Balanced (inBlock scope body) := by
  intro m hm
  have hopened := Scopes.grows_enclose m.scopes scope
  obtain ⟨hwf, hgrows, hkeeps⟩ := h m.scopes.next (m.enter scope) (hm.enclose scope)
  rw [inBlock_apply]
  rcases hr : body m.scopes.next (m.enter scope) with ⟨r, m'⟩
  rw [hr] at hwf hgrows hkeeps
  rcases leave_cases m.scopes.next r m' with ⟨⟨a, rfl⟩, hleave⟩ | ⟨hne, hleave⟩
  · rw [hleave]
    exact ⟨hwf, hopened.trans hgrows, fun h => absurd rfl (h a)⟩
  · rw [hleave]
    have hkept := Scopes.keeps_of_discard hm hwf (hkeeps hne)
    exact ⟨hwf.discard _, hkept.grows, fun _ => hkept⟩

end Exec

open Exec

theorem balanced_congruence :
    Congruence (fun _ _ => True) id 0 fun _ x _ => Balanced x where
  pure := balanced_pure
  bind := Balanced.bind
  outOfFuel _ _ _ _ := balanced_of_scopes_eq fun _ => rfl
  inBlock := Balanced.inBlock
  get _ scope := balanced_get scope _
  assign _ scope value := balanced_assign scope _ value
  define _ scope value := balanced_define scope _ value
  print := balanced_print
  unary _ _ := balanced_liftExcept _
  binary _ _ _ := balanced_liftExcept _
  logical _ _ := balanced_liftExcept _

theorem Exec.Balanced.whileTrue {test : Exec Bool} {body : Exec Unit} (htest : Balanced test)
    (hbody : Balanced body) (rounds : Nat) : Balanced (whileTrue test body rounds) :=
  @Congruence.whileTrue _ _ _ _ balanced_congruence test test body body htest hbody rounds

theorem balanced_evaluate (scope : ScopeId) (e : Expr) : Balanced (evaluate scope e) :=
  balanced_congruence.evaluate scope (Expr.every_of_forall (fun _ _ => trivial) e)

theorem balanced_execute (fuel : Nat) (scope : ScopeId) (s : Stmt) :
    Balanced (execute fuel scope s) :=
  balanced_congruence.execute fuel scope (Stmt.every_of_forall (fun _ _ => trivial) s)

theorem balanced_executeAll (fuel : Nat) (scope : ScopeId) (stmts : List Stmt) :
    Balanced (executeAll fuel scope stmts) :=
  balanced_congruence.executeAll fuel scope (Stmt.everyOf_of_forall (fun _ _ => trivial) stmts)

/-! ## Machines between runs -/

/-- What earlier runs leave behind that came to an end, be it by an abort, and what is left when
their output has been taken. -/
inductive Machine.Reachable : Machine → Prop
  | initial : Reachable .initial
  | interpret {m : Machine} (h : Reachable m) (fuel : Nat) (stmts : List Stmt)
      (hend : (interpret fuel stmts m).1 ≠ .error (.abort .outOfFuel)) :
      Reachable (interpret fuel stmts m).2
  | takeOutput {m : Machine} (h : Reachable m) : Reachable m.takeOutput.2

theorem Machine.Reachable.wellFormed {m : Machine} (h : m.Reachable) : m.scopes.WellFormed := by
  induction h with
  | initial => exact Scopes.wellFormed_initial
  | interpret _ fuel stmts _ ih => exact (balanced_executeAll fuel Scopes.globals stmts _ ih).1
  | takeOutput _ ih => exact ih

end Treewalk
