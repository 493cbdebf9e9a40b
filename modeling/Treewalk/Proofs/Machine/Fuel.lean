import Treewalk.Proofs.Machine.Congruence

/-!
# Runs that do not use up their fuel

With more fuel, a run that ended ends in the same way: `settles_execute`, `settles_executeAll` and
`interpret_of_le`. So it is the run, not its fuel, that has an outcome.
-/

namespace Treewalk

namespace Exec

/-- The second computation is like the first wherever that has had enough fuel. -/
def Settles {α : Type} (x y : Exec α) : Prop :=
  ∀ m, (x m).1 ≠ .error (.abort .outOfFuel) → y m = x m

theorem Settles.refl {α : Type} (x : Exec α) : Settles x x :=
  fun _ _ => rfl

theorem Settles.bind {α β : Type} {x y : Exec α} {f g : α → Exec β} (hx : Settles x y)
    (hf : ∀ a, Settles (f a) (g a)) : Settles (x >>= f) (y >>= g) := by
  intro m hend
  rw [bind_apply] at hend ⊢
  rw [bind_apply]
  rcases hr : x m with ⟨_ | a, m'⟩
  · rw [hr] at hend
    rw [hx m (by simpa [hr] using hend), hr]
  · rw [hr] at hend
    rw [hx m (by simp [hr]), hr]
    exact hf a m' hend

theorem Settles.inBlock {body body' : ScopeId → Exec Unit}
    (h : ∀ inner, Settles (body inner) (body' inner)) (scope : ScopeId) :
    Settles (inBlock scope body) (inBlock scope body') := by
  intro m hend
  rw [inBlock_apply, leave_fst] at hend
  have hbody := h m.scopes.next (m.enter scope) hend
  rw [inBlock_apply, inBlock_apply, hbody]

theorem settles_congruence (extra : Nat) :
    Congruence (fun _ _ => True) id extra fun _ => Settles where
  pure _ := .refl _
  bind := Settles.bind
  outOfFuel _ _ _ _ := fun _ hend => absurd rfl hend
  inBlock := Settles.inBlock
  get _ _ := .refl _
  assign _ _ _ := .refl _
  define _ _ _ := .refl _
  print _ := .refl _
  unary _ _ := .refl _
  binary _ _ _ := .refl _
  logical _ _ := .refl _

theorem Settles.run {α : Type} {x y : Exec α} (h : Settles x y) {m m' : Machine}
    {r : Except Stop α} (hrun : x m = (r, m')) (hend : r ≠ .error (.abort .outOfFuel)) :
    y m = (r, m') := by
  rw [h m (by rwa [hrun]), hrun]

end Exec

open Exec

variable {fuel fuel' : Nat} {scope : ScopeId}

theorem settles_execute (hle : fuel ≤ fuel') (scope : ScopeId) (s : Stmt) :
    Settles (execute fuel scope s) (execute fuel' scope s) := by
  obtain ⟨extra, rfl⟩ := Nat.exists_eq_add_of_le hle
  have h := (settles_congruence extra).execute fuel scope
    (Stmt.every_of_forall (fun _ _ => trivial) s)
  rwa [Stmt.map_id] at h

theorem settles_executeAll (hle : fuel ≤ fuel') (scope : ScopeId) (stmts : List Stmt) :
    Settles (executeAll fuel scope stmts) (executeAll fuel' scope stmts) := by
  obtain ⟨extra, rfl⟩ := Nat.exists_eq_add_of_le hle
  have h := (settles_congruence extra).executeAll fuel scope
    (Stmt.everyOf_of_forall (fun _ _ => trivial) stmts)
  rwa [Stmt.mapAll_id] at h

/-- A loop, whose rounds are bounded apart from the fuel of its body. -/
theorem settles_whileTrue {rounds rounds' : Nat} (hle : fuel ≤ fuel') (hrounds : rounds ≤ rounds')
    (test : Exec Bool) (body : Stmt) :
    Settles (whileTrue test (execute fuel scope body) rounds)
      (whileTrue test (execute fuel' scope body) rounds') := by
  obtain ⟨extra, rfl⟩ := Nat.exists_eq_add_of_le hrounds
  exact (settles_congruence extra).whileTrue (.refl test) (settles_execute hle scope body) rounds

theorem interpret_of_le {stmts : List Stmt} {m m' : Machine} {r : Except Stop Unit}
    (hrun : interpret fuel stmts m = (r, m')) (hend : r ≠ .error (.abort .outOfFuel))
    (hle : fuel ≤ fuel') : interpret fuel' stmts m = (r, m') :=
  (settles_executeAll hle Scopes.globals stmts).run hrun hend

end Treewalk
