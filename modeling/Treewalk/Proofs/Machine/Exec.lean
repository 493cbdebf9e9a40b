import Treewalk.Machine.Execute

/-!
# Computations on the machine

What the ways to build an `Exec` do to a machine, as equations that end in the result of the
first part. They open `execute` and `evaluate` wherever something is proved about them. A block is
its statements between `Machine.enter` and `Exec.leave` (`inBlock_apply`).
-/

namespace Treewalk

/-- The machine with a new scope inside `scope`, whose id is `m.scopes.next`. -/
def Machine.enter (m : Machine) (scope : ScopeId) : Machine :=
  { m with scopes := (m.scopes.enclose scope).2 }

namespace Exec

variable {α β : Type}

@[simp] theorem pure_apply (a : α) (m : Machine) : (pure a : Exec α) m = (.ok a, m) := rfl

theorem bind_apply (x : Exec α) (f : α → Exec β) (m : Machine) :
    (x >>= f) m =
      match x m with
      | (.ok a, m') => f a m'
      | (.error stop, m') => (.error stop, m') := by
  change (ExceptT.bindCont f (x m).1) (x m).2 = _
  rcases x m with ⟨_ | _, _⟩ <;> rfl

theorem map_apply (f : α → β) (x : Exec α) (m : Machine) :
    (f <$> x) m = ((x m).1.map f, (x m).2) := by
  rw [map_eq_pure_bind, bind_apply]
  rcases x m with ⟨_ | _, _⟩ <;> rfl

@[simp] theorem liftExcept_apply (r : Except Stop α) (m : Machine) :
    (liftExcept r : Exec α) m = (r, m) := by
  cases r <;> rfl

/-- A round of a loop. -/
theorem whileTrue_succ (test : Exec Bool) (body : Exec Unit) (fuel : Nat) :
    whileTrue test body (fuel + 1) =
      test >>= fun again =>
        if again then body >>= fun _ => whileTrue test body fuel else pure () := by
  funext m
  rw [bind_apply, whileTrue]
  rcases test m with ⟨_ | _ | _, m'⟩
  · rfl
  · rfl
  · simp only [if_true]
    rw [bind_apply]
    rcases body m' with ⟨_ | _, _⟩ <;> rfl

/-! ## Blocks -/

/-- How a block is left: its scope is dropped, except after an abort. -/
def leave (inner : ScopeId) : Except Stop Unit × Machine → Except Stop Unit × Machine
  | (.error (.abort a), m) => (.error (.abort a), m)
  | (r, m) => (r, { m with scopes := m.scopes.discard inner })

theorem inBlock_apply (scope : ScopeId) (body : ScopeId → Exec Unit) (m : Machine) :
    inBlock scope body m = leave m.scopes.next (body m.scopes.next (m.enter scope)) := rfl

theorem leave_fst (inner : ScopeId) (o : Except Stop Unit × Machine) :
    (leave inner o).1 = o.1 := by
  rcases o with ⟨(_ | _) | _, m⟩ <;> rfl

/-- The scope of the block is dropped or, after an abort, left where it is. -/
theorem leave_cases (inner : ScopeId) (r : Except Stop Unit) (m : Machine) :
    ((∃ a, r = .error (.abort a)) ∧ leave inner (r, m) = (r, m)) ∨
      ((∀ a, r ≠ .error (.abort a)) ∧
        leave inner (r, m) = (r, { m with scopes := m.scopes.discard inner })) := by
  rcases r with (e | a) | _
  · exact .inr ⟨by simp, rfl⟩
  · exact .inl ⟨⟨a, rfl⟩, rfl⟩
  · exact .inr ⟨by simp, rfl⟩

end Exec

end Treewalk
