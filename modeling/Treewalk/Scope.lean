import Treewalk.RuntimeError
import Treewalk.Scope.Bindings

/-!
# Scopes

Scopes are opened inside other scopes and dropped again. Each has an id that is never given
out twice, so an id that was dropped stays dead: it sees no binding and takes none. The scope
of the globals is always live.

A name is looked up along the chain of a scope: the scope itself, its parent, and so on,
up to the globals or to the first parent that is dead. Live scopes are kept the newest first,
and a parent is older than what was opened in it, so the chain is found in one pass.
-/

namespace Treewalk

abbrev ScopeId := Nat

/-- A live scope. -/
structure Frame where
  id : ScopeId
  parent : Option ScopeId
  bindings : Bindings
  deriving DecidableEq

structure Scopes where
  /-- The live scopes, the newest first. -/
  frames : List Frame
  /-- The id of the next scope to be opened. -/
  next : ScopeId
  deriving DecidableEq

namespace Scopes

def globals : ScopeId := 0

/-- Only the globals, without a binding. -/
def initial : Scopes :=
  ⟨[⟨globals, none, .empty⟩], globals + 1⟩

instance : Inhabited Scopes := ⟨initial⟩

/-- The count of live scopes. -/
def size (s : Scopes) : Nat :=
  s.frames.length

/-- The first frame of the given id, and from there on one parent after the other. -/
def chainIn : List Frame → ScopeId → List Frame
  | [], _ => []
  | f :: fs, id =>
    if f.id = id then
      match f.parent with
      | none => [f]
      | some parent => f :: chainIn fs parent
    else chainIn fs id

/-- The scopes in which a name is looked up from `id`, innermost first. -/
def chain (s : Scopes) (id : ScopeId) : List Frame :=
  chainIn s.frames id

/-- Opens a scope inside `parent`. -/
def enclose (s : Scopes) (parent : ScopeId) : ScopeId × Scopes :=
  (s.next, ⟨⟨s.next, some parent, .empty⟩ :: s.frames, s.next + 1⟩)

/-- Drops a scope; the globals stay. -/
def discard (s : Scopes) (id : ScopeId) : Scopes :=
  if id = globals then s else { s with frames := s.frames.filter fun f => f.id ≠ id }

/-- Binds a name in the scope itself, if that is live. -/
def define (s : Scopes) (id : ScopeId) (name : String) (value : Value) : Scopes :=
  { s with frames := s.frames.map fun f =>
      if f.id = id then { f with bindings := f.bindings.insert name value } else f }

/-- The value of the innermost binding of a name. -/
def get (s : Scopes) (id : ScopeId) (name : Token) : Except RuntimeError Value :=
  match (s.chain id).findSome? fun f => f.bindings.get? name.lexeme with
  | some value => .ok value
  | none => .error ⟨.undefinedVariable, name⟩

/-- Changes the innermost binding of a name. No scope comes to bind a new name. -/
def assign (s : Scopes) (id : ScopeId) (name : Token) (value : Value) :
    Except RuntimeError Scopes :=
  match (s.chain id).find? fun f => f.bindings.binds name.lexeme with
  | some owner => .ok (s.define owner.id name.lexeme value)
  | none => .error ⟨.undefinedVariable, name⟩

/-! ## Chains -/

/-- A chain consists of live scopes. -/
theorem mem_of_mem_chainIn {f : Frame} {frames : List Frame} {id : ScopeId}
    (h : f ∈ chainIn frames id) : f ∈ frames := by
  induction frames generalizing id with
  | nil => exact absurd h List.not_mem_nil
  | cons g gs ih =>
    unfold chainIn at h
    split at h
    · split at h
      · simp_all
      · rcases List.mem_cons.mp h with rfl | h
        · exact List.mem_cons_self
        · exact List.mem_cons_of_mem _ (ih h)
    · exact List.mem_cons_of_mem _ (ih h)

/-- A chain has at most as many scopes as are live. -/
theorem length_chainIn_le (frames : List Frame) (id : ScopeId) :
    (chainIn frames id).length ≤ frames.length := by
  induction frames generalizing id with
  | nil => exact Nat.le_refl _
  | cons g gs ih =>
    unfold chainIn
    split
    · split
      · simp
      · simpa using ih _
    · exact Nat.le_succ_of_le (ih id)

/-- Nothing is seen from a dead scope. -/
theorem chainIn_eq_nil {frames : List Frame} {id : ScopeId} (h : ∀ f ∈ frames, f.id ≠ id) :
    chainIn frames id = [] := by
  induction frames with
  | nil => rfl
  | cons g gs ih =>
    rw [chainIn, if_neg (h g List.mem_cons_self)]
    exact ih fun f hf => h f (List.mem_cons_of_mem _ hf)

end Scopes

end Treewalk
