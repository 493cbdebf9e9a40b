import Treewalk.Proofs.Machine.Balanced
import Treewalk.Proofs.Scope.Lookup

/-!
# How far a run reaches

A run in a scope opens scopes and drops them again, binds names in the scope itself, and assigns to
names along the chain of the scope. `Scopes.Confined scope names s s'` says that nothing more has
been done on the way from `s` to `s'`, where `names` are those that the scope may have gained. A
block gains none, since it binds its names in a scope of its own (`Confined.leave`).

`Stmt.declared` are the names that a statement can bind in the scope in which it runs, and
`confined_execute` says that it is confined to them. `execute_confined` is what comes of it on the
machines at which statements begin (`Machine.Visited`).
-/

namespace Treewalk

namespace Scopes

variable {s s' s'' : Scopes} {id scope : ScopeId} {name : String} {names : List String}

/-! ## Scopes on a chain -/

/-- The scope `id` is on the chain from `scope` out. -/
def OnChain (s : Scopes) (scope id : ScopeId) : Prop :=
  ∃ f ∈ s.chain scope, f.id = id

/-- The ids on a chain depend on the ids and parents of the frames alone. -/
theorem map_id_chainIn {frames frames' : List Frame}
    (h : frames'.map (fun f => (f.id, f.parent)) = frames.map fun f => (f.id, f.parent))
    (id : ScopeId) : (chainIn frames' id).map Frame.id = (chainIn frames id).map Frame.id := by
  induction frames generalizing frames' id with
  | nil =>
    rw [List.map_nil, List.map_eq_nil_iff] at h
    rw [h]
  | cons f fs ih =>
    obtain ⟨g, gs, rfl, hg, hgs⟩ := List.map_eq_cons_iff.mp h
    obtain ⟨hid, hparent⟩ := Prod.mk.inj hg
    by_cases hf : f.id = id
    · rw [chainIn_cons_of_eq hf, chainIn_cons_of_eq (hid.trans hf), hparent, List.map_cons,
        List.map_cons, hid]
      cases f.parent with
      | none => rfl
      | some parent => rw [Option.elim_some, Option.elim_some, ih hgs]
    · rw [chainIn_cons_of_ne hf, chainIn_cons_of_ne (hid ▸ hf), ih hgs]

theorem map_id_chain (h : s'.shape = s.shape) (id : ScopeId) :
    (s'.chain id).map Frame.id = (s.chain id).map Frame.id :=
  map_id_chainIn h id

theorem onChain_iff_of_shape (h : s'.shape = s.shape) :
    s'.OnChain scope id ↔ s.OnChain scope id := by
  have hids := map_id_chain h scope
  simp only [OnChain, ← List.mem_map, hids]

theorem exists_mem_chainIn {frames : List Frame} (h : ∃ f ∈ frames, f.id = id) :
    ∃ f ∈ chainIn frames id, f.id = id := by
  induction frames with
  | nil => exact absurd h (by simp)
  | cons g gs ih =>
    by_cases hg : g.id = id
    · rw [chainIn_cons_of_eq hg]
      exact ⟨g, List.mem_cons_self, hg⟩
    · rw [chainIn_cons_of_ne hg]
      exact ih ((List.exists_mem_cons_iff ..).mp h |>.resolve_left hg)

theorem onChain_self (h : s.Live id) : s.OnChain id id :=
  exists_mem_chainIn h

theorem onChain_enclose :
    (s.enclose scope).2.OnChain s.next id ↔ id = s.next ∨ s.OnChain scope id := by
  have hchain : (s.enclose scope).2.chain s.next = ⟨s.next, some scope, .empty⟩ :: s.chain scope :=
    chainIn_cons_of_eq rfl
  simp only [OnChain, hchain, List.exists_mem_cons_iff, eq_comm]

/-! ## Changes that stay in place -/

/-- What may become of the scopes when something is done in `scope` that can bind `names` there. -/
structure Confined (scope : ScopeId) (names : List String) (s s' : Scopes) : Prop where
  /-- The same scopes are live. -/
  keeps : Keeps s s'
  others : ∀ id, id ≠ scope → ∀ name, s'.Binds id name ↔ s.Binds id name
  kept : ∀ name, s.Binds scope name → s'.Binds scope name
  gained : ∀ name, s'.Binds scope name → s.Binds scope name ∨ name ∈ names
  /-- No value changes but along the chain. -/
  values : ∀ id, ¬ s.OnChain scope id → ∀ name, s'.binding? id name = s.binding? id name

theorem Confined.refl (s : Scopes) : Confined scope names s s where
  keeps := .refl s
  others _ _ _ := Iff.rfl
  kept _ h := h
  gained _ h := .inl h
  values _ _ _ := rfl

theorem Confined.trans (h : Confined scope names s s') (h' : Confined scope names s' s'') :
    Confined scope names s s'' where
  keeps := h.keeps.trans h'.keeps
  others id hid name := (h'.others id hid name).trans (h.others id hid name)
  kept name hbinds := h'.kept name (h.kept name hbinds)
  gained name hbinds := (h'.gained name hbinds).elim (h.gained name) .inr
  values id hoff name := by
    rw [h'.values id (mt (onChain_iff_of_shape h.keeps.shape).mp hoff), h.values id hoff]

theorem Confined.mono {names' : List String} (h : Confined scope names s s')
    (hsub : names ⊆ names') : Confined scope names' s s' :=
  { h with gained := fun name hbinds => (h.gained name hbinds).imp_right fun hname => hsub hname }

/-- Where no name can be gained, every scope binds the names that it did. -/
theorem Confined.binds_iff (h : Confined scope [] s s') (id : ScopeId) (name : String) :
    s'.Binds id name ↔ s.Binds id name := by
  by_cases hid : id = scope
  · subst hid
    exact ⟨fun hb => (h.gained name hb).resolve_right List.not_mem_nil, h.kept name⟩
  · exact h.others id hid name

theorem confined_of_binds (hkeeps : Keeps s s')
    (hbinds : ∀ id name, s'.Binds id name ↔ s.Binds id name)
    (hvalues : ∀ id, ¬ s.OnChain scope id → ∀ name, s'.binding? id name = s.binding? id name) :
    Confined scope names s s' where
  keeps := hkeeps
  others id _ name := hbinds id name
  kept name := (hbinds scope name).mpr
  gained name h := .inl ((hbinds scope name).mp h)
  values := hvalues

/-- Binding a name in the scope itself, whether that is live or not. -/
theorem confined_define (s : Scopes) (scope : ScopeId) (name : String) (value : Value) :
    Confined scope [name] s (s.define scope name value) := by
  by_cases hlive : s.Live scope
  · have hbinding : ∀ id key, (s.define scope name value).binding? id key =
        if id = scope ∧ name = key then some value else s.binding? id key :=
      fun id key => binding?_define s id scope name key value hlive
    refine ⟨keeps_define s scope name value, ?_, ?_, ?_, ?_⟩
    · intro id hid key
      rw [Binds, hbinding, if_neg fun h => hid h.1, Binds]
    · intro key hbinds
      rw [Binds, hbinding]
      split
      · rfl
      · exact hbinds
    · intro key hbinds
      by_cases hkey : name = key
      · exact .inr (List.mem_singleton.mpr hkey.symm)
      · rw [Binds, hbinding, if_neg fun h => hkey h.2] at hbinds
        exact .inl hbinds
    · intro id hoff key
      have hid : id ≠ scope := by
        rintro rfl
        exact hoff (onChain_self hlive)
      rw [hbinding, if_neg fun h => hid h.1]
  · rw [define_of_not_live hlive]
    exact .refl s

theorem confined_assign (hwf : s.WellFormed) {token : Token} {value : Value}
    (h : s.assign scope token value = .ok s') : Confined scope [] s s' := by
  unfold assign at h
  split at h
  · rename_i f hfind
    cases h
    have hmem : f ∈ s.chain scope := List.mem_of_find?_eq_some hfind
    have hbound : f.bindings.binds token.lexeme = true := by simpa using List.find?_some hfind
    have hbinds : s.Binds f.id token.lexeme := by
      rw [Binds, binding?_of_mem hwf (mem_of_mem_chainIn hmem)]
      exact hbound
    apply confined_of_binds (keeps_define ..) (binds_define_iff hbinds value)
    intro id hoff name
    have hid : id ≠ f.id := fun h => hoff ⟨f, hmem, h.symm⟩
    rw [binding?_define s id f.id _ _ _ (live_of_binds hbinds), if_neg fun h => hid h.1]
  · cases h

/-- What is done in a scope that was opened inside `scope` is gone when that is dropped, except for
what it has assigned on the chain of `scope`. -/
theorem Confined.leave (h : Confined s.next names (s.enclose scope).2 s') (hwf : s.WellFormed)
    (hwf' : s'.WellFormed) : Confined scope [] s (s'.discard s.next) := by
  have hglobals : s.next ≠ globals := Nat.ne_of_gt hwf.globals_lt_next
  have hfresh : ¬ s.Live s.next := by
    rintro ⟨f, hf, hid⟩
    exact Nat.ne_of_lt (hwf.fresh f hf) hid
  apply confined_of_binds (keeps_of_discard hwf hwf' h.keeps)
  · intro id name
    rw [Binds, binding?_discard hglobals]
    by_cases hid : id = s.next
    · rw [if_pos hid, hid, Binds, binding?_of_not_live hfresh]
    · have hothers := h.others id hid name
      rw [if_neg hid, ← Binds, hothers, Binds, binding?_enclose hwf, Binds]
  · intro id hoff name
    rw [binding?_discard hglobals]
    by_cases hid : id = s.next
    · rw [if_pos hid, hid, binding?_of_not_live hfresh]
    · have hoff' : ¬ (s.enclose scope).2.OnChain s.next id := by
        rw [onChain_enclose]
        exact not_or_intro hid hoff
      rw [if_neg hid, h.values id hoff', binding?_enclose hwf]

end Scopes

/-! ## Computations -/

namespace Exec

variable {α β : Type} {scope : ScopeId} {names : List String}

/-- Unless it is aborted, the computation does nothing but what is done in `scope`. -/
def Confined (scope : ScopeId) (names : List String) (x : Exec α) : Prop :=
  ∀ m : Machine, m.scopes.WellFormed → (∀ a, (x m).1 ≠ .error (.abort a)) →
    (x m).2.scopes.WellFormed ∧ Scopes.Confined scope names m.scopes (x m).2.scopes

theorem Confined.mono {names' : List String} {x : Exec α} (h : Confined scope names x)
    (hsub : names ⊆ names') : Confined scope names' x :=
  fun m hm hend => ⟨(h m hm hend).1, (h m hm hend).2.mono hsub⟩

theorem confined_of_scopes_eq {x : Exec α} (h : ∀ m : Machine, (x m).2.scopes = m.scopes) :
    Confined scope names x := by
  intro m hm _
  rw [h]
  exact ⟨hm, .refl _⟩

theorem confined_pure (a : α) : Confined scope names (pure a) :=
  confined_of_scopes_eq fun _ => rfl

theorem confined_liftExcept (r : Except Stop α) : Confined scope names (liftExcept r) :=
  confined_of_scopes_eq fun m => by rw [liftExcept_apply]

theorem Confined.bind {x : Exec α} {f : α → Exec β} (hx : Confined scope names x)
    (hf : ∀ a, Confined scope names (f a)) : Confined scope names (x >>= f) := by
  intro m hm hend
  rw [bind_apply] at hend ⊢
  rcases hr : x m with ⟨stop | a, m'⟩
  · have h := hx m hm fun a ha => by
      rw [hr] at ha hend
      exact hend a (by rw [Except.error.inj ha])
    rwa [hr] at h
  · rw [hr] at hend
    obtain ⟨hwf, hconfined⟩ := hx m hm (by simp [hr])
    rw [hr] at hwf hconfined
    obtain ⟨hwf', hconfined'⟩ := hf a m' hwf hend
    exact ⟨hwf', hconfined.trans hconfined'⟩

theorem confined_define (scope : ScopeId) (name : Token) (value : Value) :
    Confined scope [name.lexeme] (define scope name value) :=
  fun _ hm _ => ⟨hm.define _ _ _, Scopes.confined_define _ _ _ _⟩

theorem confined_assign (scope : ScopeId) (name : Token) (value : Value) :
    Confined scope [] (assign scope name value) := by
  intro m hm _
  unfold Exec.assign
  split
  · rename_i scopes h
    exact ⟨hm.assign h, Scopes.confined_assign hm h⟩
  · exact ⟨hm, .refl _⟩

theorem Confined.whileTrue {test : Exec Bool} {body : Exec Unit}
    (htest : Confined scope names test) (hbody : Confined scope names body) (rounds : Nat) :
    Confined scope names (whileTrue test body rounds) := by
  induction rounds with
  | zero => exact fun _ _ hend => absurd rfl (hend .outOfFuel)
  | succ rounds ih =>
    rw [whileTrue_succ]
    apply htest.bind
    intro again
    cases again with
    | true => exact hbody.bind fun _ => ih
    | false => exact confined_pure ()

/-- Whatever names are bound inside a block, none is gained outside. -/
theorem Confined.inBlock {body : ScopeId → Exec Unit}
    (h : ∀ inner, Confined inner names (body inner)) (scope : ScopeId) :
    Confined scope [] (inBlock scope body) := by
  intro m hm hend
  rw [inBlock_apply] at hend ⊢
  rw [leave_fst] at hend
  obtain ⟨hwf, hconfined⟩ := h m.scopes.next (m.enter scope) (hm.enclose scope) hend
  rcases hr : body m.scopes.next (m.enter scope) with ⟨r, m'⟩
  rw [hr] at hwf hconfined hend
  rcases leave_cases m.scopes.next r m' with ⟨⟨a, rfl⟩, -⟩ | ⟨-, hleave⟩
  · exact absurd rfl (hend a)
  · rw [hleave]
    exact ⟨hwf.discard _, hconfined.leave hm hwf⟩

end Exec

/-! ## Statements -/

/-- The names that a statement can bind in the scope in which it runs. -/
def Stmt.declared : Stmt → List String
  | .declare name _ => [name.lexeme]
  | .ifThen _ yes => yes.declared
  | .ifThenElse _ yes no => yes.declared ++ no.declared
  | .loop _ body => body.declared
  | .block _ | .expression _ | .print _ => []

open Exec

theorem confined_evaluate (scope : ScopeId) (e : Expr) : Confined scope [] (evaluate scope e) := by
  induction e with
  | literal value => exact confined_pure value
  | grouping _ ih => exact ih
  | «variable» => exact confined_of_scopes_eq fun _ => rfl
  | assign name _ ih =>
    apply ih.bind
    intro value
    exact (confined_assign scope name value).bind fun _ => confined_pure value
  | unary _ _ ih => exact ih.bind fun _ => confined_liftExcept _
  | binary _ _ _ ihLeft ihRight =>
    exact ihLeft.bind fun _ => ihRight.bind fun _ => confined_liftExcept _
  | logical _ _ _ ihLeft ihRight =>
    apply ihLeft.bind
    intro x
    apply (confined_liftExcept _).bind
    intro decided
    cases decided with
    | true => exact confined_pure x
    | false => exact ihRight

theorem confined_evaluatesTrue (scope : ScopeId) (e : Expr) :
    Confined scope [] (evaluatesTrue scope e) := by
  rw [evaluatesTrue, map_eq_pure_bind]
  exact (confined_evaluate scope e).bind fun _ => confined_pure _

mutual

theorem confined_execute (fuel : Nat) (scope : ScopeId) :
    ∀ s : Stmt, Confined scope s.declared (execute fuel scope s)
  | .expression e => by
    rw [execute]
    exact (confined_evaluate scope e).bind fun _ => confined_pure ()
  | .print e => by
    rw [execute]
    exact (confined_evaluate scope e).bind fun _ => confined_of_scopes_eq fun _ => rfl
  | .declare name none => by
    rw [execute]
    exact confined_define scope name .nil
  | .declare name (some e) => by
    rw [execute]
    exact ((confined_evaluate scope e).mono (List.nil_subset _)).bind (confined_define scope name)
  | .ifThen condition yes => by
    rw [execute]
    apply ((confined_evaluatesTrue scope condition).mono (List.nil_subset _)).bind
    intro test
    cases test with
    | true => exact confined_execute fuel scope yes
    | false => exact confined_pure ()
  | .ifThenElse condition yes no => by
    rw [execute]
    apply ((confined_evaluatesTrue scope condition).mono (List.nil_subset _)).bind
    intro test
    cases test with
    | true => exact (confined_execute fuel scope yes).mono (List.subset_append_left _ _)
    | false => exact (confined_execute fuel scope no).mono (List.subset_append_right _ _)
  | .loop condition body => by
    rw [execute]
    have htest := (confined_evaluatesTrue scope condition).mono (List.nil_subset body.declared)
    exact htest.whileTrue (confined_execute fuel scope body) fuel
  | .block body => by
    rw [execute]
    exact Confined.inBlock (fun inner => confined_executeAll fuel inner body) scope

theorem confined_executeAll (fuel : Nat) (scope : ScopeId) :
    ∀ stmts : List Stmt, Confined scope (stmts.flatMap Stmt.declared) (executeAll fuel scope stmts)
  | [] => by
    rw [executeAll]
    exact confined_pure ()
  | s :: rest => by
    rw [executeAll, List.flatMap_cons]
    apply ((confined_execute fuel scope s).mono (List.subset_append_left _ _)).bind
    intro _
    exact (confined_executeAll fuel scope rest).mono (List.subset_append_right _ _)

end

/-! ## Machines on the way -/

/-- What a run may find where it begins with a statement, in blocks of any depth. -/
inductive Machine.Visited : Machine → Prop
  | between {m : Machine} (h : m.Reachable) : Visited m
  | enter {m : Machine} (h : Visited m) {scope : ScopeId} (hlive : m.scopes.Live scope) :
      Visited (m.enter scope)
  | execute {m : Machine} (h : Visited m) {scope : ScopeId} (hlive : m.scopes.Live scope)
      (fuel : Nat) (s : Stmt) : Visited (execute fuel scope s m).2

theorem Machine.Visited.wellFormed {m : Machine} (h : m.Visited) : m.scopes.WellFormed := by
  induction h with
  | between h => exact h.wellFormed
  | @enter _ _ scope _ ih => exact ih.enclose scope
  | @execute _ _ scope _ fuel s ih => exact (balanced_execute fuel scope s _ ih).1

/-- A run in any scope that succeeds or comes to a run-time error leaves the same scopes live. The
others bind the names that they did, and the scope itself gains at most names that are declared
outside of any block of the statement: none by a block, and none by any expression, whatever it
assigns to. The scopes that are not on its chain keep all values. -/
theorem execute_confined {m : Machine} (hm : m.Visited) (scope : ScopeId) :
    (∀ (fuel : Nat) (s : Stmt) (r : Except Stop Unit) (m' : Machine),
      execute fuel scope s m = (r, m') → (∀ a, r ≠ .error (.abort a)) →
        (∀ id, m'.scopes.Live id ↔ m.scopes.Live id) ∧
        (∀ id, id ≠ scope → ∀ name, m'.scopes.Binds id name ↔ m.scopes.Binds id name) ∧
        (∀ name, m.scopes.Binds scope name → m'.scopes.Binds scope name) ∧
        (∀ name, m'.scopes.Binds scope name →
          m.scopes.Binds scope name ∨ name ∈ s.declared) ∧
        (∀ body, s = .block body →
          ∀ name, m'.scopes.Binds scope name ↔ m.scopes.Binds scope name) ∧
        ∀ id, ¬ m.scopes.OnChain scope id →
          ∀ name, m'.scopes.binding? id name = m.scopes.binding? id name) ∧
    ∀ (e : Expr) (r : Except Stop Value) (m' : Machine),
      evaluate scope e m = (r, m') → (∀ a, r ≠ .error (.abort a)) →
        ∀ id name, m'.scopes.Binds id name ↔ m.scopes.Binds id name := by
  constructor
  · intro fuel s r m' hrun hend
    have h := (confined_execute fuel scope s m hm.wellFormed (by rwa [hrun])).2
    rw [hrun] at h
    refine ⟨fun id => ?_, h.others, h.kept, h.gained, ?_, h.values⟩
    · rw [Scopes.live_iff, h.keeps.shape, ← Scopes.live_iff]
    · rintro body rfl
      exact h.binds_iff scope
  · intro e r m' hrun hend
    have h := (confined_evaluate scope e m hm.wellFormed (by rwa [hrun])).2
    rw [hrun] at h
    exact h.binds_iff

/-- A block that has bound a name and assigned to another leaves no trace of its own name, though an
error ends it. -/
theorem failed_block_binds_nothing :
    let a : Token := ⟨.identifier, "a", 1⟩
    let b : Token := ⟨.identifier, "b", 2⟩
    let c : Token := ⟨.identifier, "c", 2⟩
    let m := (interpret 1 [.declare a none] .initial).2
    let block : Stmt := .block
      [.declare b none, .expression (.assign a (.literal (.bool true))), .print (.variable c)]
    m.Reachable ∧ ∃ m', execute 1 Scopes.globals block m =
        (.error (.error ⟨.undefinedVariable, c⟩), m') ∧
      m'.scopes.binding? Scopes.globals "a" = some (.bool true) ∧
      (∀ id, m'.scopes.Live id ↔ m.scopes.Live id) ∧
      ∀ name, m'.scopes.Binds Scopes.globals name ↔ m.scopes.Binds Scopes.globals name := by
  intro a b c m block
  have hm : m.Reachable := Machine.Reachable.initial.interpret 1 [.declare a none] (nomatch ·)
  have hrun : execute 1 Scopes.globals block m = (.error (.error ⟨.undefinedVariable, c⟩),
      (execute 1 Scopes.globals block m).2) := rfl
  obtain ⟨hlive, -, -, -, hblock, -⟩ :=
    (execute_confined (.between hm) Scopes.globals).1 1 block _ _ hrun (by simp)
  exact ⟨hm, _, hrun, rfl, hlive, hblock _ rfl⟩

end Treewalk
