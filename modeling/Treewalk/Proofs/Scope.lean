import Treewalk.Scope

/-!
# Live scopes

A list of live scopes is well-formed if newer ones have greater ids, all ids have been given out,
and the oldest one is that of the globals (`WellFormed`).

Two relations say what a part of a run does to the scopes. What counts for them is the `shape`, the
ids and parents of the live scopes, for bindings may change at any time.

* `Keeps s s'`: the same scopes are live.
* `Grows s s'`: the scopes that were live still are, below newer ones. This is all that holds behind
  an abort, which drops no scope.

`chain_enclosed` says that the chain of a scope just opened is that scope before the chain of its
parent, however much has been done since then; `chain_discard` that dropping it changes no other
chain.
-/

namespace Treewalk.Scopes

variable {s s' s'' : Scopes} {frames : List Frame} {id : ScopeId}

/-! ## Chains -/

theorem chainIn_cons_of_eq {f : Frame} (h : f.id = id) :
    chainIn (f :: frames) id = f :: f.parent.elim [] (chainIn frames) := by
  rw [chainIn, if_pos h]
  cases f.parent <;> rfl

theorem chainIn_cons_of_ne {f : Frame} (h : f.id ≠ id) :
    chainIn (f :: frames) id = chainIn frames id := by
  rw [chainIn, if_neg h]

theorem chainIn_sublist (frames : List Frame) (id : ScopeId) :
    (chainIn frames id).Sublist frames := by
  induction frames generalizing id with
  | nil => exact .slnil
  | cons f fs ih =>
    by_cases hid : f.id = id
    · rw [chainIn_cons_of_eq hid]
      cases f.parent with
      | none => exact (List.nil_sublist fs).cons_cons f
      | some parent => exact (ih parent).cons_cons f
    · rw [chainIn_cons_of_ne hid]
      exact (ih id).cons f

/-- A chain begins with the scope that was asked for. -/
theorem id_of_head_chainIn {f : Frame} (h : (chainIn frames id).head? = some f) : f.id = id := by
  induction frames with
  | nil => cases h
  | cons g gs ih =>
    by_cases hid : g.id = id
    · rw [chainIn_cons_of_eq hid] at h
      cases h
      exact hid
    · rw [chainIn_cons_of_ne hid] at h
      exact ih h

theorem chainIn_append_of_ne {newer : List Frame} (h : ∀ f ∈ newer, f.id ≠ id) :
    chainIn (newer ++ frames) id = chainIn frames id := by
  induction newer with
  | nil => rfl
  | cons f newer ih =>
    rw [List.cons_append, chainIn_cons_of_ne (h f List.mem_cons_self)]
    exact ih fun g hg => h g (List.mem_cons_of_mem f hg)

/-- Changing frames but not their ids and parents changes the frames of a chain. -/
theorem chainIn_map {u : Frame → Frame} (hid : ∀ f, (u f).id = f.id)
    (hparent : ∀ f, (u f).parent = f.parent) (frames : List Frame) (id : ScopeId) :
    chainIn (frames.map u) id = (chainIn frames id).map u := by
  induction frames generalizing id with
  | nil => rfl
  | cons f fs ih =>
    rw [List.map_cons]
    by_cases h : f.id = id
    · rw [chainIn_cons_of_eq h, chainIn_cons_of_eq ((hid f).trans h), hparent, List.map_cons]
      cases f.parent with
      | none => rfl
      | some parent => rw [Option.elim_some, Option.elim_some, ih]
    · rw [chainIn_cons_of_ne h, chainIn_cons_of_ne (fun h' => h ((hid f).symm.trans h')), ih]

/-- Dropping a scope changes no chain in which it does not stand. -/
theorem chainIn_filter {dropped : ScopeId} (h : ∀ f ∈ chainIn frames id, f.id ≠ dropped) :
    chainIn (frames.filter fun f => f.id ≠ dropped) id = chainIn frames id := by
  induction frames generalizing id with
  | nil => rfl
  | cons f fs ih =>
    by_cases hid : f.id = id
    · rw [chainIn_cons_of_eq hid] at h ⊢
      rw [List.filter_cons_of_pos (by simpa using h f List.mem_cons_self),
        chainIn_cons_of_eq hid]
      cases hparent : f.parent with
      | none => rfl
      | some parent =>
        rw [hparent] at h
        rw [Option.elim_some, Option.elim_some,
          ih fun g hg => h g (List.mem_cons_of_mem f hg)]
    · rw [chainIn_cons_of_ne hid] at h ⊢
      by_cases hf : f.id = dropped
      · rw [List.filter_cons_of_neg (by simpa using hf)]
        exact ih h
      · rw [List.filter_cons_of_pos (by simpa using hf), chainIn_cons_of_ne hid]
        exact ih h

theorem id_le_of_mem_chainIn (hsorted : frames.Pairwise fun f g => g.id < f.id) {f : Frame}
    (h : f ∈ chainIn frames id) : f.id ≤ id := by
  induction frames generalizing id with
  | nil => cases h
  | cons g gs ih =>
    obtain ⟨hg, hgs⟩ := List.pairwise_cons.mp hsorted
    by_cases hid : g.id = id
    · rw [chainIn_cons_of_eq hid] at h
      rcases List.mem_cons.mp h with rfl | h
      · exact Nat.le_of_eq hid
      · cases hparent : g.parent with
        | none =>
          rw [hparent] at h
          cases h
        | some parent =>
          rw [hparent] at h
          exact hid ▸ Nat.le_of_lt (hg f (mem_of_mem_chainIn h))
    · rw [chainIn_cons_of_ne hid] at h
      exact ih hgs h

/-! ## Well-formed scopes -/

structure WellFormed (s : Scopes) : Prop where
  /-- Newer scopes have greater ids. -/
  sorted : s.frames.Pairwise fun f g => g.id < f.id
  fresh : ∀ f ∈ s.frames, f.id < s.next
  /-- The globals are the oldest scope, inside no other. -/
  base : ∃ newer g, s.frames = newer ++ [g] ∧ g.id = globals ∧ g.parent = none

theorem wellFormed_initial : WellFormed initial where
  sorted := List.pairwise_singleton _ _
  fresh := by simp [initial, globals]
  base := ⟨[], _, rfl, rfl, rfl⟩

/-- Ids are not given to two scopes. -/
theorem WellFormed.find?_of_mem (h : s.WellFormed) {f : Frame} (hf : f ∈ s.frames) :
    s.frames.find? (fun g => g.id = f.id) = some f := by
  obtain ⟨newer, older, hframes⟩ := List.append_of_mem hf
  have hsorted := h.sorted
  rw [hframes, List.pairwise_append] at hsorted
  have hnewer : newer.find? (fun g => g.id = f.id) = none :=
    List.find?_eq_none.mpr fun g hg => by
      simpa using Nat.ne_of_gt (hsorted.2.2 g hg f List.mem_cons_self)
  rw [hframes, List.find?_append, hnewer, Option.none_or, List.find?_cons_of_pos (by simp)]

theorem WellFormed.globals_lt_next (h : s.WellFormed) : globals < s.next := by
  obtain ⟨newer, g, hframes, hg, -⟩ := h.base
  exact hg ▸ h.fresh g (by simp [hframes])

/-- From the globals, no other scope is seen. -/
theorem WellFormed.chain_globals (h : s.WellFormed) :
    ∃ g, s.chain globals = [g] ∧ s.frames.find? (fun f => f.id = globals) = some g := by
  obtain ⟨newer, g, hframes, hg, hparent⟩ := h.base
  have hsorted := h.sorted
  rw [hframes, List.pairwise_append] at hsorted
  have hnewer : ∀ f ∈ newer, f.id ≠ globals := fun f hf hglobals => by
    have hlt := hsorted.2.2 f hf g (List.mem_singleton.mpr rfl)
    rw [hglobals] at hlt
    exact absurd hlt (Nat.not_lt_zero _)
  refine ⟨g, ?_, ?_⟩
  · rw [chain, hframes, chainIn_append_of_ne hnewer, chainIn_cons_of_eq hg, hparent]
    rfl
  · have hnone : newer.find? (fun f => f.id = globals) = none :=
      List.find?_eq_none.mpr fun f hf => by simpa using hnewer f hf
    rw [hframes, List.find?_append, hnone, Option.none_or,
      List.find?_cons_of_pos (by simpa using hg)]

theorem WellFormed.enclose (h : s.WellFormed) (parent : ScopeId) :
    (s.enclose parent).2.WellFormed where
  sorted := List.pairwise_cons.mpr ⟨h.fresh, h.sorted⟩
  fresh := by
    intro f hf
    rcases List.mem_cons.mp hf with rfl | hf
    · exact Nat.lt_succ_self _
    · exact Nat.lt_succ_of_lt (h.fresh f hf)
  base := by
    obtain ⟨newer, g, hframes, hg⟩ := h.base
    exact ⟨_ :: newer, g, by rw [Scopes.enclose, hframes, List.cons_append], hg⟩

theorem WellFormed.discard (h : s.WellFormed) (id : ScopeId) : (s.discard id).WellFormed := by
  unfold Scopes.discard
  split
  · exact h
  · rename_i hid
    refine ⟨h.sorted.filter _, fun f hf => h.fresh f (List.mem_filter.mp hf).1, ?_⟩
    obtain ⟨newer, g, hframes, hg⟩ := h.base
    refine ⟨newer.filter fun f => f.id ≠ id, g, ?_, hg⟩
    have hkept : [g].filter (fun f => f.id ≠ id) = [g] :=
      List.filter_cons_of_pos (by simpa [hg.1] using Ne.symm hid)
    simp only [hframes, List.filter_append, hkept]

/-! ## Binding a name -/

/-- Binds a name in the frame of a certain id. -/
def bindAt (id : ScopeId) (name : String) (value : Value) (f : Frame) : Frame :=
  if f.id = id then { f with bindings := f.bindings.insert name value } else f

@[simp] theorem id_bindAt (id : ScopeId) (name : String) (value : Value) (f : Frame) :
    (bindAt id name value f).id = f.id := by
  unfold bindAt
  split <;> rfl

@[simp] theorem parent_bindAt (id : ScopeId) (name : String) (value : Value) (f : Frame) :
    (bindAt id name value f).parent = f.parent := by
  unfold bindAt
  split <;> rfl

theorem frames_define (s : Scopes) (id : ScopeId) (name : String) (value : Value) :
    (s.define id name value).frames = s.frames.map (bindAt id name value) := rfl

theorem chain_define (s : Scopes) (owner id : ScopeId) (name : String) (value : Value) :
    (s.define owner name value).chain id = (s.chain id).map (bindAt owner name value) :=
  chainIn_map (id_bindAt owner name value) (parent_bindAt owner name value) s.frames id

/-- Frames of other ids are not changed. -/
theorem map_bindAt_of_ne {frames : List Frame} {name : String} {value : Value}
    (h : ∀ f ∈ frames, f.id ≠ id) : frames.map (bindAt id name value) = frames := by
  refine (List.map_congr_left fun f hf => ?_).trans (List.map_id frames)
  rw [bindAt, if_neg (h f hf), id_eq]

/-! ## What becomes of the live scopes -/

def shape (s : Scopes) : List (ScopeId × Option ScopeId) :=
  s.frames.map fun f => (f.id, f.parent)

structure Keeps (s s' : Scopes) : Prop where
  shape : s'.shape = s.shape
  next : s.next ≤ s'.next

structure Grows (s s' : Scopes) : Prop where
  shape : s.shape <:+ s'.shape
  next : s.next ≤ s'.next

theorem Keeps.refl (s : Scopes) : Keeps s s :=
  ⟨rfl, Nat.le_refl _⟩

theorem Keeps.trans (h : Keeps s s') (h' : Keeps s' s'') : Keeps s s'' :=
  ⟨h'.shape.trans h.shape, Nat.le_trans h.next h'.next⟩

theorem Keeps.grows (h : Keeps s s') : Grows s s' :=
  ⟨h.shape ▸ List.suffix_refl _, h.next⟩

theorem Grows.trans (h : Grows s s') (h' : Grows s' s'') : Grows s s'' :=
  ⟨h.shape.trans h'.shape, Nat.le_trans h.next h'.next⟩

theorem grows_enclose (s : Scopes) (parent : ScopeId) : Grows s (s.enclose parent).2 :=
  ⟨List.suffix_cons _ _, Nat.le_succ _⟩

theorem shape_define (s : Scopes) (id : ScopeId) (name : String) (value : Value) :
    (s.define id name value).shape = s.shape := by
  simp only [shape, define, List.map_map]
  refine List.map_congr_left fun f _ => ?_
  simp only [Function.comp_apply]
  split <;> rfl

theorem keeps_define (s : Scopes) (id : ScopeId) (name : String) (value : Value) :
    Keeps s (s.define id name value) :=
  ⟨shape_define s id name value, Nat.le_refl _⟩

theorem keeps_assign {name : Token} {value : Value} (h : s.assign id name value = .ok s') :
    Keeps s s' := by
  unfold assign at h
  split at h <;> cases h
  exact keeps_define _ _ _ _

theorem WellFormed.define (h : s.WellFormed) (id : ScopeId) (name : String) (value : Value) :
    (s.define id name value).WellFormed := by
  have hid : ∀ f : Frame, (if f.id = id then
      { f with bindings := f.bindings.insert name value } else f).id = f.id := by
    intro f
    split <;> rfl
  refine ⟨?_, ?_, ?_⟩
  · exact List.pairwise_map.mpr (h.sorted.imp fun hlt => by rwa [hid, hid])
  · intro f hf
    obtain ⟨g, hg, rfl⟩ := List.mem_map.mp hf
    rw [hid]
    exact h.fresh g hg
  · obtain ⟨newer, g, hframes, hg, hparent⟩ := h.base
    refine ⟨_, _, by rw [Scopes.define, hframes, List.map_append, List.map_singleton], ?_, ?_⟩
    · exact (hid g).trans hg
    · split <;> exact hparent

theorem WellFormed.assign (h : s.WellFormed) {name : Token} {value : Value}
    (hs : s.assign id name value = .ok s') : s'.WellFormed := by
  unfold Scopes.assign at hs
  split at hs <;> cases hs
  exact h.define _ _ _

/-! ## A scope that was opened -/

/-- The frames that there are since a scope was opened inside `parent`: newer ones, the scope, and
those that were there before. -/
theorem exists_frames_enclosed {parent : ScopeId} (h' : s'.WellFormed)
    (hgrows : Grows (s.enclose parent).2 s') :
    ∃ newer f older, s'.frames = newer ++ f :: older ∧ f.id = s.next ∧ f.parent = some parent ∧
      older.map (fun g => (g.id, g.parent)) = s.shape ∧ (∀ g ∈ newer, s.next < g.id) ∧
      ∀ g ∈ older, g.id < s.next := by
  obtain ⟨extra, hextra⟩ := hgrows.shape
  have hmap : s'.frames.map (fun g => (g.id, g.parent)) =
      extra ++ (s.next, some parent) :: s.shape := hextra.symm
  obtain ⟨newer, behind, hframes, -, hbehind⟩ := List.map_eq_append_iff.mp hmap
  obtain ⟨f, older, rfl, hf, hshape⟩ := List.map_eq_cons_iff.mp hbehind
  obtain ⟨hid, hparent⟩ := Prod.mk.inj hf
  have hsorted := h'.sorted
  rw [hframes, List.pairwise_append] at hsorted
  refine ⟨newer, f, older, hframes, hid, hparent, hshape, ?_, ?_⟩
  · exact fun g hg => hid ▸ hsorted.2.2 g hg f List.mem_cons_self
  · exact fun g hg => hid ▸ (List.pairwise_cons.mp hsorted.2.1).1 g hg

theorem chain_enclosed {parent : ScopeId} (h' : s'.WellFormed)
    (hgrows : Grows (s.enclose parent).2 s') (hparent : parent < s.next) :
    ∃ f, s'.chain s.next = f :: s'.chain parent := by
  obtain ⟨newer, f, older, hframes, hid, hp, -, hnewer, -⟩ := exists_frames_enclosed h' hgrows
  refine ⟨f, ?_⟩
  have hinner : s'.chain s.next = f :: chainIn older parent := by
    rw [chain, hframes, chainIn_append_of_ne fun g hg => Nat.ne_of_gt (hnewer g hg)]
    rw [chainIn_cons_of_eq hid, hp, Option.elim_some]
  have houter : s'.chain parent = chainIn older parent := by
    rw [chain, hframes, chainIn_append_of_ne fun g hg =>
      Nat.ne_of_gt (Nat.lt_trans hparent (hnewer g hg)), chainIn_cons_of_ne]
    exact hid ▸ Nat.ne_of_gt hparent
  rw [hinner, houter]

/-- Dropping a scope changes no chain of an older one. -/
theorem chain_discard (h : s.WellFormed) {dropped : ScopeId} (hid : id < dropped) :
    (s.discard dropped).chain id = s.chain id := by
  unfold discard
  split
  · rfl
  · refine chainIn_filter fun f hf => Nat.ne_of_lt ?_
    exact Nat.lt_of_le_of_lt (id_le_of_mem_chainIn h.sorted hf) hid

/-- When the scope is dropped, those that were live before are live. -/
theorem keeps_of_discard {parent : ScopeId} (hs : s.WellFormed) (h' : s'.WellFormed)
    (hkeeps : Keeps (s.enclose parent).2 s') : Keeps s (s'.discard s.next) := by
  obtain ⟨newer, f, older, hframes, hid, -, hshape, hnewer, holder⟩ :=
    exists_frames_enclosed h' hkeeps.grows
  have hnil : newer = [] := by
    have hlength := congrArg List.length hkeeps.shape
    have hlength' := congrArg List.length hshape
    simp [Scopes.shape, hframes, enclose] at hlength hlength'
    exact List.eq_nil_of_length_eq_zero (by omega)
  subst hnil
  have hne : s.next ≠ globals := Nat.ne_of_gt hs.globals_lt_next
  refine ⟨?_, ?_⟩
  · have hfilter : older.filter (fun g => g.id ≠ s.next) = older :=
      List.filter_eq_self.mpr fun g hg => by simpa using Nat.ne_of_lt (holder g hg)
    rw [discard, if_neg hne, Scopes.shape, hframes, List.nil_append,
      List.filter_cons_of_neg (by simpa using hid), hfilter, hshape]
  · rw [discard, if_neg hne]
    exact Nat.le_of_succ_le hkeeps.next

end Treewalk.Scopes
