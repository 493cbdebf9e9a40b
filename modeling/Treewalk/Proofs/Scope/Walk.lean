import Treewalk.Proofs.Scope.History

/-!
# The walk along the parents

A chain can also be found step by step: from a scope to its parent, for as long as that is live. The
links are arbitrary ids, so nothing in the step itself says that this ends, or that what is read at
an id is still there. `Walks` has a case for a step only where the read succeeds.

That the walk ends lies in how the scopes came about. A scope can be opened inside another one only
when the other has its id, so ids that were handed out later come first along the walk
(`History.live_sublist`), also where a parent was dropped and other scopes were opened since.
`History.walk_visits_each_scope_once` has the consequences.
-/

namespace Treewalk.Scopes

variable {s : Scopes} {id : ScopeId}

/-! ## Step by step -/

/-- What is kept for an id, while its scope is live. -/
def frame? (s : Scopes) (id : ScopeId) : Option Frame :=
  s.frames.find? fun f => f.id = id

/-- The id itself, while its scope is live. -/
def reach? (s : Scopes) (id : ScopeId) : Option ScopeId :=
  if (s.frame? id).isSome then some id else none

/-- Where a walk goes on from a scope, if anywhere. Without the scope there is no answer. -/
def onward? (s : Scopes) (id : ScopeId) : Option (Option ScopeId) :=
  (s.frame? id).map fun f => f.parent.bind s.reach?

/-- A walk that ends: the scopes it visits, one after the other. -/
inductive Walks (s : Scopes) : Option ScopeId → List ScopeId → Prop
  | done : Walks s none []
  | visit {id : ScopeId} {next : Option ScopeId} {visited : List ScopeId}
      (h : s.onward? id = some next) (hrest : Walks s next visited) :
      Walks s (some id) (id :: visited)

theorem Walks.unique {start : Option ScopeId} {visited other : List ScopeId}
    (h : s.Walks start visited) (h' : s.Walks start other) : other = visited := by
  induction h generalizing other with
  | done =>
    cases h'
    rfl
  | visit hnext _ ih =>
    cases h' with
    | visit hnext' hrest' =>
      obtain rfl := Option.some.inj (hnext.symm.trans hnext')
      rw [ih hrest']

theorem reach?_of_not_live (h : ¬ s.Live id) : s.reach? id = none := by
  rw [reach?, frame?, find?_of_not_live h]
  rfl

section

variable {f : Frame} {frames : List Frame} {stop : Option ScopeId}

theorem WellFormed.frame?_of_mem (h : s.WellFormed) (hf : f ∈ s.frames) :
    s.frame? f.id = some f :=
  h.find?_of_mem hf

theorem WellFormed.reach?_of_mem (h : s.WellFormed) (hf : f ∈ s.frames) :
    s.reach? f.id = some f.id := by
  rw [reach?, h.frame?_of_mem hf]
  rfl

theorem WellFormed.onward?_of_mem (h : s.WellFormed) (hf : f ∈ s.frames) :
    s.onward? f.id = some (f.parent.bind s.reach?) := by
  rw [onward?, h.frame?_of_mem hf, Option.map_some]

/-- A walk visits the scopes to which the parents lead. -/
theorem Leads.walks (h : s.Leads id frames stop) (hwf : s.WellFormed) :
    s.Walks (s.reach? id) (frames.map Frame.id) := by
  induction h with
  | dead hdead =>
    rw [reach?_of_not_live hdead]
    exact .done
  | root hf hparent =>
    have hnext := hwf.onward?_of_mem hf
    rw [hparent] at hnext
    rw [hwf.reach?_of_mem hf]
    exact .visit hnext .done
  | inside hf hparent _ ih =>
    have hnext := hwf.onward?_of_mem hf
    rw [hparent] at hnext
    rw [hwf.reach?_of_mem hf]
    exact .visit hnext ih

end

/-! ## Histories -/

section

variable {actions : List Action} {ids : List ScopeId}

/-- An action makes no scope live but those that it hands out, which come first. -/
theorem Action.live_sublist (a : Action) (s : Scopes) :
    ((a.after s).shape.map Prod.fst).Sublist (a.issued s ++ s.shape.map Prod.fst) := by
  cases a with
  | enclose parent => exact List.Sublist.refl _
  | discard id =>
    change ((s.discard id).shape.map Prod.fst).Sublist _
    unfold Scopes.discard
    split
    · exact List.Sublist.refl _
    · exact (List.filter_sublist.map _).map _
  | define id name value =>
    change ((s.define id name value).shape.map Prod.fst).Sublist _
    rw [shape_define]
    exact List.Sublist.refl _
  | get id name => exact List.Sublist.refl _
  | assign id name value =>
    change (((s.assign id name value).toOption.getD s).shape.map Prod.fst).Sublist _
    cases hassign : s.assign id name value with
    | error e => exact List.Sublist.refl _
    | ok s' =>
      have hsame : s'.shape = s.shape := (keeps_assign hassign).shape
      exact hsame ▸ List.Sublist.refl _

/-- The live scopes are some of those that were handed out, in the same order. -/
theorem History.live_sublist (h : History actions ids s) :
    (s.shape.map Prod.fst).Sublist ids := by
  induction h with
  | initial => exact List.Sublist.refl _
  | act _ a _ ih => exact (a.live_sublist _).trans (ih.append_left _)

theorem chain_ids_sublist (s : Scopes) (id : ScopeId) :
    ((s.chain id).map Frame.id).Sublist (s.shape.map Prod.fst) := by
  have hids : s.shape.map Prod.fst = s.frames.map Frame.id := by
    rw [shape, List.map_map]
    rfl
  rw [hids]
  exact (chainIn_sublist s.frames id).map Frame.id

/-- Whatever has been done before, the walk from any id ends, and there is one way for it to go.
What it finds at the ids it visits are the scopes of the chain. It visits none twice, live ones only
and no more than there are, each handed out before the one from which it came. No scope is met again
on the way from its own parent. -/
theorem History.walk_visits_each_scope_once (h : History actions ids s) (id : ScopeId) :
    (∃ visited, s.Walks (s.reach? id) visited ∧
      (∀ other, s.Walks (s.reach? id) other → other = visited) ∧
      visited.map s.frame? = (s.chain id).map some ∧
      visited.Nodup ∧ visited.length ≤ s.size ∧ (∀ x ∈ visited, s.Live x) ∧
      visited.Sublist ids ∧ visited.Pairwise fun x y => y < x) ∧
    ∀ f ∈ s.frames, ∀ parent, f.parent = some parent →
      ∀ visited, s.Walks (s.reach? parent) visited → f.id ∉ visited := by
  have ht := h.tracks
  have hwalks : ∀ x, s.Walks (s.reach? x) ((s.chain x).map Frame.id) := fun x => by
    obtain ⟨frames, stop, hleads⟩ := ht.exists_leads x
    rw [ht.chain_eq hleads]
    exact hleads.walks ht.wellFormed
  have hsublist := (chain_ids_sublist s id).trans h.live_sublist
  refine ⟨⟨_, hwalks id, fun other => (hwalks id).unique, ?_, ht.once.sublist hsublist, ?_, ?_,
    hsublist, ?_⟩, ?_⟩
  · rw [List.map_map]
    exact List.map_congr_left fun f hf => ht.wellFormed.frame?_of_mem (mem_of_mem_chainIn hf)
  · rw [List.length_map]
    exact length_chainIn_le s.frames id
  · intro x hx
    obtain ⟨f, hf, rfl⟩ := List.mem_map.mp hx
    exact ⟨f, mem_of_mem_chainIn hf, rfl⟩
  · exact List.pairwise_map.mpr (ht.wellFormed.sorted.sublist (chainIn_sublist s.frames id))
  · intro f hf parent hparent visited hvisited hmem
    obtain rfl := (hwalks parent).unique hvisited
    obtain ⟨g, hg, hid⟩ := List.mem_map.mp hmem
    -- What is met from the parent is no newer than the parent, and the scope itself is.
    have hle := id_le_of_mem_chainIn ht.wellFormed.sorted hg
    exact Nat.not_le_of_lt (ht.parent_lt hf hparent) (hid ▸ hle)

/-- A scope is dropped, and another one opened below it since: the walk stops before the id that is
dead, and does not take the new scope for it. -/
theorem walk_stops_at_dropped_scope :
    ∃ s : Scopes, History [.enclose 2, .discard 1, .enclose 1, .enclose globals] [3, 2, 1, 0] s ∧
      s.size = 3 ∧ s.onward? 2 = some none ∧
      ∀ visited, s.Walks (s.reach? 3) visited → visited = [3, 2] := by
  let s : Scopes := ⟨[⟨3, some 2, .empty⟩, ⟨2, some 1, .empty⟩, ⟨globals, none, .empty⟩], 4⟩
  have hhistory : History [.enclose 2, .discard 1, .enclose 1, .enclose globals] [3, 2, 1, 0] s :=
    (((History.initial.act (.enclose globals) (by decide)).act
      (.enclose 1) (by decide)).act (.discard 1) (by decide)).act (.enclose 2) (by decide)
  obtain ⟨⟨visited, -, hunique, -⟩, -⟩ := hhistory.walk_visits_each_scope_once 3
  have hthree : s.onward? 3 = some (some 2) := rfl
  have htwo : s.onward? 2 = some none := rfl
  have hwalks : s.Walks (s.reach? 3) [3, 2] := .visit hthree (.visit htwo .done)
  refine ⟨s, hhistory, rfl, htwo, fun other hother => ?_⟩
  rw [hunique other hother, hunique _ hwalks]

end

end Treewalk.Scopes
