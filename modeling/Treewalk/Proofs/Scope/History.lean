import Mathlib.Data.Finset.Card
import Mathlib.Data.Finset.Insert
import Treewalk.Proofs.Scope

/-!
# Scopes and their ids

Scopes are opened, dropped, written to and looked up by id, and an id may be used at any time after
it was handed out, also when its scope has been dropped (`History`). Two things hold throughout: a
parent is older than what was opened in it, and an id is live unless it was dropped (`Tracks`).

`Leads` follows the parents of a scope one after the other, as far as they are live. The chain that
is found in one pass is what it leads over (`Tracks.chain_eq`).

`History.ids_used_once_and_stale_ids_harmless` is what comes of it.
-/

namespace Treewalk.Scopes

variable {s s' : Scopes} {id : ScopeId}

/-! ## Live scopes -/

def Live (s : Scopes) (id : ScopeId) : Prop :=
  ∃ f ∈ s.frames, f.id = id

theorem live_iff : s.Live id ↔ id ∈ s.shape.map Prod.fst := by
  simp [Live, shape]

theorem find?_of_not_live (h : ¬ s.Live id) : s.frames.find? (fun f => f.id = id) = none :=
  List.find?_eq_none.mpr fun f hf => by simpa using fun hid => h ⟨f, hf, hid⟩

theorem size_eq (s : Scopes) : s.size = s.shape.length :=
  (List.length_map _).symm

theorem live_enclose {parent : ScopeId} :
    (s.enclose parent).2.Live id ↔ id = s.next ∨ s.Live id := by
  simp [Live, enclose, eq_comm]

theorem live_discard {dropped : ScopeId} (h : dropped ≠ globals) :
    (s.discard dropped).Live id ↔ s.Live id ∧ id ≠ dropped := by
  rw [discard, if_neg h]
  simp only [Live, List.mem_filter, decide_eq_true_eq]
  constructor
  · rintro ⟨f, ⟨hf, hne⟩, rfl⟩
    exact ⟨⟨f, hf, rfl⟩, hne⟩
  · rintro ⟨⟨f, hf, rfl⟩, hne⟩
    exact ⟨f, ⟨hf, hne⟩, rfl⟩

/-- A dead scope cannot be dropped again. -/
theorem discard_of_not_live (h : ¬ s.Live id) : s.discard id = s := by
  unfold discard
  split
  · rfl
  · have hall : s.frames.filter (fun f => f.id ≠ id) = s.frames :=
      List.filter_eq_self.mpr fun f hf => by simpa using fun hid => h ⟨f, hf, hid⟩
    rw [hall]

theorem define_of_not_live (h : ¬ s.Live id) (name : String) (value : Value) :
    s.define id name value = s := by
  have hall : s.frames.map (fun f =>
      if f.id = id then { f with bindings := f.bindings.insert name value } else f) = s.frames := by
    refine (List.map_congr_left fun f hf => ?_).trans (List.map_id _)
    exact if_neg fun hid => h ⟨f, hf, hid⟩
  rw [define, hall]

theorem size_discard (h : s.WellFormed) (hid : id ≠ globals) (hlive : s.Live id) :
    s.size = (s.discard id).size + 1 := by
  obtain ⟨f, hf, rfl⟩ := hlive
  obtain ⟨newer, older, hframes⟩ := List.append_of_mem hf
  have hsorted := h.sorted
  rw [hframes, List.pairwise_append] at hsorted
  have hnewer : newer.filter (fun g => g.id ≠ f.id) = newer :=
    List.filter_eq_self.mpr fun g hg => by
      simpa using Nat.ne_of_gt (hsorted.2.2 g hg f List.mem_cons_self)
  have holder : older.filter (fun g => g.id ≠ f.id) = older :=
    List.filter_eq_self.mpr fun g hg => by
      simpa using Nat.ne_of_lt ((List.pairwise_cons.mp hsorted.2.1).1 g hg)
  rw [discard, if_neg hid, size, size, hframes, List.filter_append,
    List.filter_cons_of_neg (by simp), hnewer, holder]
  simp [Nat.add_assoc]

/-- The globals are what they were, whatever is dropped. -/
theorem find?_globals_discard (s : Scopes) (id : ScopeId) :
    (s.discard id).frames.find? (fun f => f.id = globals) =
      s.frames.find? (fun f => f.id = globals) := by
  unfold discard
  split
  · rfl
  · rename_i hid
    rw [List.find?_filter]
    congr 1
    funext f
    by_cases hf : f.id = globals
    · simp [hf, Ne.symm hid]
    · simp [hf]

/-! ## From parent to parent -/

/-- From `id`, one parent after the other: the live scopes that are met, and the dead id at which
they end, unless they end at a scope without a parent. -/
inductive Leads (s : Scopes) : ScopeId → List Frame → Option ScopeId → Prop
  | dead {id : ScopeId} (h : ¬ s.Live id) : Leads s id [] (some id)
  | root {f : Frame} (hf : f ∈ s.frames) (h : f.parent = none) : Leads s f.id [f] none
  | inside {f : Frame} {parent : ScopeId} {frames : List Frame} {stop : Option ScopeId}
      (hf : f ∈ s.frames) (h : f.parent = some parent) (hrest : Leads s parent frames stop) :
      Leads s f.id (f :: frames) stop

section

variable {f : Frame} {frames : List Frame} {stop : Option ScopeId}

theorem Leads.mem_frames (h : Leads s id frames stop) (hf : f ∈ frames) : f ∈ s.frames := by
  induction h with
  | dead => cases hf
  | root hg => exact List.mem_singleton.mp hf ▸ hg
  | inside hg _ _ ih =>
    rcases List.mem_cons.mp hf with rfl | hf
    · exact hg
    · exact ih hf

/-- It ends without a dead id just where there is no parent. -/
theorem Leads.exists_root (h : Leads s id frames none) : ∃ f ∈ frames, f.parent = none := by
  generalize hstop : (none : Option ScopeId) = stop at h
  induction h with
  | dead => cases hstop
  | root _ hparent => exact ⟨_, List.mem_singleton_self _, hparent⟩
  | inside _ _ _ ih =>
    obtain ⟨f, hf, hparent⟩ := ih hstop
    exact ⟨f, List.mem_cons_of_mem _ hf, hparent⟩

theorem Leads.parent_ne_none {stale : ScopeId} (h : Leads s id frames (some stale))
    (hf : f ∈ frames) : f.parent ≠ none := by
  generalize hstop : some stale = stop at h
  induction h with
  | dead => cases hf
  | root => cases hstop
  | inside _ hparent _ ih =>
    rcases List.mem_cons.mp hf with rfl | hf
    · simp [hparent]
    · exact ih hf hstop

/-- Where parents are older than what was opened in them, the chain of a live scope goes on with
that of its parent. -/
theorem chain_of_mem (hsorted : s.frames.Pairwise fun f g => g.id < f.id) (hf : f ∈ s.frames)
    (hparent : ∀ parent, f.parent = some parent → parent < f.id) :
    s.chain f.id = f :: f.parent.elim [] s.chain := by
  obtain ⟨newer, older, hframes⟩ := List.append_of_mem hf
  rw [hframes, List.pairwise_append] at hsorted
  have hnewer : ∀ g ∈ newer, f.id < g.id := fun g hg => hsorted.2.2 g hg f List.mem_cons_self
  rw [chain, hframes, chainIn_append_of_ne fun g hg => Nat.ne_of_gt (hnewer g hg),
    chainIn_cons_of_eq rfl]
  cases hp : f.parent with
  | none => rfl
  | some parent =>
    have holder := hparent parent hp
    rw [Option.elim_some, Option.elim_some, chain, hframes,
      chainIn_append_of_ne fun g hg => Nat.ne_of_gt (Nat.lt_trans holder (hnewer g hg)),
      chainIn_cons_of_ne (Nat.ne_of_gt holder)]

end

/-! ## Histories -/

/-- What is done to scopes, by their ids. -/
inductive Action
  | enclose (parent : ScopeId)
  | discard (id : ScopeId)
  | define (id : ScopeId) (name : String) (value : Value)
  | get (id : ScopeId) (name : Token)
  | assign (id : ScopeId) (name : Token) (value : Value)

namespace Action

/-- The id that has to be known. -/
def scope : Action → ScopeId
  | enclose parent => parent
  | discard id | define id _ _ | get id _ | assign id _ _ => id

def after (s : Scopes) : Action → Scopes
  | enclose parent => (s.enclose parent).2
  | discard id => s.discard id
  | define id name value => s.define id name value
  | get _ _ => s
  | assign id name value => (s.assign id name value).toOption.getD s

/-- The ids that are handed out. -/
def issued (s : Scopes) : Action → List ScopeId
  | enclose parent => [(s.enclose parent).1]
  | discard _ | define _ _ _ | get _ _ | assign _ _ _ => []

def opens : Action → Bool
  | enclose _ => true
  | discard _ | define _ _ _ | get _ _ | assign _ _ _ => false

/-- The scope that has to be dead then. -/
def drops? : Action → Option ScopeId
  | discard id => if id = globals then none else some id
  | enclose _ | define _ _ _ | get _ _ | assign _ _ _ => none

end Action

/-- The ids that actions have dropped, each once. -/
def dropped (actions : List Action) : Finset ScopeId :=
  (actions.filterMap Action.drops?).toFinset

/-- Actions on new scopes, the latest first, with all ids that have been handed out. -/
inductive History : List Action → List ScopeId → Scopes → Prop
  | initial : History [] [globals] .initial
  | act {actions : List Action} {ids : List ScopeId} {s : Scopes} (h : History actions ids s)
      (a : Action) (hknown : a.scope ∈ ids) :
      History (a :: actions) (a.issued s ++ ids) (a.after s)

/-- How scopes stand behind actions in which certain ids were handed out. -/
structure Tracks (actions : List Action) (ids : List ScopeId) (s : Scopes) : Prop where
  wellFormed : s.WellFormed
  known : ∀ id, id ∈ ids ↔ id < s.next
  once : ids.Nodup
  older : ∀ id parent, (id, some parent) ∈ s.shape → parent < id
  root : ∀ id, (id, none) ∈ s.shape → id = globals
  dropped_known : ∀ id ∈ dropped actions, id < s.next
  live : ∀ id, s.Live id ↔ id < s.next ∧ id ∉ dropped actions
  size : s.size + (dropped actions).card = 1 + actions.countP Action.opens

section

variable {actions : List Action} {ids : List ScopeId} {a : Action}

theorem dropped_cons_of_none (h : a.drops? = none) : dropped (a :: actions) = dropped actions := by
  rw [dropped, List.filterMap_cons_none h, dropped]

theorem dropped_cons_of_some (h : a.drops? = some id) :
    dropped (a :: actions) = insert id (dropped actions) := by
  rw [dropped, List.filterMap_cons_some h, List.toFinset_cons, dropped]

theorem mem_dropped (h : .discard id ∈ actions) (hid : id ≠ globals) : id ∈ dropped actions :=
  List.mem_toFinset.mpr (List.mem_filterMap.mpr ⟨_, h, if_neg hid⟩)

theorem tracks_initial : Tracks [] [globals] .initial where
  wellFormed := wellFormed_initial
  known id := by simp [initial, globals]
  once := List.nodup_singleton _
  older id parent h := by simp [shape, initial] at h
  root id h := by simpa [shape, initial] using h
  dropped_known := by simp [dropped]
  live id := by simp [Live, initial, dropped, globals, eq_comm]
  size := rfl

/-- An action after which the same scopes are live. -/
theorem Tracks.keep (h : Tracks actions ids s) (hopens : a.opens = false)
    (hdrops : a.drops? = none) (hwf : s'.WellFormed) (hshape : s'.shape = s.shape)
    (hnext : s'.next = s.next) : Tracks (a :: actions) ids s' where
  wellFormed := hwf
  known := hnext ▸ h.known
  once := h.once
  older := hshape ▸ h.older
  root := hshape ▸ h.root
  dropped_known := by
    rw [dropped_cons_of_none hdrops, hnext]
    exact h.dropped_known
  live id := by
    rw [dropped_cons_of_none hdrops, hnext, live_iff, hshape, ← live_iff]
    exact h.live id
  size := by
    rw [dropped_cons_of_none hdrops, size_eq, hshape, ← size_eq,
      List.countP_cons_of_neg (by simp [hopens])]
    exact h.size

theorem Tracks.enclose (h : Tracks actions ids s) {parent : ScopeId} (hparent : parent ∈ ids) :
    Tracks (.enclose parent :: actions) (s.next :: ids) (s.enclose parent).2 where
  wellFormed := h.wellFormed.enclose parent
  known id := by
    rw [List.mem_cons, h.known, or_comm]
    exact Nat.lt_succ_iff_lt_or_eq.symm
  once := List.nodup_cons.mpr ⟨fun hmem => Nat.lt_irrefl _ ((h.known _).mp hmem), h.once⟩
  older id p hmem := by
    rcases List.mem_cons.mp hmem with heq | hmem
    · cases heq
      exact (h.known _).mp hparent
    · exact h.older id p hmem
  root id hmem := by
    rcases List.mem_cons.mp hmem with heq | hmem
    · cases heq
    · exact h.root id hmem
  dropped_known id hid := Nat.lt_succ_of_lt (h.dropped_known id hid)
  live id := by
    rw [live_enclose, h.live, dropped_cons_of_none rfl]
    change _ ↔ id < s.next + 1 ∧ _
    constructor
    · rintro (rfl | ⟨hlt, hid⟩)
      · exact ⟨Nat.lt_succ_self _, fun hid => Nat.lt_irrefl _ (h.dropped_known _ hid)⟩
      · exact ⟨Nat.lt_succ_of_lt hlt, hid⟩
    · rintro ⟨hlt, hid⟩
      rcases Nat.lt_succ_iff_lt_or_eq.mp hlt with hlt | rfl
      · exact .inr ⟨hlt, hid⟩
      · exact .inl rfl
  size := by
    have hsize : (s.enclose parent).2.size = s.size + 1 := rfl
    rw [dropped_cons_of_none rfl, hsize, List.countP_cons_of_pos rfl, ← Nat.add_assoc, ← h.size]
    omega

theorem Tracks.discard (h : Tracks actions ids s) {dead : ScopeId} (hdead : dead ∈ ids) :
    Tracks (.discard dead :: actions) ids (s.discard dead) := by
  by_cases hglobals : dead = globals
  · have hsame : s.discard dead = s := if_pos hglobals
    rw [hsame]
    exact h.keep rfl (if_pos hglobals) h.wellFormed rfl rfl
  have hdropped : dropped (.discard dead :: actions) = insert dead (dropped actions) :=
    dropped_cons_of_some (if_neg hglobals)
  have hnext : (s.discard dead).next = s.next := by rw [Scopes.discard, if_neg hglobals]
  have hshape : (s.discard dead).shape.Sublist s.shape := by
    rw [Scopes.discard, if_neg hglobals]
    exact List.filter_sublist.map _
  refine ⟨h.wellFormed.discard dead, hnext ▸ h.known, h.once,
    fun id p hmem => h.older id p (hshape.subset hmem),
    fun id hmem => h.root id (hshape.subset hmem), ?_, ?_, ?_⟩
  · rw [hdropped, hnext]
    intro id hid
    rcases Finset.mem_insert.mp hid with rfl | hid
    · exact (h.known _).mp hdead
    · exact h.dropped_known id hid
  · intro id
    rw [live_discard hglobals, h.live, hdropped, hnext, Finset.mem_insert]
    tauto
  · rw [hdropped, List.countP_cons_of_neg (by simp [Action.opens]), ← h.size]
    by_cases hlive : s.Live dead
    · rw [Finset.card_insert_of_notMem ((h.live dead).mp hlive).2,
        size_discard h.wellFormed hglobals hlive]
      omega
    · -- It was dropped before, and counts once.
      have hmem : dead ∈ dropped actions := by
        by_contra hnot
        exact hlive ((h.live dead).mpr ⟨(h.known dead).mp hdead, hnot⟩)
      rw [Finset.insert_eq_of_mem hmem, discard_of_not_live hlive]

theorem History.tracks (h : History actions ids s) : Tracks actions ids s := by
  induction h with
  | initial => exact tracks_initial
  | @act actions ids s _ a hknown ih =>
    cases a with
    | enclose parent => exact ih.enclose hknown
    | discard id => exact ih.discard hknown
    | define id name value =>
      exact ih.keep rfl rfl (ih.wellFormed.define id name value) (shape_define s id name value) rfl
    | get id name => exact ih.keep rfl rfl ih.wellFormed rfl rfl
    | assign id name value =>
      change Tracks _ ids ((s.assign id name value).toOption.getD s)
      cases hassign : s.assign id name value with
      | error e => exact ih.keep rfl rfl ih.wellFormed rfl rfl
      | ok s' =>
        have hnext : s'.next = s.next := by
          unfold Scopes.assign at hassign
          split at hassign <;> cases hassign
          rfl
        exact ih.keep rfl rfl (ih.wellFormed.assign hassign) (keeps_assign hassign).shape hnext

/-! ## What is seen -/

theorem Tracks.parent_lt (h : Tracks actions ids s) {f : Frame} (hf : f ∈ s.frames)
    {parent : ScopeId} (hparent : f.parent = some parent) : parent < f.id :=
  h.older f.id parent (hparent ▸ List.mem_map_of_mem hf)

theorem Tracks.exists_leads (h : Tracks actions ids s) (id : ScopeId) :
    ∃ frames stop, s.Leads id frames stop := by
  induction id using Nat.strongRecOn with
  | ind id ih =>
    by_cases hlive : s.Live id
    · obtain ⟨f, hf, rfl⟩ := hlive
      cases hparent : f.parent with
      | none => exact ⟨_, _, .root hf hparent⟩
      | some parent =>
        obtain ⟨frames, stop, hrest⟩ := ih parent (h.parent_lt hf hparent)
        exact ⟨_, _, .inside hf hparent hrest⟩
    · exact ⟨_, _, .dead hlive⟩

theorem Tracks.chain_eq (h : Tracks actions ids s) {frames : List Frame} {stop : Option ScopeId}
    (hleads : s.Leads id frames stop) : s.chain id = frames := by
  have hmem {f : Frame} (hf : f ∈ s.frames) : s.chain f.id = f :: f.parent.elim [] s.chain :=
    chain_of_mem h.wellFormed.sorted hf fun _ => h.parent_lt hf
  induction hleads with
  | dead hdead => exact chainIn_eq_nil fun f hf hid => hdead ⟨f, hf, hid⟩
  | root hf hparent =>
    rw [hmem hf, hparent]
    rfl
  | inside hf hparent _ ih =>
    rw [hmem hf, hparent, Option.elim_some, ih]

/-- Of the live scopes, the globals alone have no parent. -/
theorem Tracks.parent_eq_none_iff (h : Tracks actions ids s) {f : Frame} (hf : f ∈ s.frames) :
    f.parent = none ↔ f.id = globals := by
  constructor
  · intro hparent
    exact h.root f.id (hparent ▸ List.mem_map_of_mem hf)
  · intro hid
    cases hparent : f.parent with
    | none => rfl
    | some parent =>
      have hlt := h.parent_lt hf hparent
      rw [hid] at hlt
      exact absurd hlt (Nat.not_lt_zero _)

/-- Nothing is seen from a dead scope, and nothing can be done to it. -/
theorem stale_of_not_live (h : ¬ s.Live id) :
    (∀ name : Token, ∃ e : RuntimeError,
      e.message = "Undefined variable '" ++ name.lexeme ++ "'." ∧
        s.get id name = .error e ∧ ∀ value, s.assign id name value = .error e) ∧
      (∀ name value, s.define id name value = s) ∧ s.discard id = s := by
  have hchain : s.chain id = [] := chainIn_eq_nil fun f hf hid => h ⟨f, hf, hid⟩
  refine ⟨fun name => ⟨⟨.undefinedVariable, name⟩, rfl, ?_, fun value => ?_⟩,
    define_of_not_live h, discard_of_not_live h⟩
  · rw [get, hchain]
    rfl
  · rw [assign, hchain]
    rfl

/-- No id is handed out twice. The globals are live and stay what they are whatever is dropped. Any
other id that was dropped is dead from then on. What is seen from a scope are the bindings of the
live scopes to which its parents lead; where they meet a dead id, the globals are not among them.
The live scopes are counted by what was opened and dropped. -/
theorem History.ids_used_once_and_stale_ids_harmless (h : History actions ids s) :
    (ids.Nodup ∧ ∀ parent, (s.enclose parent).1 ∉ ids) ∧
    (∃ g, s.frames.find? (fun f => f.id = globals) = some g ∧
      ∀ id, (s.discard id).frames.find? (fun f => f.id = globals) = some g) ∧
    (∀ id, id ≠ globals → .discard id ∈ actions → ¬ s.Live id ∧
      (∀ name : Token, ∃ e : RuntimeError,
        e.message = "Undefined variable '" ++ name.lexeme ++ "'." ∧
          s.get id name = .error e ∧ ∀ value, s.assign id name value = .error e) ∧
      (∀ name value, s.define id name value = s) ∧ s.discard id = s) ∧
    (∀ id, ∃ frames stop, s.Leads id frames stop) ∧
    (∀ id frames stop, s.Leads id frames stop →
      (∀ name, s.get id name =
        match frames.findSome? fun f => f.bindings.get? name.lexeme with
        | some value => .ok value
        | none => .error ⟨.undefinedVariable, name⟩) ∧
      (∀ name value, s.assign id name value =
        match frames.find? fun f => f.bindings.binds name.lexeme with
        | some owner => .ok (s.define owner.id name.lexeme value)
        | none => .error ⟨.undefinedVariable, name⟩) ∧
      (stop = none ↔ ∃ g ∈ frames, g.id = globals)) ∧
    s.size + (dropped actions).card = 1 + actions.countP Action.opens := by
  have ht := h.tracks
  refine ⟨⟨ht.once, fun parent hmem => Nat.lt_irrefl _ ((ht.known _).mp hmem)⟩, ?_, ?_,
    ht.exists_leads, ?_, ht.size⟩
  · obtain ⟨g, -, hg⟩ := ht.wellFormed.chain_globals
    exact ⟨g, hg, fun id => (find?_globals_discard s id).trans hg⟩
  · intro id hid hdiscard
    have hdead : ¬ s.Live id := fun hlive => ((ht.live id).mp hlive).2 (mem_dropped hdiscard hid)
    exact ⟨hdead, stale_of_not_live hdead⟩
  · intro id frames stop hleads
    refine ⟨fun name => ?_, fun name value => ?_, ?_⟩
    · cases hvalue : frames.findSome? fun f => f.bindings.get? name.lexeme <;>
        rw [get, ht.chain_eq hleads, hvalue]
    · cases howner : frames.find? fun f => f.bindings.binds name.lexeme <;>
        rw [assign, ht.chain_eq hleads, howner]
    · constructor
      · rintro rfl
        obtain ⟨g, hg, hparent⟩ := hleads.exists_root
        exact ⟨g, hg, (ht.parent_eq_none_iff (hleads.mem_frames hg)).mp hparent⟩
      · rintro ⟨g, hg, hid⟩
        cases stop with
        | none => rfl
        | some stale =>
          have hparent := (ht.parent_eq_none_iff (hleads.mem_frames hg)).mpr hid
          exact absurd hparent (hleads.parent_ne_none hg)

/-- A scope that is opened inside a dropped one does not see the globals. -/
theorem dropped_parent_hides_globals :
    ∃ s : Scopes, History
        [.enclose 1, .discard 1, .define globals "a" .nil, .enclose globals] [2, 1, 0] s ∧
      s.size = 2 ∧ s.get globals ⟨.identifier, "a", 1⟩ = .ok .nil ∧
      s.get 2 ⟨.identifier, "a", 1⟩ = .error ⟨.undefinedVariable, ⟨.identifier, "a", 1⟩⟩ := by
  let s : Scopes := ⟨[⟨2, some 1, .empty⟩, ⟨globals, none, ⟨[("a", .nil)]⟩⟩], 3⟩
  have hhistory : History
      [.enclose 1, .discard 1, .define globals "a" .nil, .enclose globals] [2, 1, 0] s :=
    (((History.initial.act (.enclose globals) (by decide)).act
      (.define globals "a" .nil) (by decide)).act (.discard 1) (by decide)).act
      (.enclose 1) (by decide)
  obtain ⟨-, -, hstale, -, hseen, hsize⟩ := hhistory.ids_used_once_and_stale_ids_harmless
  have hdead : ¬ s.Live 1 := (hstale 1 (by decide) (by simp)).1
  have hroot : s.Leads globals [⟨globals, none, ⟨[("a", .nil)]⟩⟩] none :=
    .root (f := ⟨globals, none, ⟨[("a", .nil)]⟩⟩) (by simp [s]) rfl
  have hinside : s.Leads 2 [⟨2, some 1, .empty⟩] (some 1) :=
    .inside (f := ⟨2, some 1, .empty⟩) (by simp [s]) rfl (.dead hdead)
  have hopened : s.size + 1 = 1 + 2 := hsize
  exact ⟨s, hhistory, Nat.succ_injective hopened, (hseen _ _ _ hroot).1 _,
    (hseen _ _ _ hinside).1 _⟩

end

end Treewalk.Scopes
