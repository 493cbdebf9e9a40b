import Treewalk.Proofs.Scope.History

/-!
# What a write changes

`Scopes.binding? s id name` is what the scope `id` itself binds a name to, and `s.Resolves name id
owner` says that from the scope `id`, the parents lead to `owner` as the first scope that binds the
name. So a lookup gives the binding of the scope to which it resolves (`Tracks.get_of_resolves`).

* `binding?_enclose`, `binding?_discard`, `binding?_define`: what becomes of the bindings of every
  scope.
* `History.writes_change_own_lookups`: to bind a name changes the lookups that resolve to the scope
  then, and to assign to it those that resolve to the same scope as the name itself. No other lookup
  changes, be it from an inner or an outer scope, from a sibling or by a stale id.
-/

namespace Treewalk.Scopes

variable {s s' : Scopes} {id : ScopeId} {name : String} {value : Value}

/-! ## The bindings of one scope -/

/-- What the scope itself binds the name to. -/
def binding? (s : Scopes) (id : ScopeId) (name : String) : Option Value :=
  (s.frames.find? fun f => f.id = id).bind fun f => f.bindings.get? name

def Binds (s : Scopes) (id : ScopeId) (name : String) : Prop :=
  (s.binding? id name).isSome = true

theorem binding?_of_not_live (h : ¬ s.Live id) : s.binding? id name = none := by
  rw [binding?, find?_of_not_live h, Option.bind_none]

theorem binding?_of_mem (h : s.WellFormed) {f : Frame} (hf : f ∈ s.frames) :
    s.binding? f.id name = f.bindings.get? name := by
  rw [binding?, h.find?_of_mem hf, Option.bind_some]

theorem binding?_enclose (h : s.WellFormed) (parent : ScopeId) :
    (s.enclose parent).2.binding? id name = s.binding? id name := by
  by_cases hid : s.next = id
  · have hfresh : ¬ s.Live id := by
      rintro ⟨f, hf, rfl⟩
      exact Nat.ne_of_lt (h.fresh f hf) hid.symm
    rw [binding?_of_not_live hfresh]
    simp [binding?, enclose, hid]
  · simp [binding?, enclose, hid]

theorem binding?_discard {dropped : ScopeId} (hdropped : dropped ≠ globals) :
    (s.discard dropped).binding? id name = if id = dropped then none else s.binding? id name := by
  by_cases hid : id = dropped
  · rw [if_pos hid, binding?_of_not_live]
    rw [live_discard hdropped]
    exact fun h => h.2 hid
  · rw [if_neg hid, binding?, binding?, discard, if_neg hdropped, List.find?_filter]
    congr 2
    funext f
    by_cases hf : f.id = id <;> simp [hf, hid]

theorem binding?_define (s : Scopes) (id owner : ScopeId) (name key : String) (value : Value)
    (hlive : s.Live owner) :
    (s.define owner name value).binding? id key =
      if id = owner ∧ name = key then some value else s.binding? id key := by
  have hfind : (s.define owner name value).frames.find? (fun f => f.id = id) =
      (s.frames.find? fun f => f.id = id).map (bindAt owner name value) := by
    rw [frames_define, List.find?_map]
    simp only [Function.comp_def, id_bindAt]
  rw [binding?, hfind, binding?]
  cases hf : s.frames.find? fun f => f.id = id with
  | none =>
    have hne : id ≠ owner := by
      rintro rfl
      obtain ⟨f, hmem, hid⟩ := hlive
      simpa [hid] using List.find?_eq_none.mp hf f hmem
    simp [hne]
  | some f =>
    have hid : f.id = id := by simpa using List.find?_some hf
    by_cases howner : id = owner <;> simp [bindAt, hid, howner]

/-! ## The scope that a lookup ends at -/

/-- From the scope `id`, the parents lead to `owner` as the first scope that binds the name. -/
inductive Resolves (s : Scopes) (name : String) : ScopeId → ScopeId → Prop
  | here {f : Frame} (hf : f ∈ s.frames) (h : f.bindings.binds name = true) :
      Resolves s name f.id f.id
  | outside {f : Frame} {parent owner : ScopeId} (hf : f ∈ s.frames)
      (h : f.bindings.binds name = false) (hparent : f.parent = some parent)
      (hrest : Resolves s name parent owner) : Resolves s name f.id owner

/-- It only depends on which scopes there are, and which of them bind the name. -/
theorem Resolves.imp {owner : ScopeId} (h : s.Resolves name id owner)
    (hsame : ∀ f ∈ s.frames, ∃ g ∈ s'.frames, g.id = f.id ∧ g.parent = f.parent ∧
      g.bindings.binds name = f.bindings.binds name) : s'.Resolves name id owner := by
  induction h with
  | here hf hbinds =>
    obtain ⟨g, hg, hid, -, hb⟩ := hsame _ hf
    exact hid ▸ .here hg (hb.trans hbinds)
  | outside hf hbinds hparent _ ih =>
    obtain ⟨g, hg, hid, hp, hb⟩ := hsame _ hf
    exact hid ▸ .outside hg (hb.trans hbinds) (hp.trans hparent) ih

section

variable {actions : List Action} {ids : List ScopeId} {owner : ScopeId}

theorem Tracks.chain_of_mem (h : Tracks actions ids s) {f : Frame} (hf : f ∈ s.frames) :
    s.chain f.id = f :: f.parent.elim [] s.chain :=
  Scopes.chain_of_mem h.wellFormed.sorted hf fun _ => h.parent_lt hf

theorem Tracks.resolves_iff (h : Tracks actions ids s) :
    s.Resolves name id owner ↔
      ∃ f, (s.chain id).find? (fun f => f.bindings.binds name) = some f ∧ f.id = owner := by
  constructor
  · intro hresolves
    induction hresolves with
    | here hf hbinds =>
      rw [h.chain_of_mem hf, List.find?_cons, hbinds]
      exact ⟨_, rfl, rfl⟩
    | outside hf hbinds hparent _ ih =>
      rw [h.chain_of_mem hf, List.find?_cons, hbinds, hparent]
      exact ih
  · rintro ⟨f, hfind, rfl⟩
    induction id using Nat.strongRecOn with
    | ind id ih =>
      by_cases hlive : s.Live id
      · obtain ⟨g, hg, rfl⟩ := hlive
        rw [h.chain_of_mem hg, List.find?_cons] at hfind
        cases hbinds : g.bindings.binds name with
        | true =>
          rw [hbinds] at hfind
          cases hfind
          exact .here hg hbinds
        | false =>
          rw [hbinds] at hfind
          cases hparent : g.parent with
          | none =>
            rw [hparent] at hfind
            cases hfind
          | some parent =>
            rw [hparent] at hfind
            exact .outside hg hbinds hparent (ih parent (h.parent_lt hg hparent) hfind)
      · rw [chain, chainIn_eq_nil fun f hf hid => hlive ⟨f, hf, hid⟩] at hfind
        cases hfind

/-- The first binding of a name is found in the first frame that binds the name. -/
theorem findSome?_get? (frames : List Frame) (name : String) :
    (frames.findSome? fun f => f.bindings.get? name) =
      (frames.find? fun f => f.bindings.binds name).bind fun f => f.bindings.get? name := by
  induction frames with
  | nil => rfl
  | cons f fs ih =>
    rw [List.findSome?_cons, List.find?_cons, ih, Bindings.binds]
    cases hf : f.bindings.get? name <;> simp [hf]

theorem Tracks.get_of_resolves (h : Tracks actions ids s) {token : Token}
    (hr : s.Resolves token.lexeme id owner) :
    ∃ value, s.binding? owner token.lexeme = some value ∧ s.get id token = .ok value := by
  obtain ⟨f, hfind, rfl⟩ := h.resolves_iff.mp hr
  have hbinds : f.bindings.binds token.lexeme = true := by simpa using List.find?_some hfind
  obtain ⟨value, hvalue⟩ := Option.isSome_iff_exists.mp hbinds
  have hf : f ∈ s.frames := mem_of_mem_chainIn (List.mem_of_find?_eq_some hfind)
  refine ⟨value, (binding?_of_mem h.wellFormed hf).trans hvalue, ?_⟩
  rw [get, findSome?_get?, hfind, Option.bind_some, hvalue]

/-! ## Binding a name -/

/-- A binding shows in no lookup but those of its name that find its frame first. -/
theorem findSome?_map_bindAt {frames : List Frame} {key : String}
    (h : ¬ (name = key ∧ ∃ f, (frames.map (bindAt owner name value)).find?
      (fun f => f.bindings.binds key) = some f ∧ f.id = owner)) :
    (frames.map (bindAt owner name value)).findSome? (fun f => f.bindings.get? key) =
      frames.findSome? fun f => f.bindings.get? key := by
  induction frames with
  | nil => rfl
  | cons f fs ih =>
    rw [List.map_cons, List.find?_cons] at h
    have hsame : (bindAt owner name value f).bindings.get? key = f.bindings.get? key := by
      by_cases hid : f.id = owner
      · have hbinds : (bindAt owner name value f).bindings.binds name = true := by
          simp [bindAt, hid]
        have hkey : name ≠ key := by
          rintro rfl
          exact h ⟨rfl, bindAt owner name value f, by rw [hbinds], (id_bindAt ..).trans hid⟩
        simp [bindAt, hid, hkey]
      · rw [bindAt, if_neg hid]
    rw [List.map_cons, List.findSome?_cons, List.findSome?_cons, hsame]
    cases hget : f.bindings.get? key with
    | some value => rfl
    | none =>
      rw [Bindings.binds, hsame, hget] at h
      exact ih h

theorem Tracks.define (h : Tracks actions ids s) (id : ScopeId) (name : String) (value : Value) :
    Tracks (.define id name value :: actions) ids (s.define id name value) :=
  h.keep rfl rfl (h.wellFormed.define id name value) (shape_define s id name value) rfl

theorem Tracks.get_define (h : Tracks actions ids s) (hlive : s.Live owner) {token : Token}
    (hname : token.lexeme = name) (hr : (s.define owner name value).Resolves name id owner) :
    (s.define owner name value).get id token = .ok value := by
  subst hname
  obtain ⟨seen, hseen, hget⟩ := (h.define owner token.lexeme value).get_of_resolves hr
  rw [binding?_define s owner owner _ _ value hlive, if_pos ⟨rfl, rfl⟩] at hseen
  rw [hget, Option.some.inj hseen]

theorem Tracks.get_define_of_not (h : Tracks actions ids s) {token : Token}
    (hr : ¬ (token.lexeme = name ∧ (s.define owner name value).Resolves name id owner)) :
    (s.define owner name value).get id token = s.get id token := by
  rw [get, get, chain_define, findSome?_map_bindAt]
  rintro ⟨rfl, hfind⟩
  rw [← chain_define] at hfind
  exact hr ⟨rfl, (h.define owner token.lexeme value).resolves_iff.mpr hfind⟩

/-! ## Assigning to a name -/

theorem Tracks.assign_of_resolves (h : Tracks actions ids s) {token : Token}
    (hr : s.Resolves token.lexeme id owner) (value : Value) :
    s.assign id token value = .ok (s.define owner token.lexeme value) := by
  obtain ⟨f, hfind, rfl⟩ := h.resolves_iff.mp hr
  rw [assign, hfind]

theorem Tracks.resolves_of_assign (h : Tracks actions ids s) {token : Token}
    (hassign : s.assign id token value = .ok s') :
    ∃ owner, s.Resolves token.lexeme id owner ∧ s' = s.define owner token.lexeme value := by
  unfold assign at hassign
  split at hassign
  · rename_i f hfind
    exact ⟨f.id, h.resolves_iff.mpr ⟨f, hfind, rfl⟩, (Except.ok.inj hassign).symm⟩
  · cases hassign

theorem Tracks.resolves_of_get (h : Tracks actions ids s) {token : Token}
    (hget : s.get id token = .ok value) : ∃ owner, s.Resolves token.lexeme id owner := by
  rw [get, findSome?_get?] at hget
  cases hfind : (s.chain id).find? fun f => f.bindings.binds token.lexeme with
  | none => simp [hfind] at hget
  | some f => exact ⟨f.id, h.resolves_iff.mpr ⟨f, hfind, rfl⟩⟩

theorem Tracks.binds_of_resolves (h : Tracks actions ids s) (hr : s.Resolves name id owner) :
    s.Binds owner name := by
  let token : Token := ⟨.identifier, name, 1⟩
  have hr' : s.Resolves token.lexeme id owner := hr
  obtain ⟨value, hvalue, -⟩ := h.get_of_resolves hr'
  exact Option.isSome_iff_exists.mpr ⟨value, hvalue⟩

theorem live_of_binds (h : s.Binds id name) : s.Live id := by
  by_contra hdead
  rw [Binds, binding?_of_not_live hdead] at h
  cases h

/-- To bind a name again makes no scope bind a new name. -/
theorem binds_define_iff (h : s.Binds owner name) (value : Value) (id : ScopeId) (key : String) :
    (s.define owner name value).Binds id key ↔ s.Binds id key := by
  rw [Binds, binding?_define s id owner name key value (live_of_binds h)]
  split
  · rename_i heq
    obtain ⟨rfl, rfl⟩ := heq
    exact iff_of_true rfl h
  · rfl

theorem resolves_define_iff (hwf : s.WellFormed) (h : s.Binds owner name) (value : Value)
    {target : ScopeId} :
    (s.define owner name value).Resolves name id target ↔ s.Resolves name id target := by
  have hbinds : ∀ f ∈ s.frames,
      (bindAt owner name value f).bindings.binds name = f.bindings.binds name := by
    intro f hf
    by_cases hid : f.id = owner
    · have hown : f.bindings.binds name = true := by
        rw [← hid, Binds, binding?_of_mem hwf hf] at h
        exact h
      simp [bindAt, hid, hown]
    · rw [bindAt, if_neg hid]
  constructor
  · intro hr
    apply hr.imp
    intro g hg
    obtain ⟨f, hf, rfl⟩ := List.mem_map.mp hg
    exact ⟨f, hf, (id_bindAt ..).symm, (parent_bindAt ..).symm, (hbinds f hf).symm⟩
  · intro hr
    apply hr.imp
    intro f hf
    exact ⟨_, List.mem_map_of_mem hf, id_bindAt .., parent_bindAt .., hbinds f hf⟩

/-! ## Histories -/

theorem Tracks.resolves_unique (h : Tracks actions ids s) {owner' : ScopeId}
    (hr : s.Resolves name id owner) (hr' : s.Resolves name id owner') : owner = owner' := by
  obtain ⟨f, hf, rfl⟩ := h.resolves_iff.mp hr
  obtain ⟨g, hg, rfl⟩ := h.resolves_iff.mp hr'
  rw [Option.some.inj (hf.symm.trans hg)]

/-- Two scopes see the same binding of a name. -/
def Share (s : Scopes) (name : String) (id id' : ScopeId) : Prop :=
  ∃ owner, s.Resolves name id owner ∧ s.Resolves name id' owner

/-- Whatever has been done before: to bind a name in a live scope changes the lookups of that name
that end at the scope then, and in a dead scope nothing. Assigning to a name succeeds where looking
it up does. It changes the lookups that see the same binding, and no scope comes to bind a new name;
where it fails, it names the token, and the scopes stay as they are. -/
theorem History.writes_change_own_lookups (h : History actions ids s) (id : ScopeId) (name : Token)
    (value : Value) :
    (s.Live id → ∀ (other : ScopeId) (key : Token),
      (key.lexeme = name.lexeme ∧
          (s.define id name.lexeme value).Resolves name.lexeme other id →
        (s.define id name.lexeme value).get other key = .ok value) ∧
      (¬ (key.lexeme = name.lexeme ∧
          (s.define id name.lexeme value).Resolves name.lexeme other id) →
        (s.define id name.lexeme value).get other key = s.get other key)) ∧
    (¬ s.Live id → s.define id name.lexeme value = s) ∧
    ((∃ s', s.assign id name value = .ok s') ↔ ∃ seen, s.get id name = .ok seen) ∧
    (∀ s', s.assign id name value = .ok s' →
      (∀ (other : ScopeId) (key : Token),
        (key.lexeme = name.lexeme ∧ s.Share name.lexeme id other → s'.get other key = .ok value) ∧
        (¬ (key.lexeme = name.lexeme ∧ s.Share name.lexeme id other) →
          s'.get other key = s.get other key)) ∧
      ∀ scope key, s'.Binds scope key ↔ s.Binds scope key) ∧
    ∀ e, s.assign id name value = .error e →
      e.token = name ∧ e.message = "Undefined variable '" ++ name.lexeme ++ "'." ∧
        (Action.assign id name value).after s = s := by
  have ht := h.tracks
  refine ⟨fun hlive other key => ⟨?_, ht.get_define_of_not⟩,
    fun hdead => define_of_not_live hdead _ _, ⟨?_, ?_⟩, ?_, ?_⟩
  · rintro ⟨hkey, hr⟩
    exact ht.get_define hlive hkey hr
  · rintro ⟨s', hassign⟩
    obtain ⟨owner, hr, -⟩ := ht.resolves_of_assign hassign
    obtain ⟨seen, -, hget⟩ := ht.get_of_resolves hr
    exact ⟨seen, hget⟩
  · rintro ⟨seen, hget⟩
    obtain ⟨owner, hr⟩ := ht.resolves_of_get hget
    exact ⟨_, ht.assign_of_resolves hr value⟩
  · intro s' hassign
    obtain ⟨owner, hr, rfl⟩ := ht.resolves_of_assign hassign
    have hbinds := ht.binds_of_resolves hr
    have hshare : ∀ other, (s.define owner name.lexeme value).Resolves name.lexeme other owner ↔
        s.Share name.lexeme id other := by
      intro other
      rw [resolves_define_iff ht.wellFormed hbinds]
      constructor
      · exact fun hr' => ⟨owner, hr, hr'⟩
      · rintro ⟨owner', hown, hr'⟩
        rwa [ht.resolves_unique hr hown]
    refine ⟨fun other key => ⟨?_, ?_⟩, binds_define_iff hbinds value⟩
    · rintro ⟨hkey, hseen⟩
      exact ht.get_define (live_of_binds hbinds) hkey ((hshare other).mpr hseen)
    · rw [← hshare]
      exact ht.get_define_of_not
  · intro e hassign
    have hstay : (Action.assign id name value).after s = s := by
      rw [Action.after, hassign]
      rfl
    unfold assign at hassign
    split at hassign <;> cases hassign
    exact ⟨rfl, rfl, hstay⟩

/-- An assignment from a scope that does not bind the name reaches the globals and is seen from
there, but not from a sibling that has a binding of its own. -/
theorem sibling_keeps_own_binding :
    ∃ s s' : Scopes, History
        [.enclose globals, .define 1 "a" .nil, .enclose globals, .define globals "a" .nil]
        [2, 1, 0] s ∧
      s.assign 2 ⟨.identifier, "a", 1⟩ (.bool true) = .ok s' ∧
      s'.get globals ⟨.identifier, "a", 1⟩ = .ok (.bool true) ∧
      s'.get 1 ⟨.identifier, "a", 1⟩ = .ok .nil := by
  let a : Token := ⟨.identifier, "a", 1⟩
  let bound : Bindings := ⟨[("a", .nil)]⟩
  let s : Scopes := ⟨[⟨2, some 0, .empty⟩, ⟨1, some 0, bound⟩, ⟨0, none, bound⟩], 3⟩
  have hhistory : History
      [.enclose globals, .define 1 "a" .nil, .enclose globals, .define globals "a" .nil]
      [2, 1, 0] s :=
    (((History.initial.act (.define globals "a" .nil) (by decide)).act
      (.enclose globals) (by decide)).act (.define 1 "a" .nil) (by decide)).act
      (.enclose globals) (by decide)
  have hroot : s.Resolves "a" globals globals :=
    Resolves.here (s := s) (f := ⟨0, none, bound⟩) (by simp [s]) (by decide)
  have hown : s.Resolves "a" 1 1 :=
    Resolves.here (s := s) (f := ⟨1, some 0, bound⟩) (by simp [s]) (by decide)
  have hinner : s.Resolves "a" 2 globals :=
    Resolves.outside (s := s) (f := ⟨2, some 0, .empty⟩) (by simp [s]) (by decide) rfl hroot
  obtain ⟨-, -, hsucceeds, hassign, -⟩ :=
    hhistory.writes_change_own_lookups 2 a (.bool true)
  obtain ⟨s', hs'⟩ := hsucceeds.mpr ⟨.nil, rfl⟩
  obtain ⟨hlookups, -⟩ := hassign s' hs'
  have hapart : ¬ s.Share "a" 2 1 := by
    rintro ⟨owner, h₂, h₁⟩
    have hzero := hhistory.tracks.resolves_unique h₂ hinner
    have hone := hhistory.tracks.resolves_unique h₁ hown
    rw [hzero] at hone
    exact absurd hone (by decide)
  refine ⟨s, s', hhistory, hs', (hlookups globals a).1 ⟨rfl, globals, hinner, hroot⟩, ?_⟩
  exact (hlookups 1 a).2 fun h => hapart h.2

end

end Treewalk.Scopes
