import Treewalk.Proofs.Machine.Balanced
import Treewalk.Proofs.Stack

/-!
# The stack in a machine

`Scopes.stack s id` is the stack that is seen from the scope `id`: the maps of the scopes of its
chain. Looking up, binding and changing a name there is what the stack does. A machine *mirrors* a
state of the stack (`Mirrors`) if that is what is seen from the scope in which it runs, and if as
much has been printed.

* `follows_evaluate`: evaluating an expression on both sides has the same result, and keeps the
  mirror.
* `Mirrors.enter`, `Mirrors.exists_inBlock`: a block is entered by pushing an empty map and left by
  popping it, also where an abort leaves its scope undropped.
-/

namespace Treewalk

open Stack

/-! ## The stack that is seen from a scope -/

namespace Scopes

variable {s s' : Scopes} {id : ScopeId}

def stack (s : Scopes) (id : ScopeId) : Stack :=
  (s.chain id).map fun f => f.bindings.get?

theorem get_eq (s : Scopes) (id : ScopeId) (name : Token) :
    s.get id name =
      match lookup name.lexeme (s.stack id) with
      | some value => .ok value
      | none => .error ⟨.undefinedVariable, name⟩ := by
  have h : ∀ frames : List Frame, lookup name.lexeme (frames.map fun f => f.bindings.get?) =
      frames.findSome? fun f => f.bindings.get? name.lexeme := by
    intro frames
    induction frames with
    | nil => rfl
    | cons f fs ih =>
      rw [List.map_cons, lookup, List.findSome?_cons, ih]
      cases f.bindings.get? name.lexeme <;> rfl
  cases hfound : (s.chain id).findSome? fun f => f.bindings.get? name.lexeme with
  | none => simp only [get, stack, h, hfound]
  | some value => simp only [get, stack, h, hfound]

theorem get?_bindAt {f : Frame} (h : f.id = id) (name : String) (value : Value) :
    (bindAt id name value f).bindings.get? = Names.set f.bindings.get? name value := by
  funext key
  rw [bindAt, if_pos h, Bindings.get?_insert, Names.set]

theorem stack_define (h : s.WellFormed) (id : ScopeId) (name : String) (value : Value) :
    (s.define id name value).stack id = Stack.define name value (s.stack id) := by
  rw [stack, stack, chain_define]
  have hsorted := h.sorted.sublist (chainIn_sublist s.frames id)
  cases hchain : s.chain id with
  | nil => rfl
  | cons f fs =>
    have hhead : (chainIn s.frames id).head? = some f := by
      rw [← chain, hchain]
      rfl
    have hid : f.id = id := id_of_head_chainIn hhead
    rw [← chain, hchain] at hsorted
    have hothers : fs.map (bindAt id name value) = fs :=
      map_bindAt_of_ne fun g hg => Nat.ne_of_lt (hid ▸ (List.pairwise_cons.mp hsorted).1 g hg)
    rw [List.map_cons, hothers, List.map_cons, List.map_cons, get?_bindAt hid, Stack.define]

/-- The innermost frame that binds the name is the one that is changed. -/
theorem assign?_map {frames : List Frame} (hsorted : frames.Pairwise fun f g => g.id < f.id)
    (name : String) (value : Value) :
    assign? name value (frames.map fun f => f.bindings.get?) =
      (frames.find? fun f => f.bindings.binds name).map fun owner =>
        (frames.map (bindAt owner.id name value)).map fun f => f.bindings.get? := by
  induction frames with
  | nil => rfl
  | cons f fs ih =>
    obtain ⟨hf, hfs⟩ := List.pairwise_cons.mp hsorted
    rw [List.map_cons, assign?, List.find?_cons]
    change (if f.bindings.binds name = true then _ else _) = _
    by_cases hbinds : f.bindings.binds name = true
    · have hothers : fs.map (bindAt f.id name value) = fs :=
        map_bindAt_of_ne fun g hg => Nat.ne_of_lt (hf g hg)
      rw [if_pos hbinds, hbinds, Option.map_some, List.map_cons, hothers, List.map_cons,
        get?_bindAt rfl]
    · rw [if_neg hbinds, Bool.eq_false_iff.mpr hbinds, ih hfs]
      cases hfind : fs.find? fun f => f.bindings.binds name with
      | none => rfl
      | some owner =>
        have hne : f.id ≠ owner.id := Nat.ne_of_gt (hf owner (List.mem_of_find?_eq_some hfind))
        rw [Option.map_some, Option.map_some, Option.map_some, List.map_cons, List.map_cons,
          bindAt, if_neg hne]

theorem assign_eq (h : s.WellFormed) (id : ScopeId) (name : Token) (value : Value) :
    (∃ s', s.assign id name value = .ok s' ∧
      assign? name.lexeme value (s.stack id) = some (s'.stack id)) ∨
    (s.assign id name value = .error ⟨.undefinedVariable, name⟩ ∧
      assign? name.lexeme value (s.stack id) = none) := by
  have hmap := assign?_map (h.sorted.sublist (chainIn_sublist s.frames id)) name.lexeme value
  rw [← chain] at hmap
  rw [stack, hmap, assign]
  cases (s.chain id).find? fun f => f.bindings.binds name.lexeme with
  | none => exact .inr ⟨rfl, rfl⟩
  | some owner => exact .inl ⟨_, rfl, by rw [stack, chain_define]; rfl⟩

theorem stack_enclose (s : Scopes) (id : ScopeId) :
    (s.enclose id).2.stack s.next = Names.empty :: s.stack id := by
  rw [stack, chain, enclose, chainIn_cons_of_eq rfl]
  rfl

/-- What is seen from outside of a scope is what is seen from inside, without its own names. -/
theorem stack_outside (h' : s'.WellFormed) (hgrows : Grows (s.enclose id).2 s')
    (hid : id < s.next) : s'.stack id = (s'.stack s.next).tail := by
  obtain ⟨f, hchain⟩ := chain_enclosed h' hgrows hid
  rw [stack, stack, hchain]
  rfl

theorem stack_discard (h : s.WellFormed) {dropped : ScopeId} (hid : id < dropped) :
    (s.discard dropped).stack id = s.stack id := by
  rw [stack, chain_discard h hid, stack]

end Scopes

/-! ## Mirrors -/

/-- In the scope `id`, the machine is in the state `st`, where `start` is the machine at which
printing began. -/
structure Mirrors (start : Machine) (id : ScopeId) (m : Machine) (st : State) : Prop where
  wellFormed : m.scopes.WellFormed
  known : id < m.scopes.next
  stack : m.scopes.stack id = st.stack
  pending : m.takeOutput.1 = start.takeOutput.1 ++ st.printed
  written : m.standardOutput = start.standardOutput ++ st.printed

section

variable {start m : Machine} {id : ScopeId} {st : State}

/-- Other scopes, with the same output. -/
theorem Mirrors.withScopes (h : Mirrors start id m st) {scopes : Scopes} {stack : Stack}
    (hwf : scopes.WellFormed) (hid : id < scopes.next) (hstack : scopes.stack id = stack) :
    Mirrors start id { m with scopes } { st with stack } :=
  ⟨hwf, hid, hstack, h.pending, h.written⟩

theorem Mirrors.define (h : Mirrors start id m st) (name : Token) (value : Value) :
    Mirrors start id { m with scopes := m.scopes.define id name.lexeme value }
      { st with stack := Stack.define name.lexeme value st.stack } :=
  h.withScopes (h.wellFormed.define _ _ _) h.known
    (by rw [Scopes.stack_define h.wellFormed, h.stack])

theorem join_reverse_cons (text : String) (texts : List String) :
    String.join (text :: texts).reverse = String.join texts.reverse ++ text := by
  rw [List.reverse_cons, String.join_append]
  simp [String.join]

theorem Mirrors.print (h : Mirrors start id m st) (value : Value) :
    Mirrors start id (m.print value)
      { st with printed := st.printed ++ (value.text ++ "\n") } where
  wellFormed := h.wellFormed
  known := h.known
  stack := h.stack
  pending := by
    have hpending : String.join m.pending.reverse = start.takeOutput.1 ++ st.printed := h.pending
    change String.join ((value.text ++ "\n") :: m.pending).reverse = _
    rw [join_reverse_cons, hpending, String.append_assoc]
  written := by
    have hwritten : String.join m.written.reverse = start.standardOutput ++ st.printed := h.written
    change String.join ((value.text ++ "\n") :: m.written).reverse = _
    rw [join_reverse_cons, hwritten, String.append_assoc]

end

/-! ## Expressions -/

/-- From a mirror, the computation comes to the same result on the machine and on the stack, and
to a mirror again. -/
def Follows {α : Type} (id : ScopeId) (x : Exec α) (f : Stack → Except Stop α × Stack) : Prop :=
  ∀ start m st, Mirrors start id m st →
    ∃ stack, f st.stack = ((x m).1, stack) ∧ Mirrors start id (x m).2 { st with stack }

section

variable {α β : Type} {id : ScopeId}

theorem follows_pure (a : α) : Follows id (pure a) fun stack => (.ok a, stack) :=
  fun _ _ st h => ⟨st.stack, rfl, h⟩

theorem follows_liftExcept (r : Except Stop α) :
    Follows id (liftExcept r) fun stack => (r, stack) := by
  intro start m st h
  rw [Exec.liftExcept_apply]
  exact ⟨st.stack, rfl, h⟩

theorem Follows.bind {x : Exec α} {f : Stack → Except Stop α × Stack} {g : α → Exec β}
    {k : α → Stack → Except Stop β × Stack} (hx : Follows id x f)
    (hg : ∀ a, Follows id (g a) (k a)) :
    Follows id (x >>= g) fun stack => andThen k (f stack) := by
  intro start m st h
  obtain ⟨stack, hf, h'⟩ := hx start m st h
  simp only [Exec.bind_apply, hf]
  rcases hr : x m with ⟨_ | a, m'⟩
  · rw [hr] at h'
    exact ⟨stack, rfl, h'⟩
  · rw [hr] at h'
    exact hg a start m' _ h'

theorem follows_get (name : Token) :
    Follows id (Exec.get id name) fun stack =>
      match lookup name.lexeme stack with
      | some value => (.ok value, stack)
      | none => (.error (.error ⟨.undefinedVariable, name⟩), stack) := by
  intro start m st h
  refine ⟨st.stack, ?_, h⟩
  simp only [Exec.get, Scopes.get_eq, h.stack]
  cases lookup name.lexeme st.stack <;> rfl

theorem follows_assign (name : Token) (value : Value) :
    Follows id (Exec.assign id name value >>= fun _ => pure value) fun stack =>
      match assign? name.lexeme value stack with
      | some stack => (.ok value, stack)
      | none => (.error (.error ⟨.undefinedVariable, name⟩), stack) := by
  intro start m st h
  simp only [Exec.bind_apply, Exec.assign, ← h.stack]
  rcases Scopes.assign_eq h.wellFormed id name value with ⟨scopes, hok, hstack⟩ | ⟨herr, hstack⟩
  · simp only [hok, hstack]
    exact ⟨_, rfl, h.withScopes (h.wellFormed.assign hok)
      (Nat.lt_of_lt_of_le h.known (Scopes.keeps_assign hok).next) rfl⟩
  · simp only [herr, hstack]
    exact ⟨_, rfl, h.stack ▸ h⟩

/-- What a logical operator does behind its left side. -/
theorem follows_decidedBy {right : Exec Value} {k : Stack → Except Stop Value × Stack}
    (hright : Follows id right k) (operator : Token) (x : Value) :
    Follows id (liftExcept (decidedBy operator x) >>= fun decided =>
        if decided then pure x else right) fun stack =>
      match operator.kind with
      | .keyword .kwOr => if x.isTruthy then (.ok x, stack) else k stack
      | .keyword .kwAnd => if x.isTruthy then k stack else (.ok x, stack)
      | kind => (.error (.abort (.unexpectedOperator .logical kind)), stack) := by
  intro start m st h
  simp only [Exec.bind_apply, Exec.liftExcept_apply]
  unfold decidedBy
  cases operator.kind with
  | keyword word =>
    cases word <;> cases x.isTruthy <;>
      first | exact ⟨st.stack, rfl, h⟩ | exact hright start m st h
  | _ => exact ⟨st.stack, rfl, h⟩

theorem follows_evaluate (id : ScopeId) (e : Expr) :
    Follows id (Treewalk.evaluate id e) (Stack.evaluate e) := by
  induction e with
  | literal value => exact follows_pure value
  | grouping _ ih => exact ih
  | «variable» name => exact follows_get name
  | assign name _ ih => exact ih.bind fun value => follows_assign name value
  | unary operator _ ih => exact ih.bind fun x => follows_liftExcept (applyUnary operator x)
  | binary _ operator _ ihLeft ihRight =>
    exact ihLeft.bind fun x => ihRight.bind fun y =>
      follows_liftExcept (applyBinary operator x y)
  | logical left operator right ihLeft ihRight =>
    exact ihLeft.bind fun x => follows_decidedBy ihRight operator x

end

section

variable {start m m' : Machine} {id : ScopeId} {st : State} {r : Except Stop Unit} {fuel : Nat}

theorem Mirrors.evaluate (h : Mirrors start id m st) (e : Expr) :
    ∃ r m' stack, Treewalk.evaluate id e m = (r, m') ∧ Stack.evaluate e st.stack = (r, stack) ∧
      Mirrors start id m' { st with stack } := by
  obtain ⟨stack, hstack, h'⟩ := follows_evaluate id e start m st h
  exact ⟨_, _, stack, rfl, hstack, h'⟩

theorem evaluatesTrue_apply {c : Expr} {r : Except Stop Value}
    (h : Treewalk.evaluate id c m = (r, m')) :
    evaluatesTrue id c m = (r.map Value.isTruthy, m') := by
  rw [evaluatesTrue, Exec.map_apply, h]

end

/-! ## Blocks -/

section

variable {start m m' : Machine} {id : ScopeId} {st : State} {r : Except Stop Unit} {fuel : Nat}

/-- Into a block. -/
theorem Mirrors.enter (h : Mirrors start id m st) :
    Mirrors start m.scopes.next (m.enter id)
      { st with stack := Names.empty :: st.stack } where
  wellFormed := h.wellFormed.enclose id
  known := Nat.lt_succ_self _
  stack := by rw [Machine.enter, Scopes.stack_enclose, h.stack]
  pending := h.pending
  written := h.written

/-- Out of a block, however what is inside ends. The map on top was that of the block. -/
theorem Mirrors.exists_inBlock (h : Mirrors start id m st) (body : ScopeId → Exec Unit)
    {st' : State} (hbody : Exec.Balanced (body m.scopes.next))
    (hrun : body m.scopes.next (m.enter id) = (r, m'))
    (h' : Mirrors start m.scopes.next m' st') :
    ∃ m'', Exec.inBlock id body m = (r, m'') ∧ st'.stack ≠ [] ∧
      Mirrors start id m'' { st' with stack := st'.stack.tail } := by
  have hgrows := (hbody _ h.enter.wellFormed).2.1
  rw [hrun] at hgrows
  obtain ⟨f, hchain⟩ := Scopes.chain_enclosed h'.wellFormed hgrows h.known
  have hinside : st'.stack ≠ [] := by
    rw [← h'.stack, Scopes.stack, hchain]
    exact List.cons_ne_nil _ _
  have houtside := Scopes.stack_outside h'.wellFormed hgrows h.known
  rw [h'.stack] at houtside
  have hknown : id < m'.scopes.next :=
    Nat.lt_trans h.known (Nat.lt_of_succ_le hgrows.next)
  rw [Exec.inBlock_apply, hrun]
  rcases Exec.leave_cases m.scopes.next r m' with ⟨-, hleave⟩ | ⟨-, hleave⟩
  · exact ⟨m', hleave, hinside, h'.wellFormed, hknown, houtside, h'.pending, h'.written⟩
  · refine ⟨_, hleave, hinside, h'.wellFormed.discard _, ?_, ?_, h'.pending, h'.written⟩
    · unfold Scopes.discard
      split <;> exact hknown
    · exact (Scopes.stack_discard h'.wellFormed h.known).trans houtside

end

end Treewalk
