import Treewalk.Proofs.Machine.Confined
import Treewalk.Proofs.Stack.Mirror

/-!
# Scopes that do not show

Changing a stack is *transparent* if no lookup and no assignment notices it. Such a change is to put
a scope without any names on top, or below scopes that are opened later (`transparent_empty`,
`Transparent.below`). What binds names on top does notice the former, but not the latter.

`InStep pad scope scope' x y` says that `x` in `scope` does as `y` does in `scope'`, if what is
seen from the two differs by the change `pad`.

* `inStep_execute`: so it is for a statement that declares no name in the scope in which it runs,
  and for any statement below an opened scope.
* `InStep.emptyBlock`: a block that declares no name is as good as its statements.
* `InStep.looksLike`: two that are in step in one scope, and bind no name there, leave machines that
  look alike.
-/

namespace Treewalk

open Stack

namespace Stack

structure Transparent (pad : Stack → Stack) : Prop where
  lookup : ∀ name stack, lookup name (pad stack) = lookup name stack
  assign : ∀ name value stack,
    assign? name value (pad stack) = (assign? name value stack).map pad

/-- The change does not stand on top, where names are bound. -/
def KeepsTop (pad : Stack → Stack) : Prop :=
  ∀ name value stack, define name value (pad stack) = pad (define name value stack)

/-- The same change below the innermost scope. -/
def below (pad : Stack → Stack) : Stack → Stack
  | [] => []
  | names :: outer => names :: pad outer

variable {pad : Stack → Stack}

theorem transparent_id : Transparent id where
  lookup _ _ := rfl
  assign _ _ _ := by rw [Option.map_id]; rfl

theorem transparent_empty : Transparent (Names.empty :: ·) where
  lookup _ _ := rfl
  assign _ _ _ := rfl

theorem Transparent.below (h : Transparent pad) : Transparent (below pad) where
  lookup name stack := by
    cases stack with
    | nil => rfl
    | cons names outer => simp only [Stack.below, Stack.lookup, h.lookup]
  assign name value stack := by
    cases stack with
    | nil => rfl
    | cons names outer =>
      simp only [Stack.below, assign?, h.assign]
      split
      · rfl
      · cases assign? name value outer <;> rfl

theorem below_id : below id = id := by
  funext stack
  cases stack <;> rfl

theorem keepsTop_id : KeepsTop id :=
  fun _ _ _ => rfl

theorem keepsTop_below (pad : Stack → Stack) : KeepsTop (below pad) := by
  intro name value stack
  cases stack <;> rfl

theorem andThen_pad {α β : Type} {f : α → Stack → Except Stop β × Stack}
    (hf : ∀ a stack, f a (pad stack) = Prod.map id pad (f a stack)) (p : Except Stop α × Stack) :
    andThen f (Prod.map id pad p) = Prod.map id pad (andThen f p) := by
  rcases p with ⟨_ | a, stack⟩
  · rfl
  · exact hf a stack

theorem Transparent.evaluate (h : Transparent pad) (e : Expr) (stack : Stack) :
    Stack.evaluate e (pad stack) = Prod.map id pad (Stack.evaluate e stack) := by
  induction e generalizing stack with
  | literal => rfl
  | grouping _ ih => exact ih stack
  | «variable» name =>
    simp only [Stack.evaluate, h.lookup]
    split <;> rfl
  | assign name _ ih =>
    rw [Stack.evaluate, ih, andThen_pad, Stack.evaluate]
    intro value stack
    rw [h.assign]
    cases assign? name.lexeme value stack <;> rfl
  | unary _ _ ih =>
    rw [Stack.evaluate, ih, andThen_pad, Stack.evaluate]
    exact fun _ _ => rfl
  | binary _ _ _ ihLeft ihRight =>
    rw [Stack.evaluate, ihLeft, andThen_pad, Stack.evaluate]
    intro x stack
    rw [ihRight, andThen_pad]
    exact fun _ _ => rfl
  | logical _ operator _ ihLeft ihRight =>
    rw [Stack.evaluate, ihLeft, andThen_pad, Stack.evaluate]
    intro x stack
    rw [ihRight]
    split
    · split <;> rfl
    · split <;> rfl
    · rfl

end Stack

/-! ## Two machines -/

/-- On stacks that differ by the change, both come to the same result, and to such stacks again. -/
def InStep {α : Type} (pad : Stack → Stack) (scope scope' : ScopeId) (x y : Exec α) : Prop :=
  ∀ start m m' st, Mirrors start scope m { st with stack := pad st.stack } →
    Mirrors start scope' m' st →
    (x m).1 = (y m').1 ∧ ∃ st', Mirrors start scope (x m).2 { st' with stack := pad st'.stack } ∧
      Mirrors start scope' (y m').2 st'

section

variable {α β : Type} {pad : Stack → Stack} {scope scope' : ScopeId}

theorem inStep_pure (a : α) : InStep pad scope scope' (pure a) (pure a) :=
  fun _ _ _ st h h' => ⟨rfl, st, h, h'⟩

theorem InStep.bind {x y : Exec α} {f g : α → Exec β} (hx : InStep pad scope scope' x y)
    (hf : ∀ a, InStep pad scope scope' (f a) (g a)) :
    InStep pad scope scope' (x >>= f) (y >>= g) := by
  intro start m m' st h h'
  obtain ⟨heq, st₁, h₁, h₁'⟩ := hx start m m' st h h'
  rw [Exec.bind_apply, Exec.bind_apply]
  rcases hm : x m with ⟨r, m₁⟩
  rcases hm' : y m' with ⟨r', m₁'⟩
  rw [hm] at heq h₁
  rw [hm'] at heq h₁'
  obtain rfl : r = r' := heq
  cases r with
  | error stop => exact ⟨rfl, st₁, h₁, h₁'⟩
  | ok a => exact hf a start m₁ m₁' st₁ h₁ h₁'

theorem inStep_evaluate (hpad : Transparent pad) (e : Expr) :
    InStep pad scope scope' (Treewalk.evaluate scope e) (Treewalk.evaluate scope' e) := by
  intro start m m' st h h'
  obtain ⟨r, m₁, stack, hrun, hstack, h₁⟩ := h.evaluate e
  obtain ⟨r', m₁', stack', hrun', hstack', h₁'⟩ := h'.evaluate e
  rw [hpad.evaluate, hstack'] at hstack
  obtain ⟨rfl, rfl⟩ := Prod.mk.inj hstack
  rw [hrun, hrun']
  exact ⟨rfl, { st with stack := stack' }, h₁, h₁'⟩

theorem inStep_evaluatesTrue (hpad : Transparent pad) (e : Expr) :
    InStep pad scope scope' (evaluatesTrue scope e) (evaluatesTrue scope' e) := by
  rw [evaluatesTrue, evaluatesTrue, map_eq_pure_bind, map_eq_pure_bind]
  exact (inStep_evaluate hpad e).bind fun value => inStep_pure value.isTruthy

theorem inStep_print (value : Value) :
    InStep pad scope scope' (Exec.print value) (Exec.print value) :=
  fun _ _ _ st h h' =>
    ⟨rfl, ⟨st.stack, st.printed ++ (value.text ++ "\n")⟩, h.print value, h'.print value⟩

theorem inStep_define (htop : KeepsTop pad) (name : Token) (value : Value) :
    InStep pad scope scope' (Exec.define scope name value) (Exec.define scope' name value) := by
  intro start m m' st h h'
  have hdefined := h.define name value
  rw [htop] at hdefined
  exact ⟨rfl, { st with stack := Stack.define name.lexeme value st.stack }, hdefined,
    h'.define name value⟩

theorem InStep.whileTrue {test test' : Exec Bool} {body body' : Exec Unit}
    (htest : InStep pad scope scope' test test') (hbody : InStep pad scope scope' body body')
    (rounds : Nat) :
    InStep pad scope scope' (Exec.whileTrue test body rounds)
      (Exec.whileTrue test' body' rounds) := by
  induction rounds with
  | zero => exact fun _ _ _ st h h' => ⟨rfl, st, h, h'⟩
  | succ rounds ih =>
    rw [Exec.whileTrue_succ, Exec.whileTrue_succ]
    apply htest.bind
    intro again
    cases again with
    | true => exact hbody.bind fun _ => ih
    | false => exact inStep_pure ()

/-- Two blocks, whose scopes stand on top of the change. -/
theorem InStep.inBlock {body body' : ScopeId → Exec Unit}
    (h : ∀ inner inner', InStep (below pad) inner inner' (body inner) (body' inner'))
    (hbody : ∀ inner, Exec.Balanced (body inner)) (hbody' : ∀ inner, Exec.Balanced (body' inner)) :
    InStep pad scope scope' (Exec.inBlock scope body) (Exec.inBlock scope' body') := by
  intro start m m' st hm hm'
  obtain ⟨heq, st₁, h₁, h₁'⟩ := h m.scopes.next m'.scopes.next start (m.enter scope)
    (m'.enter scope') { st with stack := Names.empty :: st.stack } hm.enter hm'.enter
  obtain ⟨m₂, hblock, -, h₂⟩ := hm.exists_inBlock body (hbody _) rfl h₁
  obtain ⟨m₂', hblock', hne, h₂'⟩ := hm'.exists_inBlock body' (hbody' _) rfl h₁'
  rw [hblock, hblock']
  refine ⟨heq, _, ?_, h₂'⟩
  obtain ⟨names, outer, hstack⟩ := List.exists_cons_of_ne_nil hne
  rw [hstack] at h₂ ⊢
  exact h₂

/-- A block whose own scope stays empty, and the same without a block. -/
theorem InStep.emptyBlock {body : ScopeId → Exec Unit} {y : Exec Unit}
    (h : ∀ inner, InStep (Names.empty :: ·) inner scope' (body inner) y)
    (hbody : ∀ inner, Exec.Balanced (body inner)) :
    InStep id scope scope' (Exec.inBlock scope body) y := by
  intro start m m' st hm hm'
  obtain ⟨heq, st₁, h₁, h₁'⟩ := h m.scopes.next start (m.enter scope) m' st hm.enter hm'
  obtain ⟨m₂, hblock, -, h₂⟩ := hm.exists_inBlock body (hbody _) rfl h₁
  rw [hblock]
  exact ⟨heq, st₁, h₂, h₁'⟩

end

/-! ## Statements -/

mutual

theorem inStep_execute {pad : Stack → Stack} (hpad : Transparent pad) (fuel : Nat)
    (scope scope' : ScopeId) : ∀ s : Stmt, KeepsTop pad ∨ s.declared = [] →
      InStep pad scope scope' (execute fuel scope s) (execute fuel scope' s)
  | .expression e, _ => by
    rw [execute, execute]
    exact (inStep_evaluate hpad e).bind fun _ => inStep_pure ()
  | .print e, _ => by
    rw [execute, execute]
    exact (inStep_evaluate hpad e).bind inStep_print
  | .declare name none, h => by
    rw [execute, execute]
    exact inStep_define (h.resolve_right (by simp [Stmt.declared])) name .nil
  | .declare name (some e), h => by
    rw [execute, execute]
    have htop := h.resolve_right (by simp [Stmt.declared])
    exact (inStep_evaluate hpad e).bind (inStep_define htop name)
  | .ifThen condition yes, h => by
    rw [execute, execute]
    apply (inStep_evaluatesTrue hpad condition).bind
    intro test
    cases test with
    | true => exact inStep_execute hpad fuel scope scope' yes h
    | false => exact inStep_pure ()
  | .ifThenElse condition yes no, h => by
    rw [execute, execute]
    apply (inStep_evaluatesTrue hpad condition).bind
    intro test
    cases test with
    | true =>
      have hyes := h.imp_right fun hnone => (List.append_eq_nil_iff.mp hnone).1
      exact inStep_execute hpad fuel scope scope' yes hyes
    | false =>
      have hno := h.imp_right fun hnone => (List.append_eq_nil_iff.mp hnone).2
      exact inStep_execute hpad fuel scope scope' no hno
  | .loop condition body, h => by
    rw [execute, execute]
    exact (inStep_evaluatesTrue hpad condition).whileTrue
      (inStep_execute hpad fuel scope scope' body h) fuel
  | .block body, _ => by
    rw [execute, execute]
    apply InStep.inBlock
    · intro inner inner'
      exact inStep_executeAll hpad.below fuel inner inner' body (.inl (keepsTop_below pad))
    · exact fun inner => balanced_executeAll fuel inner body
    · exact fun inner => balanced_executeAll fuel inner body

theorem inStep_executeAll {pad : Stack → Stack} (hpad : Transparent pad) (fuel : Nat)
    (scope scope' : ScopeId) : ∀ stmts : List Stmt,
      KeepsTop pad ∨ stmts.flatMap Stmt.declared = [] →
      InStep pad scope scope' (executeAll fuel scope stmts) (executeAll fuel scope' stmts)
  | [], _ => by
    rw [executeAll, executeAll]
    exact inStep_pure ()
  | s :: rest, h => by
    rw [List.flatMap_cons, List.append_eq_nil_iff] at h
    rw [executeAll, executeAll]
    apply (inStep_execute hpad fuel scope scope' s (h.imp_right And.left)).bind
    intro _
    exact inStep_executeAll hpad fuel scope scope' rest (h.imp_right And.right)

end

/-! ## What is seen of a run -/

/-- Nothing is seen that differs: no output, no live scope and no binding. -/
structure Machine.LooksLike (m m' : Machine) : Prop where
  pending : m.takeOutput.1 = m'.takeOutput.1
  written : m.standardOutput = m'.standardOutput
  live : ∀ id, m.scopes.Live id ↔ m'.scopes.Live id
  bindings : ∀ id name, m.scopes.binding? id name = m'.scopes.binding? id name

namespace Scopes

variable {s s' : Scopes} {scope id : ScopeId}

/-- The bindings along a chain are those of its stack. -/
theorem binding?_eq_of_stack_eq (h : s.WellFormed) (h' : s'.WellFormed)
    (hshape : s'.shape = s.shape) (hstack : s'.stack scope = s.stack scope)
    (hid : s.OnChain scope id) (name : String) : s'.binding? id name = s.binding? id name := by
  obtain ⟨f, hf, rfl⟩ := hid
  have hpairs : (s'.chain scope).map (fun g => (g.id, g.bindings.get?)) =
      (s.chain scope).map fun g => (g.id, g.bindings.get?) := by
    rw [← List.zip_map', ← List.zip_map', map_id_chain hshape]
    exact congrArg _ hstack
  have hmem : (f.id, f.bindings.get?) ∈ (s'.chain scope).map fun g => (g.id, g.bindings.get?) := by
    rw [hpairs]
    exact List.mem_map_of_mem hf
  obtain ⟨g, hg, heq⟩ := List.mem_map.mp hmem
  obtain ⟨hgid, hget⟩ := Prod.mk.inj heq
  rw [← hgid, binding?_of_mem h' (mem_of_mem_chainIn hg), hget, hgid,
    binding?_of_mem h (mem_of_mem_chainIn hf)]

end Scopes

/-- Where a scope is live, what is seen from it is a stack. -/
theorem mirrors_of_live {m : Machine} (hwf : m.scopes.WellFormed) {scope : ScopeId}
    (hlive : m.scopes.Live scope) : Mirrors m scope m ⟨m.scopes.stack scope, ""⟩ where
  wellFormed := hwf
  known := by
    obtain ⟨f, hf, rfl⟩ := hlive
    exact hwf.fresh f hf
  stack := rfl
  pending := by simp
  written := by simp

/-- Two computations in step with each other that change nothing but what can be seen from their
scope, and bind no name there, leave machines between which there is no difference. -/
theorem InStep.looksLike {scope : ScopeId} {x y : Exec Unit} (h : InStep id scope scope x y)
    (hx : Exec.Confined scope [] x) (hy : Exec.Confined scope [] y) {m : Machine}
    (hwf : m.scopes.WellFormed) (hlive : m.scopes.Live scope) :
    (x m).1 = (y m).1 ∧ ((∀ a, (x m).1 ≠ .error (.abort a)) →
      (x m).2.LooksLike (y m).2 ∧ ∀ id, (x m).2.scopes.Live id ↔ m.scopes.Live id) := by
  have hstart := mirrors_of_live hwf hlive
  obtain ⟨heq, st, hmirrors, hmirrors'⟩ := h m m m ⟨m.scopes.stack scope, ""⟩ hstart hstart
  refine ⟨heq, fun hend => ?_⟩
  obtain ⟨hwf₁, hconfined⟩ := hx m hwf hend
  obtain ⟨hwf₂, hconfined'⟩ := hy m hwf (heq ▸ hend)
  have hshape := hconfined.keeps.shape.trans hconfined'.keeps.shape.symm
  refine ⟨⟨?_, ?_, fun id => ?_, fun id name => ?_⟩, fun id => ?_⟩
  · exact hmirrors.pending.trans hmirrors'.pending.symm
  · exact hmirrors.written.trans hmirrors'.written.symm
  · rw [Scopes.live_iff, Scopes.live_iff, hshape]
  · by_cases hon : m.scopes.OnChain scope id
    · have hon' := (Scopes.onChain_iff_of_shape hconfined'.keeps.shape).mpr hon
      have hstack := hmirrors.stack.trans hmirrors'.stack.symm
      exact Scopes.binding?_eq_of_stack_eq hwf₂ hwf₁ hshape hstack hon' name
    · rw [hconfined.values id hon, hconfined'.values id hon]
  · rw [Scopes.live_iff, hconfined.keeps.shape, ← Scopes.live_iff]

end Treewalk
