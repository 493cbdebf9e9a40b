import Treewalk.Proofs.Machine.Fuel
import Treewalk.Proofs.Stack.Mirror

/-!
# The machine refines the stack

A run on the machine and a run on the stack of its maps come to the same end.

* `executes_of_execute`: what ends on the machine ends in the same way on the stack.
* `exists_execute_of_executes`: what ends on the stack ends on the machine, given enough fuel.
* `interpret_refines_stack`: both for programs, from every machine that earlier runs may leave
  behind.
-/

namespace Treewalk

open Stack

/-! ## From the machine to the stack -/

section

variable {start m m' : Machine} {id : ScopeId} {st : State} {r : Except Stop Unit} {fuel : Nat}

/-- A loop, by induction on the rounds that it is allowed. -/
theorem executes_of_whileTrue {c : Expr} {body : Stmt}
    (hbody : ∀ {m m' : Machine} {st : State} {r : Except Stop Unit}, Mirrors start id m st →
      execute fuel id body m = (r, m') → r ≠ .error (.abort .outOfFuel) →
      ∃ st', Executes body st r st' ∧ Mirrors start id m' st') {rounds : Nat}
    (h : Mirrors start id m st)
    (hrun : Exec.whileTrue (evaluatesTrue id c) (execute fuel id body) rounds m = (r, m'))
    (hend : r ≠ .error (.abort .outOfFuel)) :
    ∃ st', Executes (.loop c body) st r st' ∧ Mirrors start id m' st' := by
  induction rounds generalizing m st with
  | zero =>
    cases hrun
    exact absurd rfl hend
  | succ rounds ih =>
    obtain ⟨test, m₁, stack, htest, hstack, h₁⟩ := h.evaluate c
    rw [Exec.whileTrue_succ, Exec.bind_apply, evaluatesTrue_apply htest] at hrun
    rcases test with reason | value
    · cases hrun
      exact ⟨_, .stop rfl hstack, h₁⟩
    · simp only [Except.map] at hrun
      cases htrue : value.isTruthy with
      | false =>
        rw [htrue] at hrun
        cases hrun
        exact ⟨_, .loopDone hstack htrue, h₁⟩
      | true =>
        rw [htrue, if_pos rfl, Exec.bind_apply] at hrun
        rcases hround : execute fuel id body m₁ with ⟨reason | _, m₂⟩
        · rw [hround] at hrun
          cases hrun
          obtain ⟨st', hexec, h₂⟩ := hbody h₁ hround hend
          exact ⟨st', .loopStop hstack htrue hexec, h₂⟩
        · rw [hround] at hrun
          obtain ⟨st₁, hexec, h₂⟩ := hbody h₁ hround (by simp)
          obtain ⟨st', hagain, h₃⟩ := ih h₂ hrun
          exact ⟨st', .loopAgain hstack htrue hexec hagain, h₃⟩

mutual

theorem executes_of_execute : ∀ (s : Stmt) {id : ScopeId} {m m' : Machine} {st : State}
    {r : Except Stop Unit}, Mirrors start id m st → execute fuel id s m = (r, m') →
    r ≠ .error (.abort .outOfFuel) → ∃ st', Executes s st r st' ∧ Mirrors start id m' st'
  | .expression e, id, m, m', st, r, h, hrun, _ => by
    obtain ⟨result, m₁, stack, heval, hstack, h₁⟩ := h.evaluate e
    rw [execute, Exec.bind_apply, heval] at hrun
    rcases result with reason | value <;> cases hrun
    · exact ⟨_, .stop rfl hstack, h₁⟩
    · exact ⟨_, .expression hstack, h₁⟩
  | .print e, id, m, m', st, r, h, hrun, _ => by
    obtain ⟨result, m₁, stack, heval, hstack, h₁⟩ := h.evaluate e
    rw [execute, Exec.bind_apply, heval] at hrun
    rcases result with reason | value <;> cases hrun
    · exact ⟨_, .stop rfl hstack, h₁⟩
    · exact ⟨_, .print hstack, h₁.print value⟩
  | .declare name none, id, m, m', st, r, h, hrun, _ => by
    rw [execute] at hrun
    cases hrun
    exact ⟨_, .declareNil, h.define name .nil⟩
  | .declare name (some e), id, m, m', st, r, h, hrun, _ => by
    obtain ⟨result, m₁, stack, heval, hstack, h₁⟩ := h.evaluate e
    rw [execute, Exec.bind_apply, heval] at hrun
    rcases result with reason | value <;> cases hrun
    · exact ⟨_, .stop rfl hstack, h₁⟩
    · exact ⟨_, .declare hstack, h₁.define name value⟩
  | .ifThen c yes, id, m, m', st, r, h, hrun, hend => by
    obtain ⟨test, m₁, stack, htest, hstack, h₁⟩ := h.evaluate c
    rw [execute, Exec.bind_apply, evaluatesTrue_apply htest] at hrun
    rcases test with reason | value
    · cases hrun
      exact ⟨_, .stop rfl hstack, h₁⟩
    · simp only [Except.map] at hrun
      cases htrue : value.isTruthy with
      | false =>
        rw [htrue] at hrun
        cases hrun
        exact ⟨_, .ifThenFalse hstack htrue, h₁⟩
      | true =>
        rw [htrue] at hrun
        obtain ⟨st', hexec, h₂⟩ := executes_of_execute yes h₁ hrun hend
        exact ⟨st', .ifThenTrue hstack htrue hexec, h₂⟩
  | .ifThenElse c yes no, id, m, m', st, r, h, hrun, hend => by
    obtain ⟨test, m₁, stack, htest, hstack, h₁⟩ := h.evaluate c
    rw [execute, Exec.bind_apply, evaluatesTrue_apply htest] at hrun
    rcases test with reason | value
    · cases hrun
      exact ⟨_, .stop rfl hstack, h₁⟩
    · simp only [Except.map] at hrun
      cases htrue : value.isTruthy with
      | false =>
        rw [htrue] at hrun
        obtain ⟨st', hexec, h₂⟩ := executes_of_execute no h₁ hrun hend
        exact ⟨st', .ifThenElseFalse hstack htrue hexec, h₂⟩
      | true =>
        rw [htrue] at hrun
        obtain ⟨st', hexec, h₂⟩ := executes_of_execute yes h₁ hrun hend
        exact ⟨st', .ifThenElseTrue hstack htrue hexec, h₂⟩
  | .loop c body, id, m, m', st, r, h, hrun, hend => by
    rw [execute] at hrun
    exact executes_of_whileTrue (fun h => executes_of_execute body h) h hrun hend
  | .block body, id, m, m', st, r, h, hrun, hend => by
    rw [execute] at hrun
    rcases hinner : executeAll fuel m.scopes.next body (m.enter id) with ⟨r', m₁⟩
    have hinnerEnd : r' ≠ .error (.abort .outOfFuel) := by
      rintro rfl
      rw [Exec.inBlock_apply, hinner] at hrun
      cases hrun
      exact hend rfl
    obtain ⟨st', hexec, h₁⟩ := executesAll_of_executeAll body h.enter hinner hinnerEnd
    obtain ⟨m₂, hblock, -, h₂⟩ := h.exists_inBlock (fun inner => executeAll fuel inner body)
      (balanced_executeAll fuel _ body) hinner h₁
    rw [hblock] at hrun
    cases hrun
    exact ⟨_, .block hexec, h₂⟩

theorem executesAll_of_executeAll : ∀ (stmts : List Stmt) {id : ScopeId} {m m' : Machine}
    {st : State} {r : Except Stop Unit}, Mirrors start id m st →
    executeAll fuel id stmts m = (r, m') → r ≠ .error (.abort .outOfFuel) →
    ∃ st', ExecutesAll stmts st r st' ∧ Mirrors start id m' st'
  | [], id, m, m', st, r, h, hrun, _ => by
    rw [executeAll] at hrun
    cases hrun
    exact ⟨st, .nil, h⟩
  | s :: rest, id, m, m', st, r, h, hrun, hend => by
    rw [executeAll, Exec.bind_apply] at hrun
    rcases hs : execute fuel id s m with ⟨reason | _, m₁⟩
    · rw [hs] at hrun
      cases hrun
      obtain ⟨st', hexec, h₁⟩ := executes_of_execute s h hs hend
      exact ⟨st', .stop hexec, h₁⟩
    · rw [hs] at hrun
      obtain ⟨st₁, hexec, h₁⟩ := executes_of_execute s h hs (by simp)
      obtain ⟨st', hrest, h₂⟩ := executesAll_of_executeAll rest h₁ hrun hend
      exact ⟨st', .cons hexec hrest, h₂⟩

end

end

/-! ## From the stack to the machine -/

section

theorem applyUnary_ne_outOfFuel (operator : Token) (x : Value) :
    applyUnary operator x ≠ .error (.abort .outOfFuel) := by
  unfold applyUnary
  split
  · simp
  · split <;> simp
  · simp

theorem applyBinary_ne_outOfFuel (operator : Token) (x y : Value) :
    applyBinary operator x y ≠ .error (.abort .outOfFuel) := by
  have hnumbers : ∀ f, onNumbers operator f x y ≠ .error (.abort .outOfFuel) := by
    intro f
    unfold onNumbers
    split <;> simp
  unfold applyBinary
  split
  case h_1 =>
    unfold sum
    split <;> simp
  all_goals first | exact hnumbers _ | simp

theorem andThen_ne {α β : Type} {stop : Stop} {k : α → Stack → Except Stop β × Stack}
    {p : Except Stop α × Stack} (hp : p.1 ≠ .error stop)
    (hk : ∀ a stack, (k a stack).1 ≠ .error stop) : (andThen k p).1 ≠ .error stop := by
  rcases p with ⟨reason | a, stack⟩
  · intro h
    cases h
    exact hp rfl
  · exact hk a stack

/-- Values are found without fuel. -/
theorem evaluate_ne_outOfFuel (e : Expr) (stack : Stack) :
    (Stack.evaluate e stack).1 ≠ .error (.abort .outOfFuel) := by
  induction e generalizing stack with
  | literal => simp [Stack.evaluate]
  | grouping _ ih => exact ih stack
  | «variable» =>
    unfold Stack.evaluate
    split <;> simp
  | assign _ _ ih =>
    apply andThen_ne (ih stack)
    intro value stack
    split <;> simp
  | unary operator _ ih =>
    exact andThen_ne (ih stack) fun x _ => applyUnary_ne_outOfFuel operator x
  | binary _ operator _ ihLeft ihRight =>
    apply andThen_ne (ihLeft stack)
    intro x stack
    apply andThen_ne (ihRight stack)
    intro y _
    exact applyBinary_ne_outOfFuel operator x y
  | logical _ operator _ ihLeft ihRight =>
    apply andThen_ne (ihLeft stack)
    intro x stack
    split
    · split
      · simp
      · exact ihRight stack
    · split
      · exact ihRight stack
      · simp
    · simp

mutual

theorem Stack.Executes.ne_outOfFuel {s : Stmt} {st st' : State} {r : Except Stop Unit} :
    Executes s st r st' → r ≠ .error (.abort .outOfFuel)
  | .stop _ h => by
    rintro ⟨⟩
    exact evaluate_ne_outOfFuel _ _ (by rw [h])
  | .expression _ | .print _ | .declareNil | .declare _ | .ifThenFalse _ _ | .loopDone _ _ => by
    simp
  | .ifThenTrue _ _ h | .ifThenElseTrue _ _ h | .ifThenElseFalse _ _ h | .loopStop _ _ h
  | .loopAgain _ _ _ h => h.ne_outOfFuel
  | .block h => h.ne_outOfFuel

theorem Stack.ExecutesAll.ne_outOfFuel {stmts : List Stmt} {st st' : State}
    {r : Except Stop Unit} : ExecutesAll stmts st r st' → r ≠ .error (.abort .outOfFuel)
  | .nil => by simp
  | .stop h => h.ne_outOfFuel
  | .cons _ h => h.ne_outOfFuel

end

/-- A statement stops with the expression that it begins with. -/
theorem execute_of_stop {s : Stmt} {e : Expr} {id : ScopeId} {m m' : Machine} {reason : Stop}
    (hfirst : first? s = some e) (h : Treewalk.evaluate id e m = (.error reason, m')) :
    execute 1 id s m = (.error reason, m') := by
  cases s with
  | block => cases hfirst
  | declare name initializer =>
    cases initializer <;> cases hfirst
    rw [execute, Exec.bind_apply, h]
  | expression | print =>
    cases hfirst
    rw [execute, Exec.bind_apply, h]
  | ifThen | ifThenElse =>
    cases hfirst
    rw [execute, Exec.bind_apply, evaluatesTrue_apply h]
    rfl
  | loop =>
    cases hfirst
    rw [execute, Exec.whileTrue_succ, Exec.bind_apply, evaluatesTrue_apply h]
    rfl

theorem Mirrors.evaluate_eq {start m : Machine} {id : ScopeId} {st : State}
    (h : Mirrors start id m st) {e : Expr} {r : Except Stop Value} {stack : Stack}
    (hstack : Stack.evaluate e st.stack = (r, stack)) :
    ∃ m', Treewalk.evaluate id e m = (r, m') ∧ Mirrors start id m' { st with stack } := by
  obtain ⟨r', m', stack', heval, hstack', h'⟩ := h.evaluate e
  cases hstack'.symm.trans hstack
  exact ⟨m', heval, h'⟩

theorem Mirrors.evaluatesTrue_eq {start m : Machine} {id : ScopeId} {st : State}
    (h : Mirrors start id m st) {c : Expr} {value : Value} {stack : Stack}
    (hstack : Stack.evaluate c st.stack = (.ok value, stack)) {test : Bool}
    (htest : value.isTruthy = test) :
    ∃ m', evaluatesTrue id c m = (.ok test, m') ∧ Mirrors start id m' { st with stack } := by
  obtain ⟨m', heval, h'⟩ := h.evaluate_eq hstack
  exact ⟨m', by rw [evaluatesTrue_apply heval, ← htest]; rfl, h'⟩

mutual

theorem exists_execute_of_executes {start : Machine} {s : Stmt} {st st' : State}
    {r : Except Stop Unit} : Executes s st r st' →
    ∀ {id : ScopeId} {m : Machine}, Mirrors start id m st →
      ∃ fuel m', execute fuel id s m = (r, m') ∧ Mirrors start id m' st'
  | .stop hfirst hstack, id, m, h => by
    obtain ⟨m', heval, h'⟩ := h.evaluate_eq hstack
    exact ⟨1, m', execute_of_stop hfirst heval, h'⟩
  | .expression hstack, id, m, h => by
    obtain ⟨m', heval, h'⟩ := h.evaluate_eq hstack
    exact ⟨0, m', by rw [execute, Exec.bind_apply, heval]; rfl, h'⟩
  | @Executes.print e st value stack hstack, id, m, h => by
    obtain ⟨m', heval, h'⟩ := h.evaluate_eq hstack
    exact ⟨0, m'.print value, by rw [execute, Exec.bind_apply, heval]; rfl, h'.print value⟩
  | @Executes.declareNil name st, id, m, h =>
    ⟨0, _, by rw [execute]; rfl, h.define name .nil⟩
  | @Executes.declare name e st value stack hstack, id, m, h => by
    obtain ⟨m', heval, h'⟩ := h.evaluate_eq hstack
    exact ⟨0, _, by rw [execute, Exec.bind_apply, heval]; rfl, h'.define name value⟩
  | .ifThenTrue hstack htest hyes, id, m, h => by
    obtain ⟨m₁, heval, h₁⟩ := h.evaluatesTrue_eq hstack htest
    obtain ⟨fuel, m', hrun, h'⟩ := exists_execute_of_executes hyes h₁
    exact ⟨fuel, m', by rw [execute, Exec.bind_apply, heval]; exact hrun, h'⟩
  | .ifThenFalse hstack htest, id, m, h => by
    obtain ⟨m', heval, h'⟩ := h.evaluatesTrue_eq hstack htest
    exact ⟨0, m', by rw [execute, Exec.bind_apply, heval]; rfl, h'⟩
  | .ifThenElseTrue hstack htest hyes, id, m, h => by
    obtain ⟨m₁, heval, h₁⟩ := h.evaluatesTrue_eq hstack htest
    obtain ⟨fuel, m', hrun, h'⟩ := exists_execute_of_executes hyes h₁
    exact ⟨fuel, m', by rw [execute, Exec.bind_apply, heval]; exact hrun, h'⟩
  | .ifThenElseFalse hstack htest hno, id, m, h => by
    obtain ⟨m₁, heval, h₁⟩ := h.evaluatesTrue_eq hstack htest
    obtain ⟨fuel, m', hrun, h'⟩ := exists_execute_of_executes hno h₁
    exact ⟨fuel, m', by rw [execute, Exec.bind_apply, heval]; exact hrun, h'⟩
  | .loopDone hstack htest, id, m, h => by
    obtain ⟨m', heval, h'⟩ := h.evaluatesTrue_eq hstack htest
    exact ⟨1, m', by rw [execute, Exec.whileTrue_succ, Exec.bind_apply, heval]; rfl, h'⟩
  | .loopStop hstack htest hbody, id, m, h => by
    obtain ⟨m₁, heval, h₁⟩ := h.evaluatesTrue_eq hstack htest
    obtain ⟨fuel, m', hrun, h'⟩ := exists_execute_of_executes hbody h₁
    refine ⟨fuel + 1, m', ?_, h'⟩
    have hbody' := (settles_execute (Nat.le_succ fuel) id _).run hrun hbody.ne_outOfFuel
    rw [execute, Exec.whileTrue_succ, Exec.bind_apply, heval]
    simp only [if_true, Exec.bind_apply, hbody']
  | .loopAgain hstack htest hbody hagain, id, m, h => by
    obtain ⟨m₁, heval, h₁⟩ := h.evaluatesTrue_eq hstack htest
    obtain ⟨fuel, m₂, hrun, h₂⟩ := exists_execute_of_executes hbody h₁
    obtain ⟨fuel', m', hrun', h'⟩ := exists_execute_of_executes hagain h₂
    -- Enough fuel for this round and for those that follow.
    refine ⟨max fuel fuel' + 1, m', ?_, h'⟩
    have hbody' := (settles_execute (Nat.le_succ_of_le (Nat.le_max_left fuel fuel')) id _).run
      hrun (by simp)
    rw [execute] at hrun'
    have hagain' := (settles_whileTrue (Nat.le_succ_of_le (Nat.le_max_right fuel fuel'))
      (Nat.le_max_right fuel fuel') _ _).run hrun' hagain.ne_outOfFuel
    rw [execute, Exec.whileTrue_succ, Exec.bind_apply, heval]
    simp only [if_true, Exec.bind_apply, hbody', hagain']
  | .block hbody, id, m, h => by
    obtain ⟨fuel, m₁, hrun, h₁⟩ := exists_executeAll_of_executesAll hbody h.enter
    obtain ⟨m', hblock, -, h'⟩ := h.exists_inBlock (fun inner => executeAll fuel inner _)
      (balanced_executeAll fuel _ _) hrun h₁
    exact ⟨fuel, m', by rw [execute]; exact hblock, h'⟩

theorem exists_executeAll_of_executesAll {start : Machine} {stmts : List Stmt} {st st' : State}
    {r : Except Stop Unit} : ExecutesAll stmts st r st' →
    ∀ {id : ScopeId} {m : Machine}, Mirrors start id m st →
      ∃ fuel m', executeAll fuel id stmts m = (r, m') ∧ Mirrors start id m' st'
  | .nil, id, m, h => ⟨0, m, by rw [executeAll]; rfl, h⟩
  | .stop hs, id, m, h => by
    obtain ⟨fuel, m', hrun, h'⟩ := exists_execute_of_executes hs h
    exact ⟨fuel, m', by rw [executeAll, Exec.bind_apply, hrun], h'⟩
  | .cons hs hrest, id, m, h => by
    obtain ⟨fuel, m₁, hrun, h₁⟩ := exists_execute_of_executes hs h
    obtain ⟨fuel', m', hrun', h'⟩ := exists_executeAll_of_executesAll hrest h₁
    refine ⟨max fuel fuel', m', ?_, h'⟩
    have hs' := (settles_execute (Nat.le_max_left fuel fuel') id _).run hrun (by simp)
    have hrest' := (settles_executeAll (Nat.le_max_right fuel fuel') id _).run hrun'
      hrest.ne_outOfFuel
    rw [executeAll, Exec.bind_apply, hs']
    exact hrest'

end

end

/-! ## Programs -/

/-- The names that are bound globally. -/
def Machine.globals (m : Machine) : Names := fun name =>
  (m.scopes.frames.find? fun f => f.id = Scopes.globals).bind fun f => f.bindings.get? name

theorem stack_globals {m : Machine} (h : m.scopes.WellFormed) :
    m.scopes.stack Scopes.globals = [m.globals] := by
  obtain ⟨g, hchain, hfind⟩ := h.chain_globals
  rw [Scopes.stack, hchain, List.map_singleton]
  congr 1
  funext name
  rw [Machine.globals, hfind, Option.bind_some]

/-- Since the machine `m`, as much has been printed as in the state `st`, and the globals are now
those of the state. -/
structure Shows (m m' : Machine) (st : State) : Prop where
  globals : st.stack = [m'.globals]
  pending : m'.takeOutput.1 = m.takeOutput.1 ++ st.printed
  written : m'.standardOutput = m.standardOutput ++ st.printed

theorem mirrors_start {m : Machine} (h : m.scopes.WellFormed) :
    Mirrors m Scopes.globals m ⟨[m.globals], ""⟩ :=
  ⟨h, h.globals_lt_next, stack_globals h, by simp, by simp⟩

theorem Mirrors.shows {m m' : Machine} {st : State} (h : Mirrors m Scopes.globals m' st) :
    Shows m m' st :=
  ⟨by rw [← h.stack, stack_globals h.wellFormed], h.pending, h.written⟩

theorem Shows.unique {m m' : Machine} {st st' : State} (h : Shows m m' st) (h' : Shows m m' st') :
    st = st' := by
  obtain ⟨stack, printed⟩ := st
  obtain ⟨stack', printed'⟩ := st'
  obtain rfl : stack = stack' := h.globals.trans h'.globals.symm
  have hprinted := h.pending.symm.trans h'.pending
  rw [String.append_right_inj] at hprinted
  exact congrArg (State.mk stack) hprinted

/-- From a machine that earlier runs left behind, a run of a program that ends has the outcome, the
output and the globals that the stack gives the program, and no other; and it ends if it does on the
stack. -/
theorem interpret_refines_stack {m : Machine} (hm : m.Reachable) (stmts : List Stmt) :
    (∀ (fuel : Nat) (r : Except Stop Unit) (m' : Machine), interpret fuel stmts m = (r, m') →
      r ≠ .error (.abort .outOfFuel) → ∃ st', Shows m m' st' ∧
        ∀ r₂ st₂, ExecutesAll stmts ⟨[m.globals], ""⟩ r₂ st₂ ↔ r₂ = r ∧ st₂ = st') ∧
    ∀ (r : Except Stop Unit) (st' : State), ExecutesAll stmts ⟨[m.globals], ""⟩ r st' →
      r ≠ .error (.abort .outOfFuel) ∧ ∃ fuel m', interpret fuel stmts m = (r, m') := by
  have hstart := mirrors_start hm.wellFormed
  constructor
  · intro fuel r m' hrun hend
    obtain ⟨st', hexec, h'⟩ := executesAll_of_executeAll stmts hstart hrun hend
    refine ⟨st', h'.shows, ?_⟩
    intro r₂ st₂
    constructor
    · intro h₂
      -- Two runs on the stack are two runs of the machine, which agree with enough fuel.
      obtain ⟨fuel₂, m₂, hrun₂, hmirrors₂⟩ := exists_executeAll_of_executesAll h₂ hstart
      have hmax := interpret_of_le hrun hend (Nat.le_max_left fuel fuel₂)
      have hmax₂ := interpret_of_le hrun₂ h₂.ne_outOfFuel (Nat.le_max_right fuel fuel₂)
      obtain ⟨rfl, rfl⟩ := Prod.mk.inj (hmax.symm.trans hmax₂)
      exact ⟨rfl, hmirrors₂.shows.unique h'.shows⟩
    · rintro ⟨rfl, rfl⟩
      exact hexec
  · intro r st' h
    obtain ⟨fuel, m', hrun, -⟩ := exists_executeAll_of_executesAll h hstart
    exact ⟨h.ne_outOfFuel, fuel, m', hrun⟩

/-- So it is behind an abort that has left the scope of a block undropped. -/
theorem refines_stack_behind_abort :
    ∃ m : Machine, m.Reachable ∧ m.scopes.size = 2 ∧
      ∃ st', Shows m (interpret 1 [.print (.literal .nil)] m).2 st' ∧
        ExecutesAll [.print (.literal .nil)] ⟨[m.globals], ""⟩ (.ok ()) st' := by
  have hreachable := Machine.Reachable.initial.interpret 1
    [.block [.expression (.unary ⟨.mark .plus, "+", 1⟩ (.literal .nil))]] (nomatch ·)
  refine ⟨_, hreachable, by decide, ?_⟩
  obtain ⟨st', hshows, hexec⟩ := (interpret_refines_stack hreachable [.print (.literal .nil)]).1 1
    (.ok ()) _ rfl (by simp)
  exact ⟨st', hshows, (hexec _ _).mpr ⟨rfl, rfl⟩⟩

end Treewalk
