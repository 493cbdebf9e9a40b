import Treewalk.Proofs.Grammar.Acceptance
import Treewalk.Proofs.Machine.Stops
import Treewalk.Proofs.Stack.Transparent

/-!
# Loops with clauses

There is no tree for `for`: the parser makes a loop of it, the increment and the body in a block,
and that loop in another block behind the initializer. `ForLoop.run` is what a `for` statement means
by itself. It has one scope at most, in which all of its clauses and its body run.

The block around body and increment does not show, since a statement declares no name in the scope
in which it runs (`Statement.declared_eq_nil`); so its scope stays empty, and what is seen from
inside is what is seen from outside (`InStep.emptyBlock`).

* `Statement.exists_forLoop`: what the grammar takes for a `for` statement is spelled by its
  clauses, and has their tree.
* `Program.for_runs_by_its_clauses`: the tree that the parser returns runs as the clauses do.
-/

namespace Treewalk

open Grammar

/-- The clauses of a `for` statement, each of which may be left out, and its body. -/
structure ForLoop where
  initializer : Option Stmt
  condition : Option Expr
  increment : Option Expr
  body : Stmt

namespace ForLoop

variable {l : ForLoop}

/-! ## Spelling -/

/-- `(variableDeclaration | expressionStatement | ';')` -/
def SpellsFirst (g : Rules) (ts : List Token) : Option Stmt → Prop
  | none => ∃ semicolon : Token, semicolon.kind = .mark .semicolon ∧ ts = [semicolon]
  | some first => VariableDeclaration g ts first ∨ ExpressionStatement g ts first

/-- `expression?` -/
def SpellsClause (g : Rules) (ts : List Token) : Option Expr → Prop
  | none => ts = []
  | some e => Expression g .assignment ts e

/-- `'for' '(' initializer condition? ';' increment? ')' statement` -/
inductive Spells (g : Rules) (hanging : Bool) (l : ForLoop) : List Token → Prop
  | intro {keyword opening semicolon closing : Token} {is cs ns bs : List Token}
      (hk : keyword.kind = .keyword .kwFor) (hopen : opening.kind = .mark .leftParen)
      (hi : SpellsFirst g is l.initializer) (hc : SpellsClause g cs l.condition)
      (hs : semicolon.kind = .mark .semicolon) (hn : SpellsClause g ns l.increment)
      (hclose : closing.kind = .mark .rightParen) (hbody : Statement g hanging bs l.body) :
      Spells g hanging l (keyword :: opening :: (is ++ (cs ++ semicolon :: (ns ++ closing :: bs))))

/-- The tree that the parser builds. -/
def tree (l : ForLoop) : Stmt :=
  Parser.forLoop l.initializer l.condition l.increment l.body

end ForLoop

theorem Grammar.Statement.exists_forLoop {g : Rules} {hanging : Bool} {ts : List Token} {s : Stmt}
    (h : Statement g hanging ts s) (hfor : Parser.Starts (Token.isKeyword .kwFor) ts) :
    ∃ l : ForLoop, l.Spells g hanging ts ∧ s = l.tree := by
  have hnot : ∀ {t : Token} {rest : List Token}, ts = t :: rest →
      t.kind ≠ .keyword .kwFor → False := by
    rintro t rest rfl hk
    exact hk (Token.isKeyword_iff.mp ((Parser.starts_cons _ _ _).mp hfor))
  cases h with
  | expression h =>
    obtain ⟨t, rest, hts, hopens⟩ := h.head
    exact (hnot hts fun hk => by rw [hk] at hopens; cases hopens).elim
  | print hk | loop hk | ifThen hk | ifThenElse hk | block hk =>
    exact (hnot rfl (by rw [hk]; simp)).elim
  | @forLoop keyword opening semicolon closing is cs ns bs c body round _ _ hk hopen hi hc hs hn
      hclose hbody =>
    obtain ⟨condition, hcs, hcondition⟩ : ∃ condition, ForLoop.SpellsClause g cs condition ∧
        c = condition.getD (.literal (.bool true)) := by
      cases hc with
      | always => exact ⟨none, rfl, rfl⟩
      | given h => exact ⟨some c, h, rfl⟩
    obtain ⟨increment, hns, hincrement⟩ : ∃ increment, ForLoop.SpellsClause g ns increment ∧
        round = increment.elim body fun e => .block [body, .expression e] := by
      cases hn with
      | absent => exact ⟨none, rfl, rfl⟩
      | @given _ e _ h => exact ⟨some e, h, rfl⟩
    obtain ⟨initializer, his, hwhole⟩ : ∃ initializer, ForLoop.SpellsFirst g is initializer ∧
        s = initializer.elim (.loop c round) fun first => .block [first, .loop c round] := by
      cases hi with
      | @absent semicolon _ h => exact ⟨none, ⟨semicolon, h, rfl⟩, rfl⟩
      | @«variable» _ first _ h => exact ⟨some first, .inl h, rfl⟩
      | @expression _ first _ h => exact ⟨some first, .inr h, rfl⟩
    refine ⟨⟨initializer, condition, increment, body⟩,
      .intro hk hopen his hcs hs hns hclose hbody, ?_⟩
    rw [ForLoop.tree, Grammar.forLoop_eq, ← hcondition, ← hincrement, hwhole]

/-- Statements that are no declarations bind no name in the scope in which they run. -/
theorem Grammar.Statement.declared_eq_nil {g : Rules} : ∀ {hanging : Bool} {ts : List Token}
    {s : Stmt}, Statement g hanging ts s → s.declared = []
  | _, _, _, .expression h => by
    cases h
    rfl
  | _, _, _, .print _ _ _ | _, _, _, .block _ _ _ => rfl
  | _, _, _, .loop _ _ _ _ hbody => hbody.declared_eq_nil
  | _, _, _, .ifThen _ _ _ _ hyes => hyes.declared_eq_nil
  | _, _, _, .ifThenElse _ _ _ _ hyes _ _ hno => by
    rw [Stmt.declared, hyes.declared_eq_nil, hno.declared_eq_nil, List.nil_append]
  | _, _, _, .forLoop _ _ hi _ _ hn _ hbody => by
    cases hi with
    | «variable» | expression => rfl
    | absent =>
      cases hn with
      | given => rfl
      | absent => exact hbody.declared_eq_nil

theorem ForLoop.Spells.declared_body {g : Rules} {hanging : Bool} {ts : List Token} {l : ForLoop}
    (h : l.Spells g hanging ts) : l.body.declared = [] := by
  cases h with
  | intro _ _ _ _ _ _ _ hbody => exact hbody.declared_eq_nil

namespace ForLoop

/-! ## Running by the clauses -/

/-- Whether there is another round: always, if there is no condition. -/
def test (l : ForLoop) (scope : ScopeId) : Exec Bool :=
  match l.condition with
  | none => pure true
  | some c => evaluatesTrue scope c

/-- The body, and the increment behind it. -/
def round (l : ForLoop) (fuel : Nat) (scope : ScopeId) : Exec Unit :=
  match l.increment with
  | none => execute fuel scope l.body
  | some e => do
    execute fuel scope l.body
    let _ ← evaluate scope e

/-- All rounds, in one scope. -/
def rounds (l : ForLoop) (fuel : Nat) (scope : ScopeId) : Exec Unit :=
  Exec.whileTrue (l.test scope) (l.round fuel scope) fuel

/-- The initializer is executed once, in a scope that is opened for the loop and dropped behind it.
Without an initializer, no scope is opened. -/
def run (l : ForLoop) (fuel : Nat) (scope : ScopeId) : Exec Unit :=
  match l.initializer with
  | none => l.rounds fuel scope
  | some first => Exec.inBlock scope fun inner => do
    execute fuel inner first
    l.rounds fuel inner

theorem test_eq (l : ForLoop) (scope : ScopeId) :
    l.test scope = evaluatesTrue scope (l.condition.getD (.literal (.bool true))) := by
  unfold test
  cases l.condition <;> rfl

/-! ## Beside its tree -/

/-- The loop in the tree, without the initializer. -/
def loop (l : ForLoop) : Stmt :=
  .loop (l.condition.getD (.literal (.bool true)))
    (l.increment.elim l.body fun e => .block [l.body, .expression e])

theorem tree_eq (l : ForLoop) :
    l.tree = l.initializer.elim l.loop fun first => .block [first, l.loop] :=
  Grammar.forLoop_eq _ _ _ _

variable {l : ForLoop} {fuel : Nat} {scope scope' : ScopeId}

theorem inStep_round (h : l.body.declared = []) :
    InStep id scope scope'
      (execute fuel scope (l.increment.elim l.body fun e => .block [l.body, .expression e]))
      (l.round fuel scope') := by
  unfold round
  cases l.increment with
  | none => exact inStep_execute Stack.transparent_id fuel scope scope' l.body (.inr h)
  | some e =>
    rw [Option.elim_some, execute]
    -- Neither the body nor the increment binds a name, so the scope of the block stays empty.
    apply InStep.emptyBlock
    · intro inner
      have hpad := Stack.transparent_empty
      simp only [executeAll, execute, bind_pure_unit]
      apply (inStep_execute hpad fuel inner scope' l.body (.inr h)).bind
      intro _
      exact (inStep_evaluate hpad e).bind fun _ => inStep_pure ()
    · exact fun inner => balanced_executeAll fuel inner _

theorem inStep_rounds (h : l.body.declared = []) :
    InStep id scope scope' (execute fuel scope l.loop) (l.rounds fuel scope') := by
  rw [loop, execute, rounds, test_eq]
  exact (inStep_evaluatesTrue Stack.transparent_id _).whileTrue (inStep_round h) fuel

theorem every_body {P : Role → Token → Prop} (h : l.tree.Every P) : l.body.Every P := by
  obtain ⟨initializer, _, increment, _⟩ := l
  cases initializer <;> cases increment <;>
    simp only [tree_eq, loop, Option.elim, Stmt.Every, Stmt.EveryOf] at h <;> simp only [h]

theorem balanced_rounds (l : ForLoop) (fuel : Nat) (scope : ScopeId) :
    Exec.Balanced (l.rounds fuel scope) := by
  have htest : Exec.Balanced (l.test scope) := by
    rw [test_eq, evaluatesTrue, map_eq_pure_bind]
    exact (balanced_evaluate scope _).bind fun _ => Exec.balanced_pure _
  have hround : Exec.Balanced (l.round fuel scope) := by
    unfold round
    cases l.increment with
    | none => exact balanced_execute fuel scope l.body
    | some e =>
      apply (balanced_execute fuel scope l.body).bind
      intro _
      exact (balanced_evaluate scope e).bind fun _ => Exec.balanced_pure ()
  exact htest.whileTrue hround fuel

theorem inStep_run (h : l.body.declared = []) :
    InStep id scope scope (execute fuel scope l.tree) (l.run fuel scope) := by
  unfold run
  rw [tree_eq]
  cases l.initializer with
  | none => exact inStep_rounds h
  | some first =>
    rw [Option.elim_some, execute]
    apply InStep.inBlock
    · intro inner inner'
      rw [Stack.below_id]
      simp only [executeAll, bind_pure_unit]
      have hpad := Stack.transparent_id
      apply (inStep_execute hpad fuel inner inner' first (.inl Stack.keepsTop_id)).bind
      intro _
      exact inStep_rounds h
    · exact fun inner => balanced_executeAll fuel inner _
    · intro inner
      exact (balanced_execute fuel inner first).bind fun _ => l.balanced_rounds fuel inner

theorem confined_rounds (h : l.body.declared = []) (fuel : Nat) (scope : ScopeId) :
    Exec.Confined scope [] (l.rounds fuel scope) := by
  have hbody := confined_execute fuel scope l.body
  rw [h] at hbody
  have htest : Exec.Confined scope [] (l.test scope) := by
    rw [test_eq]
    exact confined_evaluatesTrue scope _
  have hround : Exec.Confined scope [] (l.round fuel scope) := by
    unfold round
    cases l.increment with
    | none => exact hbody
    | some e =>
      apply hbody.bind
      intro _
      exact (confined_evaluate scope e).bind fun _ => Exec.confined_pure ()
  exact htest.whileTrue hround fuel

/-- Only the scope of the loop can gain a name, that of the initializer. -/
theorem confined_run (h : l.body.declared = []) (fuel : Nat) (scope : ScopeId) :
    Exec.Confined scope [] (l.run fuel scope) := by
  unfold run
  cases l.initializer with
  | none => exact confined_rounds h fuel scope
  | some first =>
    apply Exec.Confined.inBlock
    intro inner
    apply (confined_execute fuel inner first).bind
    intro _
    exact (confined_rounds h fuel inner).mono (List.nil_subset _)

end ForLoop

/-! ## Parsed loops -/

theorem Grammar.Declarations.exists_statement {g : Rules} {ts : List Token} {s : Stmt}
    (h : Declarations g ts [s]) (hfor : Parser.Starts (Token.isKeyword .kwFor) ts) :
    ∃ hanging, Statement g hanging ts s := by
  cases h with
  | «variable» h hrest =>
    cases hrest
    obtain ⟨t, tail, rfl, hk⟩ := h.head
    rw [List.append_nil, Parser.starts_cons, Token.isKeyword_iff, hk] at hfor
    cases hfor
  | @statement _ _ _ _ hanging h hrest =>
    cases hrest
    exact ⟨hanging, (List.append_nil _).symm ▸ h⟩

/-- A `for` statement that has no syntax errors has the tree of its clauses, and wherever a run may
come upon it, the tree does what the clauses do: it ends alike, and leaves no difference that could
be seen, nor any scope of its own. The body binds no name in the scope in which it runs. -/
theorem Program.for_runs_by_its_clauses {tokens : List Token} {s : Stmt}
    (herrors : (ofTokens tokens).errors = []) (hs : (ofTokens tokens).statements = [s])
    (hfor : Parser.Starts (Token.isKeyword .kwFor) tokens) :
    ∃ (l : ForLoop) (hanging : Bool),
      l.Spells .nearest hanging (tokens.takeWhile (!·.isEof)) ∧ s = l.tree ∧
      ∀ m : Machine, m.Visited → ∀ scope, m.scopes.Live scope → ∀ fuel,
        (execute fuel scope s m).1 = (l.run fuel scope m).1 ∧
        ((execute fuel scope s m).1 ≠ .error (.abort .outOfFuel) →
          (∀ a, (execute fuel scope s m).1 ≠ .error (.abort a)) ∧
          (execute fuel scope s m).2.LooksLike (l.run fuel scope m).2 ∧
          ∀ id, (execute fuel scope s m).2.scopes.Live id ↔ m.scopes.Live id) ∧
        ((execute fuel scope l.body m).1 ≠ .error (.abort .outOfFuel) →
          ∀ id name, (execute fuel scope l.body m).2.scopes.Binds id name ↔
            m.scopes.Binds id name) := by
  have hfits := statements_fit tokens s (by simp [hs])
  have hfor' : Parser.Starts (Token.isKeyword .kwFor) (tokens.takeWhile (!·.isEof)) := by
    cases tokens with
    | nil => exact hfor
    | cons t ts =>
      rw [Parser.starts_cons] at hfor
      have hk := Token.isKeyword_iff.mp hfor
      rw [List.takeWhile_cons_of_pos (by simp [Token.isEof, hk]), Parser.starts_cons]
      exact hfor
  have hderived := declarations_nearest_iff.mpr ⟨herrors, hs⟩
  obtain ⟨hanging, hstatement⟩ := hderived.exists_statement hfor'
  have hdeclared := hstatement.declared_eq_nil
  obtain ⟨l, hspells, rfl⟩ := hstatement.exists_forLoop hfor'
  have hbody := hspells.declared_body
  refine ⟨l, hanging, hspells, rfl, fun m hm scope hlive fuel => ?_⟩
  have htree := confined_execute fuel scope l.tree
  rw [hdeclared] at htree
  obtain ⟨houtcome, hlooks⟩ := (ForLoop.inStep_run hbody).looksLike htree
    (ForLoop.confined_run hbody fuel scope) hm.wellFormed hlive
  refine ⟨houtcome, fun hend => ?_, fun hend => ?_⟩
  · have hend' : ∀ a, (execute fuel scope l.tree m).1 ≠ .error (.abort a) := fun a ha =>
      hend (execute_abort_eq_outOfFuel hfits ha ▸ ha)
    exact ⟨hend', hlooks hend'⟩
  · have hrun := confined_execute fuel scope l.body m hm.wellFormed fun a ha =>
      hend (execute_abort_eq_outOfFuel (ForLoop.every_body hfits) ha ▸ ha)
    rw [hbody] at hrun
    exact hrun.2.binds_iff

namespace Program

/-- In `for (var a = true; a; a = false) print a;`, the body sees what the increment assigns. -/
theorem for_prints_one_line :
    let a : Token := ⟨.identifier, "a", 1⟩
    let semicolon : Token := ⟨.mark .semicolon, ";", 1⟩
    let equal : Token := ⟨.mark .equal, "=", 1⟩
    let tokens : List Token := [⟨.keyword .kwFor, "for", 1⟩, ⟨.mark .leftParen, "(", 1⟩,
      ⟨.keyword .kwVar, "var", 1⟩, a, equal, ⟨.keyword .kwTrue, "true", 1⟩, semicolon,
      a, semicolon, a, equal, ⟨.keyword .kwFalse, "false", 1⟩, ⟨.mark .rightParen, ")", 1⟩,
      ⟨.keyword .kwPrint, "print", 1⟩, a, semicolon]
    ∃ (l : ForLoop) (hanging : Bool), l.Spells .nearest hanging tokens ∧
      (l.run 2 Scopes.globals .initial).1 = .ok () ∧
      (l.run 2 Scopes.globals .initial).2.standardOutput = "true\n" := by
  intro a semicolon equal tokens
  have herrors : (ofTokens tokens).errors = [] := by decide +kernel
  have hlength : (ofTokens tokens).statements.length = 1 := by decide +kernel
  have hends : (interpret 2 (ofTokens tokens).statements .initial).1 = .ok () := by decide +kernel
  have hprints :
      (interpret 2 (ofTokens tokens).statements .initial).2.standardOutput = "true\n" := by
    decide +kernel
  obtain ⟨s, hs⟩ := List.length_eq_one_iff.mp hlength
  simp only [hs, interpret, executeAll, bind_pure_unit] at hends hprints
  have hglobals : Machine.initial.scopes.Live Scopes.globals := ⟨_, List.mem_cons_self, rfl⟩
  obtain ⟨l, hanging, hspells, -, hrun⟩ := for_runs_by_its_clauses herrors hs
    ((Parser.starts_cons _ _ _).mpr rfl)
  obtain ⟨houtcome, hdirect, -⟩ := hrun _ (.between .initial) Scopes.globals hglobals 2
  obtain ⟨-, hlooks, -⟩ := hdirect (by simp [hends])
  exact ⟨l, hanging, hspells, houtcome ▸ hends, hlooks.written ▸ hprints⟩

end Program

end Treewalk
