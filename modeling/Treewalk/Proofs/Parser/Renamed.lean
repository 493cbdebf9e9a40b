import Treewalk.Parser.Statement
import Treewalk.Proofs.Tree

/-!
# Other tokens of the same kinds

A parser looks at nothing of a token but its kind, and copies the token into the tree. So where a
function `f` on tokens keeps their kinds, reading the tokens that `f` gives is reading the tokens
and renaming the reply: `Renamed f g p q` says that `q` so reads as `p` does, with `g` on the
values.

* `renamed_bind` carries this from the parts of a parser to the whole, with or without a fault.
* `Program.statements_map`: the statements of a program of renamed tokens, whatever errors it has.
-/

namespace Treewalk

/-- The same reply, with other tokens at its places. -/
def Reply.rename {α β : Type} (f : Token → Token) (g : α → β) (r : Reply α) : Reply β :=
  ⟨r.outcome.map g, r.errors.map fun e => ⟨e.fault, e.ahead.map f⟩, r.rest.map f⟩

namespace Parser

variable {f : Token → Token} {α α' β β' : Type}

def Renamed (f : Token → Token) (g : α → α') (p : Parser α) (q : Parser α') : Prop :=
  ∀ ts, q (ts.map f) = (p ts).rename f g

/-! ## Building blocks -/

section

variable {g : α → α'} {h : β → β'} {wanted : Token → Bool}

theorem renamed_pure {a : α} {b : α'} (hb : g a = b) : Renamed f g (pure a) (pure b) :=
  hb ▸ fun _ => rfl

theorem renamed_fail (fault : SyntaxFault) : Renamed f g (fail fault) (fail fault) :=
  fun _ => rfl

theorem renamed_ahead : Renamed f (List.map f) ahead ahead :=
  fun _ => rfl

theorem renamed_report (fault : SyntaxFault) (place : List Token) :
    Renamed f id (report ⟨fault, place⟩) (report ⟨fault, place.map f⟩) :=
  fun _ => rfl

theorem renamed_bind {p : Parser α} {p' : Parser α'} {k : α → Parser β} {k' : α' → Parser β'}
    (hp : Renamed f g p p') (hk : ∀ a, Renamed f h (k a) (k' (g a))) :
    Renamed f h (p >>= k) (p' >>= k') := by
  intro ts
  simp only [bind, hp ts, Reply.rename]
  cases (p ts).outcome with
  | error fault => rfl
  | ok a => simp only [Except.map, hk a (p ts).rest, Reply.rename, List.map_append]

theorem renamed_map {p : Parser α} {p' : Parser α'} {k : α → β} {k' : α' → β'}
    (hp : Renamed f g p p') (hk : ∀ a, k' (g a) = h (k a)) :
    Renamed f h (k <$> p) (k' <$> p') :=
  renamed_bind hp fun a => renamed_pure (hk a).symm

theorem renamed_take? (hw : ∀ t, wanted (f t) = wanted t) :
    Renamed f (Option.map f) (take? wanted) (take? wanted) := by
  intro ts
  cases ts with
  | nil => rfl
  | cons t ts =>
    simp only [List.map_cons, take?, hw]
    split <;> rfl

theorem renamed_expect (fault : SyntaxFault) (hw : ∀ t, wanted (f t) = wanted t) :
    Renamed f f (expect wanted fault) (expect wanted fault) := by
  intro ts
  cases ts with
  | nil => rfl
  | cons t ts =>
    simp only [List.map_cons, expect, hw]
    split <;> rfl

end

/-! ## Classes of tokens -/

section

variable (hf : ∀ t, (f t).kind = t.kind) (t : Token)

include hf

theorem isMark_renamed (m : Mark) : (f t).isMark m = t.isMark m := by
  simp only [Token.isMark, hf]

theorem isKeyword_renamed (k : Keyword) : (f t).isKeyword k = t.isKeyword k := by
  simp only [Token.isKeyword, hf]

theorem isUnary_renamed : (f t).isUnary = t.isUnary := by
  simp only [Token.isUnary, hf]

theorem literal?_renamed : (f t).literal? = t.literal? := by
  simp only [Token.literal?, hf]

theorem startsStatement_renamed : (f t).startsStatement = t.startsStatement := by
  simp only [Token.startsStatement, hf]

theorem renamed_expectMark (m : Mark) (after : Phrase) :
    Renamed f id (expectMark m after) (expectMark m after) :=
  renamed_bind (renamed_expect _ fun t => isMark_renamed hf t m) fun _ => renamed_pure rfl

theorem renamed_isAt (m : Mark) : Renamed f id (isAt m) (isAt m) := by
  intro ts
  cases ts with
  | nil => rfl
  | cons t ts =>
    simp only [List.map_cons, isAt, isMark_renamed hf]
    rfl

end

/-! ## Expressions -/

section

variable {nested : Parser Expr}

/-- A level knows its operators by their kinds, and puts an operator into the tree as it is. -/
structure Level.Renames (f : Token → Token) (level : Level) : Prop where
  isOperator : ∀ t, level.isOperator (f t) = level.isOperator t
  node : ∀ l t r, (level.node l t r).map f = level.node (l.map f) (f t) (r.map f)

theorem renames_all (hf : ∀ t, (f t).kind = t.kind) :
    ∀ level ∈ Level.all, Level.Renames f level := by
  intro level hlevel
  simp only [Level.all, List.mem_cons, List.not_mem_nil, or_false] at hlevel
  rcases hlevel with rfl | rfl | rfl | rfl | rfl | rfl
  · exact ⟨fun t => isKeyword_renamed hf t _, fun _ _ _ => rfl⟩
  · exact ⟨fun t => isKeyword_renamed hf t _, fun _ _ _ => rfl⟩
  · exact ⟨fun t => by simp only [Token.isEquality, hf], fun _ _ _ => rfl⟩
  · exact ⟨fun t => by simp only [Token.isComparison, hf], fun _ _ _ => rfl⟩
  · exact ⟨fun t => by simp only [Token.isTerm, hf], fun _ _ _ => rfl⟩
  · exact ⟨fun t => by simp only [Token.isFactor, hf], fun _ _ _ => rfl⟩

theorem renamed_primary (hf : ∀ t, (f t).kind = t.kind)
    (h : Renamed f (Expr.map f) nested nested) :
    Renamed f (Expr.map f) (primary nested) (primary nested) := by
  intro ts
  cases ts with
  | nil => rfl
  | cons t ts =>
    simp only [List.map_cons, primary, literal?_renamed hf, hf]
    split
    · rfl
    split
    case h_5 =>
      refine renamed_bind h (fun inner => ?_) ts
      apply renamed_bind (renamed_expectMark hf _ _)
      intro _
      exact renamed_pure rfl
    all_goals rfl

theorem renamed_unary (hf : ∀ t, (f t).kind = t.kind)
    (h : Renamed f (Expr.map f) nested nested) :
    Renamed f (Expr.map f) (unary nested) (unary nested) := by
  intro ts
  induction ts with
  | nil => exact renamed_primary hf h []
  | cons t ts ih =>
    simp only [List.map_cons, unary, isUnary_renamed hf]
    split
    · rw [ih]
      simp only [Reply.map, Reply.rename]
      cases (unary nested ts).outcome <;> rfl
    · exact renamed_primary hf h (t :: ts)

theorem renamed_operations {level : Level} {operand : Parser Expr} (hlevel : Level.Renames f level)
    (h : Renamed f (Expr.map f) operand operand) (bound : Nat) (left : Expr) :
    Renamed f (Expr.map f) (operations level operand bound left)
      (operations level operand bound (left.map f)) := by
  induction bound generalizing left with
  | zero => exact renamed_pure rfl
  | succ bound ih =>
    apply renamed_bind (renamed_take? hlevel.isOperator)
    intro o
    cases o with
    | none => exact renamed_pure rfl
    | some operator =>
      apply renamed_bind h
      intro right
      simpa only [Option.map_some, hlevel.node] using ih (level.node left operator right)

theorem renamed_binary {operand : Parser Expr} (h : Renamed f (Expr.map f) operand operand)
    (bound : Nat) {levels : List Level} (hlevels : ∀ level ∈ levels, Level.Renames f level) :
    Renamed f (Expr.map f) (binary bound operand levels) (binary bound operand levels) := by
  induction levels with
  | nil => exact h
  | cons level tighter ih =>
    have inner := ih fun l hl => hlevels l (List.mem_cons_of_mem level hl)
    exact renamed_bind inner fun left =>
      renamed_operations (hlevels level List.mem_cons_self) inner bound left

theorem renamed_assignment (hf : ∀ t, (f t).kind = t.kind)
    (h : Renamed f (Expr.map f) nested nested) (bound : Nat) :
    Renamed f (Expr.map f) (assignment bound nested) (assignment bound nested) := by
  apply renamed_bind (renamed_binary (renamed_unary hf h) bound (renames_all hf))
  intro left
  apply renamed_bind renamed_ahead
  intro place
  apply renamed_bind (renamed_take? fun t => isMark_renamed hf t _)
  intro o
  cases o with
  | none => exact renamed_pure rfl
  | some _ =>
    apply renamed_bind h
    intro value
    cases left with
    | «variable» name => exact renamed_pure rfl
    | _ => exact renamed_bind (renamed_report _ _) fun _ => renamed_pure rfl

theorem renamed_expression (hf : ∀ t, (f t).kind = t.kind) (bound : Nat) :
    Renamed f (Expr.map f) (expression bound) (expression bound) := by
  induction bound with
  | zero => exact renamed_fail .missingExpression
  | succ bound ih => exact renamed_assignment hf ih bound

end

/-! ## Statements -/

section

variable (hf : ∀ t, (f t).kind = t.kind) {expr : Parser Expr} {stmt : Parser Stmt}
  (he : Renamed f (Expr.map f) expr expr) (hs : Renamed f (Stmt.map f) stmt stmt)

include hf he

theorem renamed_expressionStatement :
    Renamed f (Stmt.map f) (expressionStatement expr) (expressionStatement expr) := by
  apply renamed_bind he
  intro e
  apply renamed_bind (renamed_expectMark hf _ _)
  intro _
  exact renamed_pure (by simp only [Stmt.map])

theorem renamed_printStatement :
    Renamed f (Stmt.map f) (printStatement expr) (printStatement expr) := by
  apply renamed_bind he
  intro e
  apply renamed_bind (renamed_expectMark hf _ _)
  intro _
  exact renamed_pure (by simp only [Stmt.map])

theorem renamed_variableDeclaration :
    Renamed f (Stmt.map f) (variableDeclaration expr) (variableDeclaration expr) := by
  apply renamed_bind (renamed_expect _ fun t => by rw [hf])
  intro name
  have hend : ∀ initializer : Option Expr, Renamed f (Stmt.map f)
      (do
        expectMark .semicolon .variableDeclaration
        return .declare name initializer)
      (do
        expectMark .semicolon .variableDeclaration
        return .declare (f name) (initializer.map (Expr.map f))) := by
    intro initializer
    apply renamed_bind (renamed_expectMark hf _ _)
    intro _
    exact renamed_pure (by simp only [Stmt.map])
  apply renamed_bind (renamed_take? fun t => isMark_renamed hf t _)
  intro o
  cases o with
  | none => exact renamed_bind (renamed_pure rfl) hend
  | some _ => exact renamed_bind (renamed_map he fun _ => rfl) hend

theorem renamed_forInitializer :
    Renamed f (Option.map (Stmt.map f)) (forInitializer expr) (forInitializer expr) := by
  apply renamed_bind (renamed_take? fun t => isMark_renamed hf t _)
  intro o
  cases o with
  | some _ => exact renamed_pure rfl
  | none =>
    apply renamed_bind (renamed_take? fun t => isKeyword_renamed hf t _)
    intro o
    cases o with
    | some _ => exact renamed_map (renamed_variableDeclaration hf he) fun _ => rfl
    | none => exact renamed_map (renamed_expressionStatement hf he) fun _ => rfl

theorem renamed_forClause (close : Mark) :
    Renamed f (Option.map (Expr.map f)) (forClause close expr) (forClause close expr) := by
  apply renamed_bind (renamed_isAt hf close)
  intro closed
  cases closed with
  | true => exact renamed_pure rfl
  | false => exact renamed_map he fun _ => rfl

include hs

theorem renamed_ifStatement :
    Renamed f (Stmt.map f) (ifStatement expr stmt) (ifStatement expr stmt) := by
  apply renamed_bind (renamed_expectMark hf _ _)
  intro _
  apply renamed_bind he
  intro condition
  apply renamed_bind (renamed_expectMark hf _ _)
  intro _
  apply renamed_bind hs
  intro yes
  apply renamed_bind (renamed_take? fun t => isKeyword_renamed hf t _)
  intro o
  cases o with
  | none => exact renamed_pure (by simp only [Stmt.map])
  | some _ =>
    apply renamed_bind hs
    intro no
    exact renamed_pure (by simp only [Stmt.map])

theorem renamed_whileStatement :
    Renamed f (Stmt.map f) (whileStatement expr stmt) (whileStatement expr stmt) := by
  apply renamed_bind (renamed_expectMark hf _ _)
  intro _
  apply renamed_bind he
  intro condition
  apply renamed_bind (renamed_expectMark hf _ _)
  intro _
  apply renamed_bind hs
  intro body
  exact renamed_pure (by simp only [Stmt.map])

theorem renamed_forStatement :
    Renamed f (Stmt.map f) (forStatement expr stmt) (forStatement expr stmt) := by
  apply renamed_bind (renamed_expectMark hf _ _)
  intro _
  apply renamed_bind (renamed_forInitializer hf he)
  intro initializer
  apply renamed_bind (renamed_forClause hf he _)
  intro condition
  apply renamed_bind (renamed_expectMark hf _ _)
  intro _
  apply renamed_bind (renamed_forClause hf he _)
  intro increment
  apply renamed_bind (renamed_expectMark hf _ _)
  intro _
  apply renamed_bind hs
  intro body
  have hloop : (forLoop initializer condition increment body).map f =
      forLoop (initializer.map (Stmt.map f)) (condition.map (Expr.map f))
        (increment.map (Expr.map f)) (body.map f) := by
    cases initializer <;> cases condition <;> cases increment <;>
      simp [forLoop, Stmt.map, Stmt.mapAll, Expr.map]
  exact renamed_pure hloop

theorem renamed_declaration :
    Renamed f (Stmt.map f) (declaration expr stmt) (declaration expr stmt) := by
  apply renamed_bind (renamed_take? fun t => isKeyword_renamed hf t _)
  intro o
  cases o with
  | some _ => exact renamed_variableDeclaration hf he
  | none => exact hs

end

/-! ## Programs -/

theorem map_dropUntilStart (hf : ∀ t, (f t).kind = t.kind) (last : Token) (ts : List Token) :
    dropUntilStart (f last) (ts.map f) = (dropUntilStart last ts).map f := by
  induction ts generalizing last with
  | nil => rfl
  | cons t ts ih =>
    simp only [List.map_cons, dropUntilStart, isMark_renamed hf, startsStatement_renamed hf, ih]
    split <;> rfl

theorem map_resume (hf : ∀ t, (f t).kind = t.kind) (ts : List Token) :
    resume (ts.map f) = (resume ts).map f := by
  cases ts with
  | nil => rfl
  | cons t ts => exact map_dropUntilStart hf t ts

theorem renamed_recover (hf : ∀ t, (f t).kind = t.kind) {g : α → α'} {p : Parser α}
    {p' : Parser α'} (hp : Renamed f g p p') :
    Renamed f (Option.map g) (recover p) (recover p') := by
  intro ts
  simp only [recover, hp ts, Reply.rename]
  cases (p ts).outcome with
  | error fault => simp [Except.map, map_resume hf]
  | ok a => rfl

theorem renamed_declarations (hf : ∀ t, (f t).kind = t.kind) {closes : Token → Bool}
    (hcloses : ∀ t, closes (f t) = closes t) {one : Parser Stmt}
    (h : Renamed f (Stmt.map f) one one) (bound : Nat) :
    Renamed f (List.map (Stmt.map f)) (declarations closes one bound)
      (declarations closes one bound) := by
  induction bound with
  | zero => exact renamed_pure rfl
  | succ bound ih =>
    intro ts
    cases ts with
    | nil => rfl
    | cons t ts =>
      simp only [List.map_cons, declarations, hcloses]
      split
      · rfl
      · refine renamed_bind (renamed_recover hf h) (fun first => ?_) (t :: ts)
        apply renamed_bind ih
        intro others
        have hall : (first.toList ++ others).map (Stmt.map f) =
            (first.map (Stmt.map f)).toList ++ others.map (Stmt.map f) := by
          cases first <;> simp
        exact renamed_pure hall

theorem renamed_block (hf : ∀ t, (f t).kind = t.kind) {expr : Parser Expr} {stmt : Parser Stmt}
    (he : Renamed f (Expr.map f) expr expr) (hs : Renamed f (Stmt.map f) stmt stmt) (bound : Nat) :
    Renamed f (Stmt.map f) (block bound expr stmt) (block bound expr stmt) := by
  apply renamed_bind (renamed_declarations hf (fun t => isMark_renamed hf t _)
    (renamed_declaration hf he hs) bound)
  intro body
  apply renamed_bind (renamed_expectMark hf _ _)
  intro _
  exact renamed_pure (by simp only [Stmt.map, Stmt.mapAll_eq_map])

theorem renamed_statement (hf : ∀ t, (f t).kind = t.kind) (bound : Nat) :
    Renamed f (Stmt.map f) (statement bound) (statement bound) := by
  induction bound with
  | zero => exact renamed_fail .missingExpression
  | succ bound ih =>
    intro ts
    have he := renamed_expression hf (bound + 1)
    cases ts with
    | nil => exact renamed_expressionStatement hf he []
    | cons t ts =>
      simp only [List.map_cons, statement, hf]
      split
      · exact renamed_forStatement hf he ih ts
      · exact renamed_ifStatement hf he ih ts
      · exact renamed_printStatement hf he ts
      · exact renamed_whileStatement hf he ih ts
      · exact renamed_block hf he ih bound ts
      · exact renamed_expressionStatement hf he (t :: ts)

theorem renamed_program (hf : ∀ t, (f t).kind = t.kind) :
    Renamed f (List.map (Stmt.map f)) program program := by
  intro ts
  simp only [program, List.length_map]
  exact renamed_declarations hf (fun _ => rfl)
    (renamed_declaration hf (renamed_expression hf _) (renamed_statement hf _)) _ ts

end Parser

/-- The statements of a program do not depend on more than the kinds of its tokens, but for the
tokens in them. -/
theorem Program.statements_map {f : Token → Token} (hf : ∀ t, (f t).kind = t.kind)
    (tokens : List Token) :
    (Program.ofTokens (tokens.map f)).statements =
      (Program.ofTokens tokens).statements.map (Stmt.map f) := by
  have hahead : (tokens.map f).takeWhile (!·.isEof) = (tokens.takeWhile (!·.isEof)).map f := by
    rw [List.takeWhile_map]
    congr 2
    funext t
    simp only [Function.comp_apply, Token.isEof, hf]
  simp only [Program.ofTokens, Cursor.ofTokens, hahead, Parser.renamed_program hf _, Reply.rename]
  cases (Parser.program (tokens.takeWhile (!·.isEof))).outcome <;> rfl

end Treewalk
