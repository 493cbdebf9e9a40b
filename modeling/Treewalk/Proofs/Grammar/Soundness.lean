import Treewalk.Proofs.Grammar.Derivations
import Treewalk.Proofs.Parser.Yields

/-!
# What is yielded is derived

A tree that a parser yields has a derivation from the tokens that were read.

* `reader bound tier` is the parser of a tier of expressions; `reader_binary` says that on the
  binary tiers it goes on from the operands of the tighter tier, with the operators and the node
  of the grammar.
* `derives_expression`: the trees of expressions. The loop of a binary tier carries the
  derivation of its left side along.
* `derives_statement`: the trees of statements. The parser takes an `else` wherever it meets
  one, so a hanging statement is never left before an `else`, and the derivation has every
  `else` at the nearest `if`.
* `declarations_of_yields`: programs.
-/

namespace Treewalk.Grammar

open Treewalk.Parser

variable {g : Rules} {ts rest : List Token}

/-! ## The parser of a tier -/

/-- The levels of a tier and of those that bind tighter. -/
def Tier.levels : Tier → List Level
  | .assignment | .or => Level.all
  | .and => Level.all.drop 1
  | .equality => Level.all.drop 2
  | .comparison => Level.all.drop 3
  | .term => Level.all.drop 4
  | .factor => Level.all.drop 5
  | .unary | .primary => []

/-- The parser of a tier, which reads nested expressions with the given bound. -/
def reader (bound : Nat) : Tier → Parser Expr
  | .assignment => assignment bound (expression bound)
  | .primary => primary (expression bound)
  | tier => binary bound (unary (expression bound)) tier.levels

theorem expression_succ (bound : Nat) : expression (bound + 1) = reader bound .assignment := by
  rw [expression, reader]

/-- The level of a binary tier. -/
def Tier.level? : Tier → Option Level
  | .or => some ⟨Token.isKeyword .kwOr, .logical⟩
  | .and => some ⟨Token.isKeyword .kwAnd, .logical⟩
  | .equality => some ⟨Token.isEquality, .binary⟩
  | .comparison => some ⟨Token.isComparison, .binary⟩
  | .term => some ⟨Token.isTerm, .binary⟩
  | .factor => some ⟨Token.isFactor, .binary⟩
  | .assignment | .unary | .primary => none

section

variable {tier : Tier} {level : Level}

theorem reader_binary (h : tier.level? = some level) (bound : Nat) :
    reader bound tier =
      reader bound tier.tighter >>= operations level (reader bound tier.tighter) bound := by
  cases tier <;> cases h <;> rfl

/-- The operators and the node of a level are those of the grammar. -/
theorem isOperator_iff (h : tier.level? = some level) (t : Token) :
    level.isOperator t = true ↔ t.kind ∈ tier.operators := by
  cases tier <;> cases h
  · rw [Token.isKeyword_iff, Tier.operators, List.mem_singleton]
  · rw [Token.isKeyword_iff, Tier.operators, List.mem_singleton]
  · exact Token.isEquality_iff
  · exact Token.isComparison_iff
  · exact Token.isTerm_iff
  · exact Token.isFactor_iff

theorem node_eq (h : tier.level? = some level) : level.node = tier.node := by
  cases tier <;> cases h <;> rfl

end

/-! ## Expressions -/

/-- The parser `p` yields only expressions of a tier. -/
def Derives (g : Rules) (p : Parser Expr) (tier : Tier) : Prop :=
  ∀ ts e rest, Yields g p ts e rest → ∃ used, ts = used ++ rest ∧ Expression g tier used e

theorem literalValue?_of_literal? {t : Token} {value : Value} (h : t.literal? = some value) :
    literalValue? t.kind = some value := by
  unfold Token.literal? at h
  split at h
  case h_1 hk | h_2 hk => rwa [hk]
  case h_3 => cases h

theorem derives_primary {nested : Parser Expr} (h : Derives g nested .assignment) :
    Derives g (primary nested) .primary := by
  intro ts e rest hy
  match ts with
  | [] => exact absurd hy yields_fail
  | t :: ts =>
    have hatom : ∀ value, literalValue? t.kind = some value →
        Yields g (fun _ => ⟨.ok (.literal value), [], ts⟩) (t :: ts) e rest →
        ∃ used, t :: ts = used ++ rest ∧ Expression g .primary used e := by
      rintro value hk ⟨he, rfl, -⟩
      cases he
      exact ⟨[t], rfl, .literal hk⟩
    simp only [Yields, primary] at hy
    split at hy
    case h_1 value hliteral => exact hatom value (literalValue?_of_literal? hliteral) hy
    split at hy
    case h_1 hk => exact hatom (.bool true) (by rw [hk]; rfl) hy
    case h_2 hk => exact hatom (.bool false) (by rw [hk]; rfl) hy
    case h_3 hk => exact hatom .nil (by rw [hk]; rfl) hy
    case h_4 hk =>
      obtain ⟨he, rfl, -⟩ := hy
      cases he
      exact ⟨[t], rfl, .variable hk⟩
    case h_5 hk =>
      obtain ⟨inner, mid, hinner, hclosed⟩ := yields_bind.mp hy
      obtain ⟨closing, mid, rfl, hclose, hend⟩ := yields_expectMark_bind.mp hclosed
      obtain ⟨rfl, rfl⟩ := yields_pure.mp hend
      obtain ⟨used, rfl, hused⟩ := h _ _ _ hinner
      exact ⟨t :: (used ++ [closing]), by simp, .grouping hk hused hclose⟩
    case h_6 => exact absurd hy.1 (by simp [fail])

theorem derives_unary {nested : Parser Expr} (h : Derives g nested .assignment) :
    Derives g (unary nested) .unary := by
  intro ts
  induction ts with
  | nil => exact fun e rest hy => absurd hy yields_fail
  | cons t ts ih =>
    intro e rest hy
    by_cases hop : t.isUnary = true
    · have hy : Yields g (fun ts => (unary nested ts).map (.unary t)) ts e rest := by
        simpa only [Yields, unary, if_pos hop] using hy
      obtain ⟨operand, hoperand, rfl⟩ := yields_reply_map.mp hy
      obtain ⟨used, rfl, hused⟩ := ih _ _ hoperand
      exact ⟨t :: used, rfl, .unary (Token.isUnary_iff.mp hop) hused⟩
    · have hy : Yields g (primary nested) (t :: ts) e rest := by
        simpa only [Yields, unary, if_neg hop] using hy
      obtain ⟨used, hts, hused⟩ := derives_primary h _ _ _ hy
      exact ⟨used, hts, .ofTighter hused⟩

/-- The loop goes on from a left side that stands behind the tokens `front`. -/
theorem expression_of_yields_operations {tier : Tier} {level : Level}
    (hlevel : tier.level? = some level) {operand : Parser Expr}
    (h : Derives g operand tier.tighter) {bound : Nat} {front : List Token} {left e : Expr}
    (hleft : Expression g tier front left)
    (hy : Yields g (operations level operand bound left) ts e rest) :
    ∃ used, ts = used ++ rest ∧ Expression g tier (front ++ used) e := by
  induction bound generalizing front left ts with
  | zero =>
    obtain ⟨rfl, rfl⟩ := yields_pure.mp hy
    exact ⟨[], rfl, by simpa using hleft⟩
  | succ bound ih =>
    rcases yields_operations_succ.mp hy with
      ⟨-, rfl, rfl⟩ | ⟨op, mid, rfl, hop, right, mid', hr, hrest⟩
    · exact ⟨[], rfl, by simpa using hleft⟩
    · obtain ⟨usedRight, rfl, hright⟩ := h _ _ _ hr
      have hnode : Expression g tier (front ++ op :: usedRight) (level.node left op right) :=
        node_eq hlevel ▸ .operation hleft ((isOperator_iff hlevel op).mp hop) hright
      obtain ⟨used, rfl, hused⟩ := ih hnode hrest
      exact ⟨op :: (usedRight ++ used), by simp, by simpa using hused⟩

theorem derives_binary {bound : Nat} (tier : Tier) {level : Level}
    (hlevel : tier.level? = some level)
    (h : Derives g (reader bound tier.tighter) tier.tighter) :
    Derives g (reader bound tier) tier := by
  intro ts e rest hy
  rw [reader_binary hlevel] at hy
  obtain ⟨left, mid, hleft, hrest⟩ := yields_bind.mp hy
  obtain ⟨front, rfl, hfront⟩ := h _ _ _ hleft
  obtain ⟨used, rfl, hused⟩ :=
    expression_of_yields_operations hlevel h (.ofTighter hfront) hrest
  exact ⟨front ++ used, by simp, hused⟩

/-- The binary tiers, from the tightest to the loosest. -/
theorem derives_or {bound : Nat} (h : Derives g (expression bound) .assignment) :
    Derives g (reader bound .or) .or := by
  have hunary : Derives g (reader bound .unary) .unary := derives_unary h
  have hfactor := derives_binary .factor rfl hunary
  have hterm := derives_binary .term rfl hfactor
  have hcomparison := derives_binary .comparison rfl hterm
  have hequality := derives_binary .equality rfl hcomparison
  have hand := derives_binary .and rfl hequality
  exact derives_binary .or rfl hand

/-- On the tiers from `or` on, only a name has the tree of a name. -/
theorem tokens_of_variable {tier : Tier} {e : Expr} {name : Token} (h : Expression g tier ts e)
    (ht : tier ≠ .assignment) (he : e = .variable name) :
    ts = [name] ∧ name.kind = .identifier := by
  induction h with
  | assign | invalid => exact absurd rfl ht
  | @operation tier => cases tier <;> cases he
  | @ofTighter tier ts e h ih => exact ih (by cases tier <;> simp [Tier.tighter]) he
  | unary | literal | grouping => cases he
  | «variable» hk => cases he; exact ⟨rfl, hk⟩

theorem derives_assignment {bound : Nat} (h : Derives g (expression bound) .assignment) :
    Derives g (reader bound .assignment) .assignment := by
  intro ts e rest hy
  obtain ⟨left, mid, hleft, hy⟩ := yields_bind.mp hy
  obtain ⟨front, hts, hfront⟩ := derives_or h _ _ _ hleft
  rw [yields_ahead_bind, yields_take?_bind] at hy
  rcases hy with ⟨-, hy⟩ | ⟨equal, mid', rfl, hequal, hy⟩
  · obtain ⟨rfl, rfl⟩ := yields_pure.mp hy
    exact ⟨front, hts, .ofTighter hfront⟩
  · rw [Token.isMark_iff] at hequal
    rw [yields_bind] at hy
    obtain ⟨value, mid'', hvalue, hy⟩ := hy
    obtain ⟨used, rfl, hused⟩ := h _ _ _ hvalue
    have hsplit : (∃ name, left = .variable name ∧ .assign name value = e ∧ mid'' = rest) ∨
        ((∀ name, left ≠ .variable name) ∧ g.anyTarget ∧ left = e ∧ mid'' = rest) := by
      cases left with
      | «variable» name =>
        obtain ⟨rfl, rfl⟩ := yields_pure.mp hy
        exact .inl ⟨name, rfl, rfl, rfl⟩
      | _ =>
        obtain ⟨htolerated, hend⟩ := yields_report_bind.mp hy
        obtain ⟨rfl, rfl⟩ := yields_pure.mp hend
        exact .inr ⟨by simp, htolerated.1, rfl, rfl⟩
    refine ⟨front ++ equal :: used, ?_, ?_⟩
    · rcases hsplit with ⟨_, -, -, rfl⟩ | ⟨-, -, -, rfl⟩ <;> simp [hts]
    · rcases hsplit with ⟨name, hname, rfl, -⟩ | ⟨hne, hg, rfl, -⟩
      · obtain ⟨rfl, hk⟩ := tokens_of_variable hfront (by simp) hname
        exact .assign hk hequal hused
      · exact .invalid hg hfront hne hequal hused

theorem derives_expression (bound : Nat) : Derives g (expression bound) .assignment := by
  induction bound with
  | zero => exact fun ts e rest hy => absurd hy yields_fail
  | succ bound ih =>
    rw [expression_succ]
    exact derives_assignment ih

/-! ## Statements -/

/-- The tokens `ts` are those of the statement `s`, and `rest`, which begins with no `else` if
the statement is hanging. -/
def StatementBefore (g : Rules) (ts : List Token) (s : Stmt) (rest : List Token) : Prop :=
  ∃ used hanging, ts = used ++ rest ∧ Statement g hanging used s ∧
    (hanging = true → ¬ Starts (Token.isKeyword .kwElse) rest)

/-- The parser `p` yields only statements. -/
def DerivesStatement (g : Rules) (p : Parser Stmt) : Prop :=
  ∀ ts s rest, Yields g p ts s rest → StatementBefore g ts s rest

section

variable {expr : Parser Expr} {stmt : Parser Stmt} {s : Stmt}

theorem derives_expressionStatement (he : Derives g expr .assignment)
    (hy : Yields g (expressionStatement expr) ts s rest) :
    ∃ used, ts = used ++ rest ∧ ExpressionStatement g used s := by
  obtain ⟨e, mid, hexpr, hy₁⟩ := yields_bind.mp hy
  obtain ⟨used, rfl, hused⟩ := he _ _ _ hexpr
  obtain ⟨semicolon, mid', rfl, hs, hend⟩ := yields_expectMark_bind.mp hy₁
  obtain ⟨rfl, rfl⟩ := yields_pure.mp hend
  exact ⟨used ++ [semicolon], by simp, .intro hused hs⟩

theorem derives_printStatement {keyword : Token} (hk : keyword.kind = .keyword .kwPrint)
    (he : Derives g expr .assignment) (hy : Yields g (printStatement expr) ts s rest) :
    StatementBefore g (keyword :: ts) s rest := by
  obtain ⟨e, mid, hexpr, hy₁⟩ := yields_bind.mp hy
  obtain ⟨used, rfl, hused⟩ := he _ _ _ hexpr
  obtain ⟨semicolon, mid', rfl, hs, hend⟩ := yields_expectMark_bind.mp hy₁
  obtain ⟨rfl, rfl⟩ := yields_pure.mp hend
  exact ⟨keyword :: (used ++ [semicolon]), false, by simp, .print hk hused hs, by simp⟩

theorem derives_variableDeclaration {keyword : Token} (hk : keyword.kind = .keyword .kwVar)
    (he : Derives g expr .assignment) (hy : Yields g (variableDeclaration expr) ts s rest) :
    ∃ used, keyword :: ts = used ++ rest ∧ VariableDeclaration g used s := by
  obtain ⟨name, mid, rfl, hname, hy₁⟩ := yields_expect_bind.mp hy
  rw [decide_eq_true_eq] at hname
  rcases yields_take?_bind.mp hy₁ with ⟨-, hy₂⟩ | ⟨equal, mid', rfl, hequal, hy₂⟩
  · obtain ⟨o, mid', hnone, hy₃⟩ := yields_bind.mp hy₂
    obtain ⟨rfl, rfl⟩ := yields_pure.mp hnone
    obtain ⟨semicolon, mid', rfl, hs, hend⟩ := yields_expectMark_bind.mp hy₃
    obtain ⟨rfl, rfl⟩ := yields_pure.mp hend
    exact ⟨[keyword, name, semicolon], rfl, .bare hk hname hs⟩
  · obtain ⟨o, mid', hsome, hy₄⟩ := yields_bind.mp hy₂
    obtain ⟨e, hexpr, rfl⟩ := yields_map.mp hsome
    obtain ⟨used, rfl, hused⟩ := he _ _ _ hexpr
    obtain ⟨semicolon, mid', rfl, hs, hend⟩ := yields_expectMark_bind.mp hy₄
    obtain ⟨rfl, rfl⟩ := yields_pure.mp hend
    exact ⟨keyword :: name :: equal :: (used ++ [semicolon]), by simp,
      .withValue hk hname (Token.isMark_iff.mp hequal) hused hs⟩

theorem derives_whileStatement {keyword : Token} (hk : keyword.kind = .keyword .kwWhile)
    (he : Derives g expr .assignment) (hstmt : DerivesStatement g stmt)
    (hy : Yields g (whileStatement expr stmt) ts s rest) :
    StatementBefore g (keyword :: ts) s rest := by
  obtain ⟨opening, mid, rfl, hopen, hy₁⟩ := yields_expectMark_bind.mp hy
  obtain ⟨c, mid', hc, hy₂⟩ := yields_bind.mp hy₁
  obtain ⟨cs, rfl, hcs⟩ := he _ _ _ hc
  obtain ⟨closing, mid', rfl, hclose, hy₃⟩ := yields_expectMark_bind.mp hy₂
  obtain ⟨body, mid', hbody, hend⟩ := yields_bind.mp hy₃
  obtain ⟨rfl, rfl⟩ := yields_pure.mp hend
  obtain ⟨bs, hanging, rfl, hbs, helse⟩ := hstmt _ _ _ hbody
  exact ⟨keyword :: opening :: (cs ++ closing :: bs), hanging, by simp,
    .loop hk hopen hcs hclose hbs, helse⟩

theorem derives_ifStatement {keyword : Token} (hk : keyword.kind = .keyword .kwIf)
    (he : Derives g expr .assignment) (hstmt : DerivesStatement g stmt)
    (hy : Yields g (ifStatement expr stmt) ts s rest) :
    StatementBefore g (keyword :: ts) s rest := by
  obtain ⟨opening, mid, rfl, hopen, hy₁⟩ := yields_expectMark_bind.mp hy
  obtain ⟨c, mid', hc, hy₂⟩ := yields_bind.mp hy₁
  obtain ⟨cs, rfl, hcs⟩ := he _ _ _ hc
  obtain ⟨closing, mid', rfl, hclose, hy₃⟩ := yields_expectMark_bind.mp hy₂
  obtain ⟨yes, mid', hyes, hy₄⟩ := yields_bind.mp hy₃
  obtain ⟨ys, hangingYes, rfl, hys, helse⟩ := hstmt _ _ _ hyes
  rcases yields_take?_bind.mp hy₄ with ⟨hnone, hend⟩ | ⟨otherwise, mid'', rfl, hotherwise, hy₅⟩
  · obtain ⟨rfl, rfl⟩ := yields_pure.mp hend
    exact ⟨keyword :: opening :: (cs ++ closing :: ys), true, by simp,
      .ifThen hk hopen hcs hclose hys, fun _ => hnone⟩
  · obtain ⟨no, mid', hno, hend⟩ := yields_bind.mp hy₅
    obtain ⟨rfl, rfl⟩ := yields_pure.mp hend
    obtain ⟨ns, hanging, rfl, hns, hlast⟩ := hstmt _ _ _ hno
    -- The `else` was met behind `yes`, so `yes` does not hang.
    have hclosed : hangingYes = true → g.anyElse := fun h =>
      absurd ((starts_cons _ _ _).mpr hotherwise) (helse h)
    exact ⟨keyword :: opening :: (cs ++ closing :: (ys ++ otherwise :: ns)), hanging, by simp,
      .ifThenElse hk hopen hcs hclose hys hclosed (Token.isKeyword_iff.mp hotherwise) hns, hlast⟩

theorem derives_forInitializer (he : Derives g expr .assignment) {o : Option Stmt}
    (hy : Yields g (forInitializer expr) ts o rest) :
    ∃ used, ts = used ++ rest ∧
      ∀ loop, Initializer g used loop (o.elim loop fun first => .block [first, loop]) := by
  rcases yields_take?_bind.mp hy with ⟨-, hy₁⟩ | ⟨semicolon, mid, rfl, hs, hend⟩
  · rcases yields_take?_bind.mp hy₁ with ⟨-, hy₂⟩ | ⟨keyword, mid, rfl, hk, hy₂⟩
    · obtain ⟨s, hy₃, rfl⟩ := yields_map.mp hy₂
      obtain ⟨used, rfl, hused⟩ := derives_expressionStatement he hy₃
      exact ⟨used, rfl, fun _ => .expression hused⟩
    · obtain ⟨s, hy₃, rfl⟩ := yields_map.mp hy₂
      obtain ⟨used, hts, hused⟩ :=
        derives_variableDeclaration (Token.isKeyword_iff.mp hk) he hy₃
      exact ⟨used, hts, fun _ => .variable hused⟩
  · obtain ⟨rfl, rfl⟩ := yields_pure.mp hend
    exact ⟨[semicolon], rfl, fun _ => .absent (Token.isMark_iff.mp hs)⟩

theorem derives_forClause (he : Derives g expr .assignment) {close : Mark} {o : Option Expr}
    (hy : Yields g (forClause close expr) ts o rest) :
    ∃ used, ts = used ++ rest ∧
      (o = none ∧ used = [] ∨ ∃ e, o = some e ∧ Expression g .assignment used e) := by
  rcases yields_isAt_bind.mp hy with ⟨-, hend⟩ | ⟨-, hy₁⟩
  · obtain ⟨rfl, rfl⟩ := yields_pure.mp hend
    exact ⟨[], rfl, .inl ⟨rfl, rfl⟩⟩
  · obtain ⟨e, hexpr, rfl⟩ := yields_map.mp hy₁
    obtain ⟨used, rfl, hused⟩ := he _ _ _ hexpr
    exact ⟨used, rfl, .inr ⟨e, rfl, hused⟩⟩

/-- The loop of a `for`, from the inside out. -/
theorem forLoop_eq (initializer : Option Stmt) (condition increment : Option Expr) (body : Stmt) :
    forLoop initializer condition increment body =
      initializer.elim
        (.loop (condition.getD (.literal (.bool true)))
          (increment.elim body fun e => .block [body, .expression e]))
        fun first => .block [first, .loop (condition.getD (.literal (.bool true)))
          (increment.elim body fun e => .block [body, .expression e])] := by
  cases initializer <;> cases increment <;> rfl

theorem statement_forLoop {keyword opening semicolon closing : Token}
    {is cs ns bs : List Token} {initializer : Option Stmt} {condition increment : Option Expr}
    {body : Stmt} {hanging : Bool} (hk : keyword.kind = .keyword .kwFor)
    (hopen : opening.kind = .mark .leftParen)
    (hi : ∀ loop, Initializer g is loop (initializer.elim loop fun first => .block [first, loop]))
    (hc : condition = none ∧ cs = [] ∨
      ∃ e, condition = some e ∧ Expression g .assignment cs e)
    (hs : semicolon.kind = .mark .semicolon)
    (hn : increment = none ∧ ns = [] ∨ ∃ e, increment = some e ∧ Expression g .assignment ns e)
    (hclose : closing.kind = .mark .rightParen) (hbody : Statement g hanging bs body) :
    Statement g hanging
      (keyword :: opening :: (is ++ (cs ++ semicolon :: (ns ++ closing :: bs))))
      (forLoop initializer condition increment body) := by
  have hcondition : Condition g cs (condition.getD (.literal (.bool true))) := by
    rcases hc with ⟨rfl, rfl⟩ | ⟨e, rfl, h⟩
    · exact .always
    · exact .given h
  have hincrement : Increment g ns body
      (increment.elim body fun e => .block [body, .expression e]) := by
    rcases hn with ⟨rfl, rfl⟩ | ⟨e, rfl, h⟩
    · exact .absent
    · exact .given h
  rw [forLoop_eq]
  exact .forLoop hk hopen (hi _) hcondition hs hincrement hclose hbody

theorem derives_forStatement {keyword : Token} (hk : keyword.kind = .keyword .kwFor)
    (he : Derives g expr .assignment) (hstmt : DerivesStatement g stmt)
    (hy : Yields g (forStatement expr stmt) ts s rest) :
    StatementBefore g (keyword :: ts) s rest := by
  obtain ⟨opening, mid, rfl, hopen, hy₁⟩ := yields_expectMark_bind.mp hy
  obtain ⟨initializer, mid₁, hi, hy₂⟩ := yields_bind.mp hy₁
  obtain ⟨is, rfl, his⟩ := derives_forInitializer he hi
  obtain ⟨condition, mid₂, hc, hy₃⟩ := yields_bind.mp hy₂
  obtain ⟨cs, rfl, hcs⟩ := derives_forClause he hc
  obtain ⟨semicolon, mid₃, rfl, hs, hy₄⟩ := yields_expectMark_bind.mp hy₃
  obtain ⟨increment, mid₄, hn, hy₅⟩ := yields_bind.mp hy₄
  obtain ⟨ns, rfl, hns⟩ := derives_forClause he hn
  obtain ⟨closing, mid₅, rfl, hclose, hy₆⟩ := yields_expectMark_bind.mp hy₅
  obtain ⟨body, mid₆, hbody, hend⟩ := yields_bind.mp hy₆
  obtain ⟨rfl, rfl⟩ := yields_pure.mp hend
  obtain ⟨bs, hanging, rfl, hbs, helse⟩ := hstmt _ _ _ hbody
  refine ⟨keyword :: opening :: (is ++ (cs ++ semicolon :: (ns ++ closing :: bs))), hanging,
    by simp, ?_, helse⟩
  exact statement_forLoop hk hopen his hcs hs hns hclose hbs

theorem derives_declaration (he : Derives g expr .assignment) (hstmt : DerivesStatement g stmt)
    (hy : Yields g (declaration expr stmt) ts s rest) :
    ∃ used, ts = used ++ rest ∧
      (VariableDeclaration g used s ∨ ∃ hanging, Statement g hanging used s) := by
  rcases yields_take?_bind.mp hy with ⟨-, hy₁⟩ | ⟨keyword, mid, rfl, hk, hy₁⟩
  · obtain ⟨used, hanging, hts, hused, -⟩ := hstmt _ _ _ hy₁
    exact ⟨used, hts, .inr ⟨hanging, hused⟩⟩
  · obtain ⟨used, hts, hused⟩ := derives_variableDeclaration (Token.isKeyword_iff.mp hk) he hy₁
    exact ⟨used, hts, .inl hused⟩

end

theorem ne_nil_of_declaration {s : Stmt}
    (h : VariableDeclaration g ts s ∨ ∃ hanging, Statement g hanging ts s) : ts ≠ [] := by
  rcases h with h | ⟨hanging, h⟩
  · obtain ⟨t, tail, rfl, -⟩ := h.head
    simp
  · exact h.head.ne_nil

theorem declarations_cons {s : Stmt} {stmts : List Stmt}
    (h : VariableDeclaration g ts s ∨ ∃ hanging, Statement g hanging ts s)
    (hrest : Declarations g rest stmts) : Declarations g (ts ++ rest) (s :: stmts) := by
  rcases h with h | ⟨hanging, h⟩
  · exact .variable h hrest
  · exact .statement h hrest

/-- With a bound above the count of tokens, the loop stops only at the end or at a token that
closes it. -/
theorem derives_declarations {closes : Token → Bool} {one : Parser Stmt}
    (hone : ∀ ts s rest, Yields g one ts s rest → ∃ used, ts = used ++ rest ∧
      (VariableDeclaration g used s ∨ ∃ hanging, Statement g hanging used s))
    (hreads : Reads (fun _ => True) one (FormedStmt fun _ => True)) {bound : Nat}
    {stmts : List Stmt} (hy : Yields g (declarations closes one bound) ts stmts rest) :
    ∃ used, ts = used ++ rest ∧ Declarations g used stmts ∧
      (ts.length < bound → rest = [] ∨ Starts closes rest) := by
  induction bound generalizing ts stmts with
  | zero =>
    obtain ⟨rfl, rfl⟩ := yields_pure.mp hy
    exact ⟨[], rfl, .nil, by simp⟩
  | succ bound ih =>
    rw [yields_declarations_succ hreads (fun _ _ => trivial)] at hy
    rcases hy with ⟨hend, rfl, rfl⟩ | ⟨-, -, s, mid, others, hs, hothers, rfl⟩
    · exact ⟨[], rfl, .nil, fun _ => hend⟩
    · obtain ⟨front, rfl, hfront⟩ := hone _ _ _ hs
      obtain ⟨used, rfl, hused, hend⟩ := ih hothers
      have hlength := List.length_pos_iff.mpr (ne_nil_of_declaration hfront)
      refine ⟨front ++ used, by simp, declarations_cons hfront hused, fun hbound => hend ?_⟩
      simp only [List.length_append] at hbound ⊢
      omega

theorem derives_statement (bound : Nat) : DerivesStatement g (statement bound) := by
  induction bound with
  | zero => exact fun ts s rest hy => absurd hy yields_fail
  | succ bound ih =>
    intro ts s rest hy
    have he := derives_expression (g := g) (bound + 1)
    have hexpression : ∀ us, Yields g (expressionStatement (expression (bound + 1))) us s rest →
        StatementBefore g us s rest := by
      intro us h
      obtain ⟨used, rfl, hused⟩ := derives_expressionStatement he h
      exact ⟨used, false, rfl, .expression hused, by simp⟩
    match ts with
    | [] => exact hexpression [] hy
    | t :: ts =>
      simp only [Yields, statement] at hy
      split at hy
      case h_1 hk => exact derives_forStatement hk he ih hy
      case h_2 hk => exact derives_ifStatement hk he ih hy
      case h_3 hk => exact derives_printStatement hk he hy
      case h_4 hk => exact derives_whileStatement hk he ih hy
      case h_5 hk =>
        obtain ⟨body, mid, hbody, hy₁⟩ := yields_bind.mp hy
        obtain ⟨closing, mid', rfl, hclose, hend⟩ := yields_expectMark_bind.mp hy₁
        obtain ⟨rfl, rfl⟩ := yields_pure.mp hend
        obtain ⟨used, rfl, hused, -⟩ := derives_declarations
          (fun _ _ _ h => derives_declaration he ih h)
          (reads_declaration (reads_expression _) (reads_statement _)) hbody
        exact ⟨t :: (used ++ [closing]), false, by simp, .block hk hused hclose, by simp⟩
      case h_6 => exact hexpression _ hy

/-- What is yielded for a whole token list is a program. -/
theorem declarations_of_yields {stmts : List Stmt} (hy : Yields g program ts stmts rest) :
    rest = [] ∧ Declarations g ts stmts := by
  rw [yields_program] at hy
  obtain ⟨used, hts, hused, hend⟩ := derives_declarations
    (fun _ _ _ h => derives_declaration (derives_expression _) (derives_statement _) h)
    (reads_declaration (reads_expression _) (reads_statement _)) hy
  rcases hend (Nat.lt_succ_self _) with rfl | h
  · rw [List.append_nil] at hts
    exact ⟨rfl, hts ▸ hused⟩
  · simp [Starts] at h

end Treewalk.Grammar
