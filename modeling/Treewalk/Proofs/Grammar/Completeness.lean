import Treewalk.Proofs.Grammar.Soundness

/-!
# What is derived is yielded

A tree that has a derivation from the tokens `used` is what the parser yields from
`used ++ rest`, and `rest` is what it leaves, for each `rest` that cannot carry the phrase on.

* `Quiet tier rest`: no operator stands at the front of `rest` that an expression of the tier
  would go on with.
* `Expression.resumes`: reading a derived expression of a binary tier is the same as going on
  behind it with the loop of the tier. This is what the induction needs, for the derivation
  groups to the left while the loop runs to the right.
* `Statement.yields`, `Declarations.yields`: statements and programs, under rules by which an
  `else` joins the nearest `if`. A hanging statement is left only where no `else` comes next.

The bounds of the parsers are above the count of the tokens ahead.
-/

namespace Treewalk.Grammar

open Treewalk.Parser

variable {g : Rules} {used rest : List Token}

/-! ## Where an expression ends -/

/-- The looser a tier, the lower its rank. -/
def Tier.rank : Tier → Nat
  | .assignment => 0
  | .or => 1
  | .and => 2
  | .equality => 3
  | .comparison => 4
  | .term => 5
  | .factor => 6
  | .unary => 7
  | .primary => 8

def Quiet (tier : Tier) (rest : List Token) : Prop :=
  ∀ t ∈ rest.head?, (tier = .assignment → t.kind ≠ .mark .equal) ∧
    ∀ u : Tier, tier.rank ≤ u.rank → t.kind ∉ u.operators

theorem Quiet.tighter {tier : Tier} (h : Quiet tier rest) : Quiet tier.tighter rest := by
  intro t ht
  obtain ⟨-, hoperators⟩ := h t ht
  refine ⟨by cases tier <;> simp [Tier.tighter], fun u hu => hoperators u ?_⟩
  refine Nat.le_trans ?_ hu
  cases tier <;> simp [Tier.tighter, Tier.rank]

theorem Quiet.not_starts {tier : Tier} {level : Level} (h : Quiet tier rest)
    (hlevel : tier.level? = some level) : ¬ Starts level.isOperator rest := by
  rintro ⟨t, ht, hop⟩
  exact (h t ht).2 tier (Nat.le_refl _) ((isOperator_iff hlevel t).mp hop)

/-- An operator does not carry on what binds tighter. -/
theorem quiet_tighter_cons {tier : Tier} {op : Token} (h : op.kind ∈ tier.operators) :
    Quiet tier.tighter (op :: rest) := by
  intro t ht
  cases ht
  have hdisjoint : ∀ u : Tier, tier.tighter.rank ≤ u.rank →
      ∀ kind ∈ tier.operators, kind ∉ u.operators := by
    intro u
    cases tier <;> cases u <;> decide
  exact ⟨by cases tier <;> simp [Tier.tighter], fun u hu => hdisjoint u hu op.kind h⟩

theorem quiet_of_mark {m : Mark} {t : Token} (ht : t.kind = .mark m)
    (hm : m = .semicolon ∨ m = .rightParen) (tier : Tier) : Quiet tier (t :: rest) := by
  intro u hu
  cases hu
  rw [ht]
  rcases hm with rfl | rfl <;> refine ⟨by simp, fun v _ => ?_⟩ <;>
    cases v <;> simp [Tier.operators]

theorem quiet_or_equal {t : Token} (ht : t.kind = .mark .equal) {tier : Tier}
    (htier : tier ≠ .assignment) : Quiet tier (t :: rest) := by
  intro u hu
  cases hu
  rw [ht]
  refine ⟨fun h => absurd h htier, fun v _ => ?_⟩
  cases v <;> simp [Tier.operators]

/-! ## Expressions -/

/-- The loop of a tier, behind a left side. -/
def resume (bound rounds : Nat) (tier : Tier) (left : Expr) : Parser Expr :=
  match tier.level? with
  | some level => operations level (reader bound tier.tighter) rounds left
  | none => pure left

theorem yields_resume {bound rounds : Nat} {tier : Tier} {e : Expr} (h : Quiet tier rest) :
    Yields g (resume bound rounds tier e) rest e rest := by
  unfold resume
  split
  · rename_i level hlevel
    cases rounds with
    | zero => exact yields_self _
    | succ rounds => exact yields_operations_succ.mpr (.inl ⟨h.not_starts hlevel, rfl, rfl⟩)
  · exact yields_self _

/-- The parser of the tier yields the expression wherever it cannot be carried on. -/
def Complete (g : Rules) (tier : Tier) (used : List Token) (e : Expr) : Prop :=
  ∀ bound rest, (used ++ rest).length ≤ bound → Quiet tier rest →
    Yields g (reader bound tier) (used ++ rest) e rest

/-- Reading the expression comes to the loop of the tier behind it, with as many rounds fewer
as it has operators of the tier. -/
def Resumes (g : Rules) (tier : Tier) (used : List Token) (e : Expr) : Prop :=
  ∃ count, count < used.length ∧ ∀ bound rest, (used ++ rest).length ≤ bound →
    Quiet tier.tighter rest → (tier.level? = none → Quiet tier rest) →
    ∀ e' rest', Yields g (resume bound (bound - count) tier e) rest e' rest' →
      Yields g (reader bound tier) (used ++ rest) e' rest'

theorem Resumes.complete {tier : Tier} {e : Expr} (h : Resumes g tier used e) :
    Complete g tier used e := by
  obtain ⟨count, -, h⟩ := h
  intro bound rest hbound hrest
  exact h bound rest hbound hrest.tighter (fun _ => hrest) e rest (yields_resume hrest)

/-- On a tier without operators, nothing is left to the loop. -/
theorem Complete.resumes {tier : Tier} {e : Expr} (h : Complete g tier used e)
    (hused : used ≠ []) (hlevel : tier.level? = none) : Resumes g tier used e := by
  refine ⟨0, List.length_pos_iff.mpr hused, ?_⟩
  intro bound rest hbound _ hquiet e' rest' hy
  rw [resume, hlevel] at hy
  obtain ⟨rfl, rfl⟩ := yields_pure.mp hy
  exact h bound rest hbound (hquiet hlevel)

/-- Nested expressions. -/
theorem Complete.yields_expression {e : Expr} {bound : Nat} (h : Complete g .assignment used e)
    (hbound : (used ++ rest).length < bound) (hrest : Quiet .assignment rest) :
    Yields g (expression bound) (used ++ rest) e rest := by
  obtain ⟨bound, rfl⟩ := Nat.exists_eq_add_one_of_ne_zero (Nat.ne_of_gt (Nat.zero_lt_of_lt hbound))
  rw [expression_succ]
  exact h bound rest (Nat.le_of_lt_succ hbound) hrest

/-- On a binary tier, what binds tighter is the left side that the loop begins with. -/
theorem Complete.resumes_of_tighter {tier : Tier} {level : Level} {e : Expr}
    (h : Complete g tier.tighter used e) (hused : used ≠ [])
    (hlevel : tier.level? = some level) : Resumes g tier used e := by
  refine ⟨0, List.length_pos_iff.mpr hused, ?_⟩
  intro bound rest hbound hquiet _ e' rest' hy
  rw [resume, hlevel] at hy
  rw [reader_binary hlevel]
  have hleft := h bound rest hbound hquiet
  exact hleft.bind hy

theorem Complete.unary_of_primary {t : Token} {e : Expr}
    (h : Complete g .primary (t :: used) e) (ht : t.isUnary = false) :
    Complete g .unary (t :: used) e := by
  intro bound rest hbound hquiet
  have hy := h bound rest hbound hquiet.tighter
  simpa only [Yields, reader, binary, Tier.levels, List.cons_append, unary, ht,
    Bool.false_eq_true, if_false] using hy

theorem Complete.or_of_unary {e : Expr} (h : Complete g .unary used e) (hused : used ≠ []) :
    Complete g .or used e := by
  have hfactor : Complete g .factor used e := (h.resumes_of_tighter hused rfl).complete
  have hterm : Complete g .term used e := (hfactor.resumes_of_tighter hused rfl).complete
  have hcomparison : Complete g .comparison used e := (hterm.resumes_of_tighter hused rfl).complete
  have hequality : Complete g .equality used e :=
    (hcomparison.resumes_of_tighter hused rfl).complete
  have hand : Complete g .and used e := (hequality.resumes_of_tighter hused rfl).complete
  have hor : Resumes g .or used e := hand.resumes_of_tighter hused rfl
  exact hor.complete

theorem Complete.assignment_of_or {e : Expr} (h : Complete g .or used e) :
    Complete g .assignment used e := by
  intro bound rest hbound hquiet
  refine yields_bind.mpr ⟨e, rest, h bound rest hbound hquiet.tighter, ?_⟩
  rw [yields_ahead_bind, yields_take?_bind]
  refine .inl ⟨?_, yields_pure.mpr ⟨rfl, rfl⟩⟩
  rintro ⟨t, ht, hequal⟩
  exact (hquiet t ht).1 rfl (Token.isMark_iff.mp hequal)

theorem complete_literal {t : Token} {value : Value} (h : literalValue? t.kind = some value) :
    Complete g .primary [t] (.literal value) := by
  intro bound rest _ _
  unfold literalValue? at h
  split at h
  case h_6 => cases h
  all_goals
    rename_i hk
    cases h
    simp [Yields, reader, primary, Token.literal?, hk]

theorem complete_variable {t : Token} (h : t.kind = .identifier) :
    Complete g .primary [t] (.variable t) := by
  intro bound rest _ _
  simp [Yields, reader, primary, Token.literal?, h]

theorem complete_grouping {opening closing : Token} {e : Expr}
    (hopen : opening.kind = .mark .leftParen) (h : Complete g .assignment used e)
    (hclose : closing.kind = .mark .rightParen) :
    Complete g .primary (opening :: (used ++ [closing])) (.grouping e) := by
  intro bound rest hbound _
  have hinner : Yields g (expression bound) (used ++ closing :: rest) e (closing :: rest) :=
    h.yields_expression (by simp at hbound ⊢; omega) (quiet_of_mark hclose (.inr rfl) _)
  have hy : Yields g (do
      let inner ← expression bound
      expectMark .rightParen .expression
      return Expr.grouping inner) (used ++ closing :: rest) (.grouping e) rest := by
    apply hinner.bind
    apply yields_expectMark_cons hclose
    exact yields_self _
  simpa [Yields, reader, primary, Token.literal?, hopen] using hy

/-- A primary expression begins with no operator. -/
theorem head_of_primary {tier : Tier} {e : Expr} (h : Expression g tier used e)
    (htier : tier = .primary) : ∃ t tail, used = t :: tail ∧ t.isUnary = false := by
  induction h with
  | assign | invalid | unary => cases htier
  | operation _ hop => subst htier; cases hop
  | ofTighter _ ih => subst htier; exact ih rfl
  | literal h =>
    refine ⟨_, _, rfl, Bool.eq_false_iff.mpr fun hop => ?_⟩
    rw [Token.isUnary_iff] at hop
    simp only [List.mem_cons, List.not_mem_nil, or_false] at hop
    rcases hop with hop | hop <;> rw [hop] at h <;> cases h
  | «variable» hk | grouping hk => exact ⟨_, _, rfl, by simp [Token.isUnary, hk]⟩

theorem Expression.resumes {tier : Tier} {e : Expr} (h : Expression g tier used e) :
    Resumes g tier used e := by
  induction h with
  | @assign name equal value e hname hequal _ ih =>
    refine Complete.resumes ?_ (by simp) rfl
    intro bound rest hbound hquiet
    have hunary : Complete g .unary [name] (.variable name) :=
      (complete_variable hname).unary_of_primary (by simp [Token.isUnary, hname])
    have htarget := hunary.or_of_unary (by simp) bound _ hbound (quiet_or_equal hequal (by simp))
    have hvalue : Yields g (expression bound) (value ++ rest) e rest :=
      ih.complete.yields_expression (by simp at hbound ⊢; omega) hquiet
    apply htarget.bind
    rw [yields_ahead_bind]
    apply yields_take?_cons (Token.isMark_iff.mpr hequal)
    apply hvalue.bind
    exact yields_self _
  | @invalid equal target value l e hg htarget hl hequal _ ihTarget ihValue =>
    refine Complete.resumes ?_ (by simp) rfl
    intro bound rest hbound hquiet
    rw [List.append_assoc] at hbound ⊢
    have htarget := ihTarget.complete bound _ hbound (quiet_or_equal hequal (by simp))
    have hvalue : Yields g (expression bound) (value ++ rest) e rest :=
      ihValue.complete.yields_expression (by simp at hbound ⊢; omega) hquiet
    apply htarget.bind
    rw [yields_ahead_bind]
    apply yields_take?_cons (Token.isMark_iff.mpr hequal)
    apply hvalue.bind
    cases l with
    | «variable» name => exact absurd rfl (hl name)
    | _ => exact yields_report_bind.mpr ⟨⟨hg, rfl⟩, yields_self _⟩
  | @operation tier left right operator l r _ hop _ ihLeft ihRight =>
    obtain ⟨level, hlevel⟩ : ∃ level, tier.level? = some level := by
      cases tier <;> first | exact ⟨_, rfl⟩ | cases hop
    obtain ⟨count, hcount, h⟩ := ihLeft
    refine ⟨count + 1, by simp; omega, ?_⟩
    intro bound rest hbound hquiet _ e' rest' hy
    rw [List.append_assoc] at hbound ⊢
    refine h bound _ hbound (quiet_tighter_cons hop) (by simp [hlevel]) e' rest' ?_
    -- One round of the loop takes the operator and its right side.
    have hrounds : bound - count = bound - (count + 1) + 1 := by
      simp at hbound
      omega
    simp only [resume, hlevel] at hy ⊢
    rw [hrounds, List.cons_append, yields_operations_succ]
    refine .inr ⟨operator, right ++ rest, rfl, (isOperator_iff hlevel operator).mpr hop, r, rest,
      ihRight.complete bound rest (by simp at hbound ⊢; omega) hquiet, ?_⟩
    rwa [node_eq hlevel]
  | @ofTighter tier ts e h ih =>
    have hused : ts ≠ [] := by
      obtain ⟨t, tail, rfl, -⟩ := h.head
      simp
    cases hlevel : tier.level? with
    | some level => exact ih.complete.resumes_of_tighter hused hlevel
    | none =>
      cases tier with
      | assignment => exact ih.complete.assignment_of_or.resumes hused rfl
      | unary =>
        obtain ⟨t, tail, rfl, ht⟩ := head_of_primary h rfl
        exact (ih.complete.unary_of_primary ht).resumes hused rfl
      | primary => exact ih
      | _ => cases hlevel
  | @unary operator ts e hop _ ih =>
    refine Complete.resumes ?_ (by simp) rfl
    intro bound rest hbound hquiet
    have hy := ih.complete bound rest (by simp at hbound ⊢; omega) hquiet
    have hmap : Yields g (fun ts => (reader bound .unary ts).map (Expr.unary operator))
        (ts ++ rest) (Expr.unary operator e) rest := yields_reply_map.mpr ⟨e, hy, rfl⟩
    have hunary : operator.isUnary = true := Token.isUnary_iff.mpr hop
    simpa only [Yields, reader, binary, Tier.levels, List.cons_append, Parser.unary, hunary,
      if_true] using hmap
  | literal h => exact (complete_literal h).resumes (by simp) rfl
  | «variable» h => exact (complete_variable h).resumes (by simp) rfl
  | grouping hopen _ hclose ih =>
    exact (complete_grouping hopen ih.complete hclose).resumes (by simp) rfl

theorem Expression.yields {e : Expr} {bound : Nat} (h : Expression g .assignment used e)
    (hbound : (used ++ rest).length < bound) (hrest : Quiet .assignment rest) :
    Yields g (expression bound) (used ++ rest) e rest :=
  h.resumes.complete.yields_expression hbound hrest

/-! ## Simple statements and clauses -/

section

variable {bound : Nat} {s : Stmt}

/-- An expression up to the mark that closes it. -/
theorem Expression.yields_to_mark {e : Expr} {closing : Token} {m : Mark}
    (h : Expression g .assignment used e) (hclose : closing.kind = .mark m)
    (hm : m = .semicolon ∨ m = .rightParen) (hbound : (used ++ closing :: rest).length < bound) :
    Yields g (expression bound) (used ++ closing :: rest) e (closing :: rest) :=
  h.yields hbound (quiet_of_mark hclose hm _)

theorem ExpressionStatement.yields (h : ExpressionStatement g used s)
    (hbound : (used ++ rest).length < bound) :
    Yields g (expressionStatement (expression bound)) (used ++ rest) s rest := by
  cases h with
  | @intro ts e semicolon h hs =>
    simp only [List.append_assoc, List.singleton_append] at hbound ⊢
    have he := h.yields_to_mark hs (.inl rfl) hbound
    apply he.bind
    apply yields_expectMark_cons hs
    exact yields_self _

theorem VariableDeclaration.yields (h : VariableDeclaration g used s)
    (hbound : (used ++ rest).length < bound) :
    ∃ keyword tail, used = keyword :: tail ∧ keyword.isKeyword .kwVar = true ∧
      Yields g (variableDeclaration (expression bound)) (tail ++ rest) s rest := by
  cases h with
  | @bare keyword name semicolon hk hname hs =>
    refine ⟨keyword, [name, semicolon], rfl, Token.isKeyword_iff.mpr hk, ?_⟩
    refine yields_expect_bind.mpr ⟨name, semicolon :: rest, rfl, by simp [hname], ?_⟩
    apply yields_take?_none (by simp [Token.isMark, hs])
    apply (yields_self none).bind
    apply yields_expectMark_cons hs
    exact yields_self _
  | @withValue keyword name equal semicolon ts e hk hname hequal h hs =>
    refine ⟨keyword, name :: equal :: (ts ++ [semicolon]), rfl, Token.isKeyword_iff.mpr hk, ?_⟩
    simp only [List.cons_append, List.append_assoc, List.nil_append] at hbound ⊢
    have he : Yields g (expression bound) (ts ++ semicolon :: rest) e (semicolon :: rest) :=
      h.yields_to_mark hs (.inl rfl) (by simp at hbound ⊢; omega)
    refine yields_expect_bind.mpr ⟨name, _, rfl, by simp [hname], ?_⟩
    apply yields_take?_cons (Token.isMark_iff.mpr hequal)
    apply (he.map some).bind
    apply yields_expectMark_cons hs
    exact yields_self _

theorem Initializer.yields {loop whole : Stmt} (h : Initializer g used loop whole)
    (hbound : (used ++ rest).length < bound) :
    ∃ o, Yields g (forInitializer (Parser.expression bound)) (used ++ rest) o rest ∧
      whole = o.elim loop fun first => .block [first, loop] := by
  cases h with
  | @absent semicolon _ hs =>
    refine ⟨none, ?_, rfl⟩
    apply yields_take?_cons (Token.isMark_iff.mpr hs)
    exact yields_self _
  | @«variable» _ first _ h =>
    obtain ⟨keyword, tail, rfl, hk, hy⟩ := h.yields hbound
    have hsemicolon : ¬ Starts (Token.isMark .semicolon) (keyword :: (tail ++ rest)) := by
      simp [Token.isMark, Token.isKeyword_iff.mp hk]
    refine ⟨some first, ?_, rfl⟩
    apply yields_take?_none hsemicolon
    apply yields_take?_cons hk
    exact hy.map some
  | @expression _ first _ h =>
    have hy := h.yields hbound
    obtain ⟨t, tail, rfl, ht⟩ := h.head
    have hsemicolon : ¬ Starts (Token.isMark .semicolon) (t :: (tail ++ rest)) := by
      rw [starts_cons, Token.isMark_iff]
      intro hs
      simp [hs, opensExpression] at ht
    have hvar : ¬ Starts (Token.isKeyword .kwVar) (t :: (tail ++ rest)) := by
      rw [starts_cons, Token.isKeyword_iff]
      intro hk
      simp [hk, opensExpression] at ht
    refine ⟨some first, ?_, rfl⟩
    apply yields_take?_none hsemicolon
    apply yields_take?_none hvar
    exact hy.map some

/-- An expression is no empty clause. -/
theorem Expression.yields_forClause {e : Expr} {closing : Token} {m : Mark}
    (h : Expression g .assignment used e) (hclose : closing.kind = .mark m)
    (hm : m = .semicolon ∨ m = .rightParen) (hbound : (used ++ closing :: rest).length < bound) :
    Yields g (forClause m (expression bound)) (used ++ closing :: rest) (some e)
      (closing :: rest) := by
  have he := h.yields_to_mark hclose hm hbound
  refine yields_isAt_bind.mpr (.inr ⟨?_, he.map some⟩)
  obtain ⟨t, tail, rfl, ht⟩ := h.head
  rw [List.cons_append, starts_cons, Token.isMark_iff]
  intro hs
  rcases hm with rfl | rfl <;> simp [hs, opensExpression] at ht

theorem yields_forClause_nil {expr : Parser Expr} {closing : Token} {m : Mark}
    (hclose : closing.kind = .mark m) :
    Yields g (forClause m expr) (closing :: rest) none (closing :: rest) :=
  yields_isAt_bind.mpr (.inl
    ⟨(starts_cons _ _ _).mpr (Token.isMark_iff.mpr hclose), yields_self none⟩)

theorem Condition.yields {c : Expr} {closing : Token} (h : Condition g used c)
    (hclose : closing.kind = .mark .semicolon)
    (hbound : (used ++ closing :: rest).length < bound) :
    ∃ o, Yields g (forClause .semicolon (expression bound)) (used ++ closing :: rest) o
      (closing :: rest) ∧ c = o.getD (.literal (.bool true)) := by
  cases h with
  | always => exact ⟨none, yields_forClause_nil hclose, rfl⟩
  | given h => exact ⟨some c, h.yields_forClause hclose (.inl rfl) hbound, rfl⟩

theorem Increment.yields {body round : Stmt} {closing : Token} (h : Increment g used body round)
    (hclose : closing.kind = .mark .rightParen)
    (hbound : (used ++ closing :: rest).length < bound) :
    ∃ o, Yields g (forClause .rightParen (expression bound)) (used ++ closing :: rest) o
      (closing :: rest) ∧ round = o.elim body fun e => .block [body, .expression e] := by
  cases h with
  | absent => exact ⟨none, yields_forClause_nil hclose, rfl⟩
  | @given _ e _ h => exact ⟨some e, h.yields_forClause hclose (.inr rfl) hbound, rfl⟩

end

/-! ## Statements with statements inside -/

section

variable {expr : Parser Expr} {stmt : Parser Stmt} {opening closing : Token}
  {cs mid : List Token} {c : Expr} {body yes : Stmt}

theorem yields_whileStatement (hopen : opening.kind = .mark .leftParen)
    (hc : Yields g expr cs c (closing :: mid)) (hclose : closing.kind = .mark .rightParen)
    (hbody : Yields g stmt mid body rest) :
    Yields g (whileStatement expr stmt) (opening :: cs) (.loop c body) rest := by
  apply yields_expectMark_cons hopen
  apply hc.bind
  apply yields_expectMark_cons hclose
  apply hbody.bind
  exact yields_self _

theorem yields_ifStatement (hopen : opening.kind = .mark .leftParen)
    (hc : Yields g expr cs c (closing :: mid)) (hclose : closing.kind = .mark .rightParen)
    (hyes : Yields g stmt mid yes rest) (helse : ¬ Starts (Token.isKeyword .kwElse) rest) :
    Yields g (ifStatement expr stmt) (opening :: cs) (.ifThen c yes) rest := by
  apply yields_expectMark_cons hopen
  apply hc.bind
  apply yields_expectMark_cons hclose
  apply hyes.bind
  apply yields_take?_none helse
  exact yields_self _

theorem yields_ifStatement_else {otherwise : Token} {no : Stmt} {mid' : List Token}
    (hopen : opening.kind = .mark .leftParen)
    (hc : Yields g expr cs c (closing :: mid)) (hclose : closing.kind = .mark .rightParen)
    (hyes : Yields g stmt mid yes (otherwise :: mid'))
    (helse : otherwise.kind = .keyword .kwElse) (hno : Yields g stmt mid' no rest) :
    Yields g (ifStatement expr stmt) (opening :: cs) (.ifThenElse c yes no) rest := by
  apply yields_expectMark_cons hopen
  apply hc.bind
  apply yields_expectMark_cons hclose
  apply hyes.bind
  apply yields_take?_cons (Token.isKeyword_iff.mpr helse)
  apply hno.bind
  exact yields_self _

theorem yields_forStatement {semicolon : Token} {is ns mid' : List Token}
    {initializer : Option Stmt} {condition increment : Option Expr}
    (hopen : opening.kind = .mark .leftParen)
    (hi : Yields g (forInitializer expr) is initializer cs)
    (hc : Yields g (forClause .semicolon expr) cs condition (semicolon :: ns))
    (hs : semicolon.kind = .mark .semicolon)
    (hn : Yields g (forClause .rightParen expr) ns increment (closing :: mid'))
    (hclose : closing.kind = .mark .rightParen) (hbody : Yields g stmt mid' body rest) :
    Yields g (forStatement expr stmt) (opening :: is)
      (forLoop initializer condition increment body) rest := by
  apply yields_expectMark_cons hopen
  apply hi.bind
  apply hc.bind
  apply yields_expectMark_cons hs
  apply hn.bind
  apply yields_expectMark_cons hclose
  apply hbody.bind
  exact yields_self _

end

/-! ## Statements and programs -/

theorem statement_of_head {t : Token} (ht : opensExpression t.kind = true) (bound : Nat)
    (ts : List Token) :
    statement (bound + 1) (t :: ts) = expressionStatement (expression (bound + 1)) (t :: ts) := by
  simp only [statement]
  split
  case h_6 => rfl
  all_goals
    rename_i hk
    rw [hk] at ht
    cases ht

theorem yields_statement_of_head {bound : Nat} {t : Token} {ts : List Token} {s : Stmt}
    (ht : opensExpression t.kind = true)
    (hy : Yields g (expressionStatement (expression (bound + 1))) (t :: ts) s rest) :
    Yields g (statement (bound + 1)) (t :: ts) s rest := by
  simpa only [Yields, statement_of_head ht] using hy

/-- What follows a statement among declarations is no `else` that it could take. -/
theorem Declarations.not_starts_else {closes : Token → Bool} {stmts : List Stmt}
    (h : Declarations g used stmts) (hrest : rest = [] ∨ Starts closes rest)
    (hcloses : ∀ t, closes t = true → t.kind = .mark .rightBrace) :
    ¬ Starts (Token.isKeyword .kwElse) (used ++ rest) := by
  cases h with
  | nil =>
    rcases hrest with rfl | ⟨t, ht, hclose⟩
    · simp
    · rintro ⟨u, hu, helse⟩
      cases Option.mem_unique ht hu
      rw [Token.isKeyword_iff, hcloses t hclose] at helse
      cases helse
  | «variable» h =>
    obtain ⟨t, tail, rfl, ht⟩ := h.head
    simp [Token.isKeyword, ht]
  | statement h =>
    obtain ⟨t, tail, rfl, ht⟩ := h.head
    simp only [List.cons_append, starts_cons, Token.isKeyword_iff]
    exact fun helse => by simp [helse, opensStatement, opensExpression] at ht

/-- One round of the loop over declarations. -/
theorem yields_declarations_cons {closes : Token → Bool} {one : Parser Stmt} {rounds : Nat}
    {mid : List Token} {s : Stmt} {others : List Stmt}
    (hreads : Reads (fun _ => True) one (FormedStmt fun _ => True)) (hused : used ≠ [])
    (hcloses : ¬ Starts closes used) (hs : Yields g one (used ++ mid) s mid)
    (hothers : Yields g (declarations closes one rounds) mid others rest) :
    Yields g (declarations closes one (rounds + 1)) (used ++ mid) (s :: others) rest := by
  rw [yields_declarations_succ hreads (fun _ _ => trivial)]
  refine .inr ⟨by simp [hused], ?_, s, mid, others, hs, hothers, rfl⟩
  obtain ⟨t, tail, rfl⟩ := List.exists_cons_of_ne_nil hused
  exact hcloses

mutual

theorem Statement.yields (hg : ¬ g.anyElse) {hanging : Bool} {used : List Token} {s : Stmt} :
    Statement g hanging used s → ∀ bound rest, (used ++ rest).length < bound →
      (hanging = true → ¬ Starts (Token.isKeyword .kwElse) rest) →
      Yields g (statement bound) (used ++ rest) s rest
  | .expression h, bound + 1, rest, hbound, _ => by
    have hy := h.yields hbound
    obtain ⟨t, tail, rfl, ht⟩ := h.head
    exact yields_statement_of_head ht hy
  | @Statement.print _ keyword semicolon ts e hk h hs, bound + 1, rest, hbound, _ => by
    simp only [List.cons_append, List.append_assoc, List.nil_append] at hbound ⊢
    have he : Yields g (expression (bound + 1)) (ts ++ semicolon :: rest) e (semicolon :: rest) :=
      h.yields_to_mark hs (.inl rfl) (by simp at hbound ⊢; omega)
    have hy : Yields g (printStatement (expression (bound + 1))) (ts ++ semicolon :: rest)
        (.print e) rest := by
      apply he.bind
      apply yields_expectMark_cons hs
      exact yields_self _
    simpa only [Yields, statement, hk] using hy
  | @Statement.block _ opening closing ts body hopen h hclose, bound + 1, rest, hbound, _ => by
    simp only [List.cons_append, List.append_assoc, List.nil_append] at hbound ⊢
    have hcloses : Starts (Token.isMark .rightBrace) (closing :: rest) :=
      (starts_cons _ _ _).mpr (Token.isMark_iff.mpr hclose)
    have hbody := Declarations.yields hg h (Token.isMark .rightBrace) (bound + 1) bound bound
      (closing :: rest) (by simp at hbound ⊢; omega) (by simp at hbound ⊢; omega)
      (by simp at hbound; omega) (.inr hcloses) (fun t => Token.isMark_iff.mp)
    have hy : Yields g (block bound (expression (bound + 1)) (statement bound))
        (ts ++ closing :: rest) (.block body) rest := by
      apply hbody.bind
      apply yields_expectMark_cons hclose
      exact yields_self _
    simpa only [Yields, statement, hopen] using hy
  | @Statement.loop _ keyword opening closing cs bs c body hanging hk hopen hc hclose hbody,
      bound + 1, rest, hbound, hrest => by
    simp only [List.cons_append, List.append_assoc] at hbound ⊢
    have hc' : Yields g (expression (bound + 1)) (cs ++ closing :: (bs ++ rest)) c
        (closing :: (bs ++ rest)) :=
      hc.yields_to_mark hclose (.inr rfl) (by simp at hbound ⊢; omega)
    have hbody' := Statement.yields hg hbody bound rest (by simp at hbound ⊢; omega) hrest
    have hy := yields_whileStatement hopen hc' hclose hbody'
    simpa only [Yields, statement, hk] using hy
  | @Statement.forLoop _ keyword opening semicolon closing is cs ns bs c body round whole hanging
      hk hopen hi hc hs hn hclose hbody, bound + 1, rest, hbound, hrest => by
    simp only [List.cons_append, List.append_assoc] at hbound ⊢
    have hboundI : (is ++ (cs ++ semicolon :: (ns ++ closing :: (bs ++ rest)))).length <
        bound + 1 := by
      simp at hbound ⊢
      omega
    have hboundC : (cs ++ semicolon :: (ns ++ closing :: (bs ++ rest))).length < bound + 1 := by
      simp at hbound ⊢
      omega
    have hboundN : (ns ++ closing :: (bs ++ rest)).length < bound + 1 := by
      simp at hbound ⊢
      omega
    obtain ⟨initializer, hi', rfl⟩ := hi.yields hboundI
    obtain ⟨condition, hc', rfl⟩ := hc.yields hs hboundC
    obtain ⟨increment, hn', rfl⟩ := hn.yields hclose hboundN
    have hbody' := Statement.yields hg hbody bound rest (by simp at hbound ⊢; omega) hrest
    have hy := yields_forStatement hopen hi' hc' hs hn' hclose hbody'
    rw [forLoop_eq] at hy
    simpa only [Yields, statement, hk] using hy
  | @Statement.ifThen _ keyword opening closing cs ys c yes hanging hk hopen hc hclose hyes,
      bound + 1, rest, hbound, hrest => by
    simp only [List.cons_append, List.append_assoc] at hbound ⊢
    have hc' : Yields g (expression (bound + 1)) (cs ++ closing :: (ys ++ rest)) c
        (closing :: (ys ++ rest)) :=
      hc.yields_to_mark hclose (.inr rfl) (by simp at hbound ⊢; omega)
    have hyes' := Statement.yields hg hyes bound rest (by simp at hbound ⊢; omega)
      (fun _ => hrest rfl)
    have hy := yields_ifStatement hopen hc' hclose hyes' (hrest rfl)
    simpa only [Yields, statement, hk] using hy
  | @Statement.ifThenElse _ keyword opening closing otherwise cs ys ns c yes no hangingYes hanging
      hk hopen hc hclose hyes hjoin helse hno, bound + 1, rest, hbound, hrest => by
    simp only [List.cons_append, List.append_assoc] at hbound ⊢
    have hc' : Yields g (expression (bound + 1))
        (cs ++ closing :: (ys ++ otherwise :: (ns ++ rest))) c
        (closing :: (ys ++ otherwise :: (ns ++ rest))) :=
      hc.yields_to_mark hclose (.inr rfl) (by simp at hbound ⊢; omega)
    have hyes' := Statement.yields hg hyes bound (otherwise :: (ns ++ rest))
      (by simp at hbound ⊢; omega) (fun h => absurd (hjoin h) hg)
    have hno' := Statement.yields hg hno bound rest (by simp at hbound ⊢; omega) hrest
    have hy := yields_ifStatement_else hopen hc' hclose hyes' helse hno'
    simpa only [Yields, statement, hk] using hy

theorem Declarations.yields (hg : ¬ g.anyElse) {used : List Token} {stmts : List Stmt} :
    Declarations g used stmts → ∀ (closes : Token → Bool) (b c rounds : Nat) (rest : List Token),
      (used ++ rest).length < b → (used ++ rest).length < c → used.length < rounds →
      (rest = [] ∨ Starts closes rest) →
      (∀ t, closes t = true → t.kind = .mark .rightBrace) →
      Yields g (declarations closes (declaration (expression b) (statement c)) rounds)
        (used ++ rest) stmts rest
  | .nil, closes, b, c, rounds + 1, rest, _, _, _, hrest, _ =>
    (yields_declarations_succ (reads_declaration (reads_expression _) (reads_statement _))
      (fun _ _ => trivial)).mpr (.inl ⟨hrest, rfl, rfl⟩)
  | @Declarations.variable _ ts us s stmts h hothers, closes, b, c, rounds + 1, rest, hb, hc,
      hrounds, hrest, hcloses => by
    have hbound : (ts ++ (us ++ rest)).length < b := by simpa using hb
    obtain ⟨keyword, tail, rfl, hk, hy⟩ := h.yields hbound
    have hothers' := Declarations.yields hg hothers closes b c rounds rest
      (by simp at hb ⊢; omega) (by simp at hc ⊢; omega) (by simp at hrounds; omega) hrest hcloses
    have hone : Yields g (declaration (expression b) (statement c))
        (keyword :: (tail ++ (us ++ rest))) s (us ++ rest) :=
      yields_take?_cons hk hy
    rw [List.append_assoc]
    refine yields_declarations_cons
      (reads_declaration (reads_expression _) (reads_statement _)) (by simp) ?_ hone hothers'
    rw [starts_cons]
    intro hclose
    simp [Token.isKeyword, hcloses _ hclose] at hk
  | @Declarations.statement _ ts us s stmts hanging h hothers, closes, b, c, rounds + 1, rest, hb,
      hc, hrounds, hrest, hcloses => by
    have hy := Statement.yields hg h c (us ++ rest) (by simpa using hc)
      (fun _ => hothers.not_starts_else hrest hcloses)
    obtain ⟨t, tail, rfl, ht⟩ := h.head
    have hothers' := Declarations.yields hg hothers closes b c rounds rest
      (by simp at hb ⊢; omega) (by simp at hc ⊢; omega) (by simp at hrounds; omega) hrest hcloses
    have hvar : ¬ Starts (Token.isKeyword .kwVar) (t :: tail ++ (us ++ rest)) := by
      rw [List.cons_append, starts_cons, Token.isKeyword_iff]
      intro hk
      simp [hk, opensStatement, opensExpression] at ht
    have hone : Yields g (declaration (expression b) (statement c)) (t :: tail ++ (us ++ rest)) s
        (us ++ rest) :=
      yields_take?_none hvar hy
    rw [List.append_assoc]
    refine yields_declarations_cons
      (reads_declaration (reads_expression _) (reads_statement _)) (by simp) ?_ hone hothers'
    rw [starts_cons]
    intro hclose
    simp [hcloses _ hclose, opensStatement, opensExpression] at ht

end

/-- A program is yielded as a whole. -/
theorem Declarations.yields_program (hg : ¬ g.anyElse) {ts : List Token} {stmts : List Stmt}
    (h : Declarations g ts stmts) : Yields g program ts stmts [] := by
  rw [Parser.yields_program]
  have hy := Declarations.yields hg h (fun _ => false) (ts.length + 1) (ts.length + 1)
    (ts.length + 1) [] (by simp) (by simp) (by simp) (.inl rfl) (by simp)
  rwa [List.append_nil] at hy

end Treewalk.Grammar
