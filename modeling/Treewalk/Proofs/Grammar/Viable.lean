import Treewalk.Proofs.Grammar.Soundness
import Treewalk.Proofs.Parser.Fails

/-!
# What is read can be completed

A parser never passes a token that it cannot use: whatever it has read when it fails is the
beginning of some phrase. `Viable p X` says this of `p`, along with what the phrases are: a value
`a` that `p` yields is read from tokens `used` with `X a used`, and tokens read before a failure can
be completed to such `used`. Only the relaxed rules are considered, for under them no error but the
fatal ones stands in the way of a derivation.

* `viable_bind`: of a sequence. Where the first part fails, its phrase is completed first, then some
  phrase of the second part is added; so there has to be one for each value.
* `viable_expression`, `viable_statement`, `viable_program`.
-/

namespace Treewalk.Grammar

open Treewalk.Parser

structure Viable {α : Type} (p : Parser α) (X : α → List Token → Prop) : Prop where
  yields : ∀ ts a rest, Yields .relaxed p ts a rest → ∃ used, ts = used ++ rest ∧ X a used
  fails : ∀ ts e, Fails p ts e → ∃ used more a, ts = used ++ e.ahead ∧ X a (used ++ more)
  inhabited : ∃ a used, X a used

variable {α β : Type} {p : Parser α} {X : α → List Token → Prop} {Z : β → List Token → Prop}

/-! ## Building blocks -/

theorem Viable.mono {Y : α → List Token → Prop} (h : Viable p X)
    (hXY : ∀ a used, X a used → Y a used) : Viable p Y where
  yields ts a rest hy := by
    obtain ⟨used, hts, hused⟩ := h.yields ts a rest hy
    exact ⟨used, hts, hXY a used hused⟩
  fails ts e hf := by
    obtain ⟨used, more, a, hts, hused⟩ := h.fails ts e hf
    exact ⟨used, more, a, hts, hXY a _ hused⟩
  inhabited := by
    obtain ⟨a, used, hused⟩ := h.inhabited
    exact ⟨a, used, hXY a used hused⟩

theorem viable_pure {a : α} (h : X a []) : Viable (pure a) X where
  yields ts b rest hy := by
    obtain ⟨rfl, rfl⟩ := yields_pure.mp hy
    exact ⟨[], rfl, h⟩
  fails _ _ hf := absurd hf fails_pure
  inhabited := ⟨a, [], h⟩

theorem viable_fail {fault : SyntaxFault} (hfault : fault ≠ .invalidTarget)
    (h : ∃ a used, X a used) : Viable (fail fault) X where
  yields _ _ _ hy := absurd hy yields_fail
  fails ts e hf := by
    obtain rfl := (fails_fail hfault).mp hf
    obtain ⟨a, used, hused⟩ := h
    exact ⟨[], used, a, rfl, hused⟩
  inhabited := h

theorem viable_bind {f : α → Parser β} (hp : Viable p X)
    (hf : ∀ a used, X a used → Viable (f a) fun b more => Z b (used ++ more)) :
    Viable (p >>= f) Z where
  yields ts b rest hy := by
    obtain ⟨a, mid, ha, hb⟩ := yields_bind.mp hy
    obtain ⟨used, rfl, hused⟩ := hp.yields ts a mid ha
    obtain ⟨more, rfl, hmore⟩ := (hf a used hused).yields mid b rest hb
    exact ⟨used ++ more, by simp, hmore⟩
  fails ts e h := by
    rcases fails_bind.mp h with hfirst | ⟨a, mid, ha, hsecond⟩
    · obtain ⟨used, more, a, hts, hphrase⟩ := hp.fails ts e hfirst
      obtain ⟨b, last, hlast⟩ := (hf a _ hphrase).inhabited
      exact ⟨used, more ++ last, b, hts, by simpa using hlast⟩
    · obtain ⟨used, rfl, hused⟩ := hp.yields ts a mid ha
      obtain ⟨used', more, b, rfl, hphrase⟩ := (hf a used hused).fails mid e hsecond
      exact ⟨used ++ used', more, b, by simp, by simpa using hphrase⟩
  inhabited := by
    obtain ⟨a, used, hused⟩ := hp.inhabited
    obtain ⟨b, more, hmore⟩ := (hf a used hused).inhabited
    exact ⟨b, used ++ more, hmore⟩

theorem viable_map {f : α → β} (hp : Viable p X) (hf : ∀ a used, X a used → Z (f a) used) :
    Viable (f <$> p) Z :=
  viable_bind hp fun a used h => viable_pure (by simpa using hf a used h)

theorem viable_take? (wanted : Token → Bool) :
    Viable (take? wanted) fun o used =>
      o = none ∧ used = [] ∨ ∃ t, wanted t = true ∧ o = some t ∧ used = [t] where
  yields ts o rest hy := by
    rcases yields_take?.mp hy with ⟨-, rfl, rfl⟩ | ⟨t, rfl, ht, rfl⟩
    · exact ⟨[], rfl, .inl ⟨rfl, rfl⟩⟩
    · exact ⟨[t], rfl, .inr ⟨t, ht, rfl, rfl⟩⟩
  fails _ _ hf := absurd hf fails_take?
  inhabited := ⟨none, [], .inl ⟨rfl, rfl⟩⟩

theorem viable_take?_bind {wanted : Token → Bool} {f : Option Token → Parser β}
    (hnone : Viable (f none) Z)
    (hsome : ∀ t, wanted t = true → Viable (f (some t)) fun b more => Z b (t :: more)) :
    Viable (take? wanted >>= f) Z := by
  apply viable_bind (viable_take? wanted)
  rintro o used (⟨rfl, rfl⟩ | ⟨t, ht, rfl, rfl⟩)
  · exact hnone
  · exact hsome t ht

/-- A token that has to come next can be added where it is missed. -/
theorem viable_expect {wanted : Token → Bool} {fault : SyntaxFault}
    (hfault : fault ≠ .invalidTarget) {t : Token} (ht : wanted t = true) :
    Viable (expect wanted fault) fun u used => wanted u = true ∧ used = [u] where
  yields ts u rest hy := by
    obtain ⟨rfl, hu⟩ := yields_expect.mp hy
    exact ⟨[u], rfl, hu, rfl⟩
  fails ts e hf := by
    obtain ⟨-, rfl⟩ := (fails_expect hfault).mp hf
    exact ⟨[], [t], t, rfl, ht, rfl⟩
  inhabited := ⟨t, [t], ht, rfl⟩

theorem viable_expectMark (m : Mark) (after : Phrase) :
    Viable (expectMark m after) fun _ used => ∃ t, t.kind = .mark m ∧ used = [t] := by
  apply viable_bind (viable_expect (t := ⟨.mark m, m.text, 1⟩) (by simp) (by simp [Token.isMark]))
  rintro t used ⟨ht, rfl⟩
  exact viable_pure ⟨t, Token.isMark_iff.mp ht, rfl⟩

theorem viable_expectMark_bind {m : Mark} {after : Phrase} {f : Unit → Parser β}
    (hf : ∀ t, t.kind = .mark m → Viable (f ()) fun b more => Z b (t :: more)) :
    Viable (expectMark m after >>= f) Z := by
  apply viable_bind (viable_expectMark m after)
  rintro ⟨⟩ used ⟨t, ht, rfl⟩
  exact hf t ht

/-- Without reading, nothing has to be completed. -/
theorem viable_of_stays (hstays : ∀ ts a rest, Yields .relaxed p ts a rest → ts = rest)
    (hfails : ∀ ts e, ¬ Fails p ts e) (a : α) : Viable p fun _ used => used = [] where
  yields ts b rest hy := ⟨[], hstays ts b rest hy, rfl⟩
  fails ts e hf := absurd hf (hfails ts e)
  inhabited := ⟨a, [], rfl⟩

theorem viable_isAt (m : Mark) : Viable (isAt m) fun _ used => used = [] :=
  viable_of_stays (fun _ _ _ hy => (yields_isAt.mp hy).2) (fun _ _ => fails_isAt) true

theorem viable_ahead : Viable ahead fun _ used => used = [] :=
  viable_of_stays (fun _ _ _ hy => (yields_ahead.mp hy).2) (fun _ _ => fails_ahead) []

/-- Reporting an invalid target is no failure. -/
theorem viable_report (place : List Token) :
    Viable (report ⟨.invalidTarget, place⟩) fun _ used => used = [] :=
  viable_of_stays (fun _ _ _ hy => (yields_report.mp hy).2) (fun _ _ => fails_report) ()

/-! ## Expressions -/

/-- Every expression of the tier can be completed. -/
abbrev ViableExpression (p : Parser Expr) (tier : Tier) : Prop :=
  Viable p fun e used => Expression .relaxed tier used e

theorem exists_primary : ∃ e used, Expression .relaxed .primary used e :=
  ⟨_, [⟨.identifier, "x", 1⟩], .variable rfl⟩

theorem exists_expression : ∃ e used, Expression .relaxed .assignment used e := by
  obtain ⟨e, used, h⟩ := exists_primary
  exact ⟨e, used, .ofTighter h.or_of_primary⟩

theorem viable_primary {nested : Parser Expr} (h : ViableExpression nested .assignment) :
    ViableExpression (primary nested) .primary := by
  rw [primary_eq]
  apply viable_take?_bind
  · exact viable_fail (by simp) exists_primary
  · intro t ht
    change Viable (primaryBehind nested t) _
    unfold primaryBehind
    split
    case h_1 value hvalue => exact viable_pure (.literal hvalue)
    case h_2 hnone =>
      split
      case isTrue hk => exact viable_pure (.variable hk)
      case isFalse hk =>
        have hopen : t.kind = .mark .leftParen := by
          simpa [opensPrimary, hnone, hk, Token.isMark_iff] using ht
        apply viable_bind h
        intro inner used hinner
        apply viable_expectMark_bind
        intro closing hclose
        exact viable_pure (.grouping hopen hinner hclose)

theorem viable_unary {nested : Parser Expr} (h : ViableExpression nested .assignment) :
    ViableExpression (unary nested) .unary := by
  have hprimary := (viable_primary h).mono fun e used hused =>
    (Expression.ofTighter hused : Expression .relaxed .unary used e)
  refine ⟨derives_unary h.yields, fun ts e hf => ?_, hprimary.inhabited⟩
  induction ts with
  | nil => exact hprimary.fails [] e hf
  | cons t ts ih =>
    rw [unary_eq, fails_bind] at hf
    obtain ⟨o, mid, ho, hf⟩ := hf.resolve_left fails_take?
    rcases yields_take?.mp ho with ⟨-, rfl, rfl⟩ | ⟨t', heq, hop, rfl⟩
    · exact hprimary.fails (t :: ts) e hf
    · obtain ⟨rfl, rfl⟩ := List.cons.inj heq
      obtain ⟨used, more, operand, rfl, hoperand⟩ := ih (fails_map.mp hf)
      exact ⟨t :: used, more, .unary t operand, rfl, .unary (Token.isUnary_iff.mp hop) hoperand⟩

/-- The loop goes on from a left side that stands behind the tokens `front`. -/
theorem viable_operations {tier : Tier} {level : Level} (hlevel : tier.level? = some level)
    {operand : Parser Expr} (h : ViableExpression operand tier.tighter) (bound : Nat)
    {front : List Token} {left : Expr} (hleft : Expression .relaxed tier front left) :
    Viable (operations level operand bound left) fun e used =>
      Expression .relaxed tier (front ++ used) e := by
  induction bound generalizing front left with
  | zero => exact viable_pure (by simpa using hleft)
  | succ bound ih =>
    rw [operations]
    apply viable_take?_bind
    · exact viable_pure (by simpa using hleft)
    · intro op hop
      apply viable_bind h
      intro right used hright
      have hnode : Expression .relaxed tier (front ++ op :: used) (level.node left op right) :=
        node_eq hlevel ▸ .operation hleft ((isOperator_iff hlevel op).mp hop) hright
      exact (ih hnode).mono fun e more hmore => by simpa using hmore

theorem viable_binary {bound : Nat} (tier : Tier) {level : Level}
    (hlevel : tier.level? = some level)
    (h : ViableExpression (reader bound tier.tighter) tier.tighter) :
    ViableExpression (reader bound tier) tier := by
  rw [reader_binary hlevel]
  exact viable_bind h fun left used hleft =>
    viable_operations hlevel h bound (.ofTighter hleft)

theorem viable_or {bound : Nat} (h : ViableExpression (expression bound) .assignment) :
    ViableExpression (reader bound .or) .or := by
  have hunary : ViableExpression (reader bound .unary) .unary := viable_unary h
  have hfactor := viable_binary .factor rfl hunary
  have hterm := viable_binary .term rfl hfactor
  have hcomparison := viable_binary .comparison rfl hterm
  have hequality := viable_binary .equality rfl hcomparison
  have hand := viable_binary .and rfl hequality
  exact viable_binary .or rfl hand

theorem viable_assignment {bound : Nat} (h : ViableExpression (expression bound) .assignment) :
    ViableExpression (reader bound .assignment) .assignment := by
  refine viable_bind (viable_or h) fun left front hleft => ?_
  apply viable_bind viable_ahead
  rintro place _ rfl
  apply viable_take?_bind
  · exact viable_pure (by simpa using .ofTighter hleft)
  · intro equal hequal
    rw [Token.isMark_iff] at hequal
    apply viable_bind h
    intro value used hvalue
    cases left with
    | «variable» name =>
      obtain ⟨rfl, hk⟩ := tokens_of_variable hleft (by simp) rfl
      exact viable_pure (by simpa using .assign hk hequal hvalue)
    | _ =>
      apply viable_bind (viable_report place)
      rintro ⟨⟩ _ rfl
      exact viable_pure (by simpa using .invalid trivial hleft (by simp) hequal hvalue)

theorem viable_expression (bound : Nat) : ViableExpression (expression bound) .assignment := by
  induction bound with
  | zero => exact viable_fail (by simp) exists_expression
  | succ bound ih =>
    rw [expression_succ]
    exact viable_assignment ih

/-! ## Statements -/

/-- Every statement can be completed. -/
abbrev ViableStatement (p : Parser Stmt) (front : List Token) : Prop :=
  Viable p fun s used => ∃ hanging, Statement .relaxed hanging (front ++ used) s

section

variable {expr : Parser Expr} {stmt : Parser Stmt}

theorem viable_expressionStatement (he : ViableExpression expr .assignment) :
    Viable (expressionStatement expr) fun s used => ExpressionStatement .relaxed used s := by
  apply viable_bind he
  intro e used hused
  apply viable_expectMark_bind
  intro semicolon hs
  exact viable_pure (.intro hused hs)

theorem viable_printStatement {keyword : Token} (hk : keyword.kind = .keyword .kwPrint)
    (he : ViableExpression expr .assignment) :
    ViableStatement (printStatement expr) [keyword] := by
  apply viable_bind he
  intro e used hused
  apply viable_expectMark_bind
  intro semicolon hs
  exact viable_pure ⟨false, .print hk hused hs⟩

theorem viable_variableDeclaration {keyword : Token} (hk : keyword.kind = .keyword .kwVar)
    (he : ViableExpression expr .assignment) :
    Viable (variableDeclaration expr) fun s used =>
      VariableDeclaration .relaxed (keyword :: used) s := by
  apply viable_bind (viable_expect (t := ⟨.identifier, "x", 1⟩) (by simp) rfl)
  rintro name _ ⟨hname, rfl⟩
  rw [decide_eq_true_eq] at hname
  apply viable_take?_bind
  · apply viable_bind (viable_pure (X := fun o used => o = none ∧ used = []) ⟨rfl, rfl⟩)
    rintro o used ⟨rfl, rfl⟩
    apply viable_expectMark_bind
    intro semicolon hs
    exact viable_pure (.bare hk hname hs)
  · intro equal hequal
    apply viable_bind (viable_map he (Z := fun o used => ∃ e, o = some e ∧
      Expression .relaxed .assignment used e) fun e used hused => ⟨e, rfl, hused⟩)
    rintro o used ⟨e, rfl, hused⟩
    apply viable_expectMark_bind
    intro semicolon hs
    exact viable_pure (.withValue hk hname (Token.isMark_iff.mp hequal) hused hs)

theorem viable_whileStatement {keyword : Token} (hk : keyword.kind = .keyword .kwWhile)
    (he : ViableExpression expr .assignment) (hstmt : ViableStatement stmt []) :
    ViableStatement (whileStatement expr stmt) [keyword] := by
  apply viable_expectMark_bind
  intro opening hopen
  apply viable_bind he
  intro c cs hc
  apply viable_expectMark_bind
  intro closing hclose
  apply viable_bind hstmt
  rintro body bs ⟨hanging, hbody⟩
  exact viable_pure ⟨hanging, by simpa using .loop hk hopen hc hclose hbody⟩

theorem viable_ifStatement {keyword : Token} (hk : keyword.kind = .keyword .kwIf)
    (he : ViableExpression expr .assignment) (hstmt : ViableStatement stmt []) :
    ViableStatement (ifStatement expr stmt) [keyword] := by
  apply viable_expectMark_bind
  intro opening hopen
  apply viable_bind he
  intro c cs hc
  apply viable_expectMark_bind
  intro closing hclose
  apply viable_bind hstmt
  rintro yes ys ⟨hangingYes, hyes⟩
  apply viable_take?_bind
  · exact viable_pure ⟨true, by simpa using .ifThen hk hopen hc hclose hyes⟩
  · intro otherwise helse
    apply viable_bind hstmt
    rintro no ns ⟨hanging, hno⟩
    have hboth := Statement.ifThenElse hk hopen hc hclose hyes (fun _ => trivial)
      (Token.isKeyword_iff.mp helse) hno
    exact viable_pure ⟨hanging, by simpa using hboth⟩

theorem viable_forInitializer (he : ViableExpression expr .assignment) :
    Viable (forInitializer expr) fun o used =>
      ∀ loop, Initializer .relaxed used loop (o.elim loop fun first => .block [first, loop]) := by
  apply viable_take?_bind
  · apply viable_take?_bind
    · exact viable_map (viable_expressionStatement he) fun s used hused _ => .expression hused
    · intro keyword hk
      exact viable_map (viable_variableDeclaration (Token.isKeyword_iff.mp hk) he)
        fun s used hused _ => .variable hused
  · intro semicolon hs
    exact viable_pure fun _ => .absent (Token.isMark_iff.mp hs)

theorem viable_forClause (he : ViableExpression expr .assignment) (close : Mark) :
    Viable (forClause close expr) fun o used =>
      o = none ∧ used = [] ∨ ∃ e, o = some e ∧ Expression .relaxed .assignment used e := by
  apply viable_bind (viable_isAt close)
  rintro (_ | _) _ rfl
  · exact viable_map he fun e used hused => .inr ⟨e, rfl, hused⟩
  · exact viable_pure (.inl ⟨rfl, rfl⟩)

theorem viable_forStatement {keyword : Token} (hk : keyword.kind = .keyword .kwFor)
    (he : ViableExpression expr .assignment) (hstmt : ViableStatement stmt []) :
    ViableStatement (forStatement expr stmt) [keyword] := by
  apply viable_expectMark_bind
  intro opening hopen
  apply viable_bind (viable_forInitializer he)
  intro initializer is hi
  apply viable_bind (viable_forClause he .semicolon)
  intro condition cs hc
  apply viable_expectMark_bind
  intro semicolon hs
  apply viable_bind (viable_forClause he .rightParen)
  intro increment ns hn
  apply viable_expectMark_bind
  intro closing hclose
  apply viable_bind hstmt
  rintro body bs ⟨hanging, hbody⟩
  apply viable_pure
  refine ⟨hanging, ?_⟩
  simpa using statement_forLoop hk hopen hi hc hs hn hclose hbody

/-! ## Programs -/

theorem viable_declaration (he : ViableExpression expr .assignment)
    (hstmt : ViableStatement stmt []) :
    Viable (declaration expr stmt) fun s used =>
      VariableDeclaration .relaxed used s ∨ ∃ hanging, Statement .relaxed hanging used s := by
  apply viable_take?_bind
  · exact hstmt.mono fun s used => .inr
  · intro keyword hk
    exact (viable_variableDeclaration (Token.isKeyword_iff.mp hk) he).mono fun s used => .inl

/-- The loop recovers from failures behind the first one only. -/
theorem viable_declarations {closes : Token → Bool} {one : Parser Stmt}
    (hone : Viable one fun s used =>
      VariableDeclaration .relaxed used s ∨ ∃ hanging, Statement .relaxed hanging used s)
    (hreads : Reads (fun _ => True) one (FormedStmt fun _ => True)) (bound : Nat) :
    Viable (declarations closes one bound) fun stmts used =>
      Declarations .relaxed used stmts := by
  refine ⟨fun ts stmts rest hy => ?_, fun ts e hf => ?_, [], [], .nil⟩
  · obtain ⟨used, hts, hused, -⟩ := derives_declarations hone.yields hreads hy
    exact ⟨used, hts, hused⟩
  · induction bound generalizing ts with
    | zero => exact absurd hf fails_pure
    | succ bound ih =>
      obtain ⟨-, -, hround⟩ := (fails_declarations_succ hreads fun _ _ => trivial).mp hf
      rcases fails_bind.mp hround with hfirst | ⟨s, mid, hs, hlater⟩
      · obtain ⟨used, more, s, hts, hs⟩ := hone.fails ts e hfirst
        exact ⟨used, more, [s], hts, by simpa using declarations_cons hs .nil⟩
      · obtain ⟨front, rfl, hfront⟩ := hone.yields ts s mid hs
        obtain ⟨used, more, others, rfl, hothers⟩ := ih mid (fails_map.mp hlater)
        exact ⟨front ++ used, more, s :: others, by simp,
          by simpa using declarations_cons hfront hothers⟩

theorem viable_block {opening : Token} (hopen : opening.kind = .mark .leftBrace) (bound : Nat)
    (he : ViableExpression expr .assignment) (hstmt : ViableStatement stmt [])
    (hreads : Reads (fun _ => True) (declaration expr stmt) (FormedStmt fun _ => True)) :
    ViableStatement (block bound expr stmt) [opening] := by
  apply viable_bind (viable_declarations (viable_declaration he hstmt) hreads bound)
  intro body used hbody
  apply viable_expectMark_bind
  intro closing hclose
  exact viable_pure ⟨false, .block hopen hbody hclose⟩

end

theorem viable_statement (bound : Nat) : ViableStatement (statement bound) [] := by
  have he := viable_expression
  induction bound with
  | zero =>
    refine viable_fail (by simp) ?_
    obtain ⟨s, used, h⟩ := (viable_expressionStatement (he 0)).inhabited
    exact ⟨s, used, false, .expression h⟩
  | succ bound ih =>
    rw [statement_succ]
    apply viable_take?_bind
    · exact (viable_expressionStatement (he _)).mono fun s used h => ⟨false, .expression h⟩
    · intro t ht
      change ViableStatement (compoundBehind bound _ _ t) [t]
      unfold compoundBehind
      split
      case h_1 hk => exact viable_forStatement hk (he _) ih
      case h_2 hk => exact viable_ifStatement hk (he _) ih
      case h_3 hk => exact viable_printStatement hk (he _)
      case h_4 hk => exact viable_whileStatement hk (he _) ih
      case h_5 hfor hif hprint hwhile =>
        have hopen : t.kind = .mark .leftBrace := by
          unfold opensCompound at ht
          split at ht
          case h_1 hk => exact absurd hk hfor
          case h_2 hk => exact absurd hk hif
          case h_3 hk => exact absurd hk hprint
          case h_4 hk => exact absurd hk hwhile
          case h_5 hk => exact hk
          case h_6 => cases ht
        exact viable_block hopen bound (he _) ih
          (reads_declaration (reads_expression _) (reads_statement _))

theorem viable_program : Viable program fun stmts used => Declarations .relaxed used stmts := by
  have h : ∀ bound, Viable (declarations (fun _ => false)
      (declaration (expression bound) (statement bound)) bound) fun stmts used =>
        Declarations .relaxed used stmts := fun bound =>
    viable_declarations (viable_declaration (viable_expression bound) (viable_statement bound))
      (reads_declaration (reads_expression _) (reads_statement _)) bound
  refine ⟨fun ts stmts rest hy => ?_, fun ts e hf => ?_, [], [], .nil⟩
  · exact (h _).yields ts stmts rest (yields_program.mp hy)
  · exact (h _).fails ts e (fails_program.mp hf)

end Treewalk.Grammar
