import Treewalk.Proofs.Grammar
import Treewalk.Proofs.Tree

/-!
# Derivations

Facts on derivations that hold without a look at any parser.

* `Expression.head`, `Statement.head`, `VariableDeclaration.head`: with what kinds of token a
  phrase can begin. No declaration begins with an `else` or a closing brace.
* `Declarations.unclosed`: no token of a program closes the token list.
* `Expression.mono`, `Declarations.mono`: what fewer rules admit, more rules admit.
* `Declarations.append`: programs can be put one behind the other.
* `Declarations.map`: only the kinds of tokens count, not their texts and lines.
* `Declarations.exists_nearest`: whatever has a derivation has one with every `else` at the
  nearest `if`, mostly with another tree. An `else` behind a hanging statement is moved into it
  (`Statement.exists_append_else`).
-/

namespace Treewalk.Grammar

variable {g g' : Rules} {ts : List Token}

/-! ## First tokens -/

/-- The kinds with which an expression can begin. -/
def opensExpression : TokenKind → Bool
  | .mark .bang | .mark .minus | .mark .leftParen => true
  | .number _ | .string _ | .identifier => true
  | .keyword .kwTrue | .keyword .kwFalse | .keyword .kwNil => true
  | _ => false

/-- The kinds with which a statement can begin. -/
def opensStatement : TokenKind → Bool
  | .keyword .kwFor | .keyword .kwIf | .keyword .kwPrint | .keyword .kwWhile => true
  | .mark .leftBrace => true
  | kind => opensExpression kind

/-- The list begins with a token of a kind that is accepted. -/
def Begins (accepted : TokenKind → Bool) (ts : List Token) : Prop :=
  ∃ t tail, ts = t :: tail ∧ accepted t.kind = true

theorem begins_cons {accepted : TokenKind → Bool} {t : Token} {tail : List Token}
    (h : accepted t.kind = true) : Begins accepted (t :: tail) :=
  ⟨t, tail, rfl, h⟩

theorem Begins.append {accepted : TokenKind → Bool} (h : Begins accepted ts)
    (more : List Token) : Begins accepted (ts ++ more) := by
  obtain ⟨t, tail, rfl, ht⟩ := h
  exact begins_cons ht

theorem Begins.ne_nil {accepted : TokenKind → Bool} (h : Begins accepted ts) : ts ≠ [] := by
  obtain ⟨t, tail, rfl, -⟩ := h
  simp

theorem Begins.imp {accepted other : TokenKind → Bool} (h : Begins accepted ts)
    (hk : ∀ kind, accepted kind = true → other kind = true) : Begins other ts := by
  obtain ⟨t, tail, rfl, ht⟩ := h
  exact begins_cons (hk _ ht)

theorem opensExpression_of_literalValue? {kind : TokenKind} {value : Value}
    (h : literalValue? kind = some value) : opensExpression kind = true := by
  unfold literalValue? at h
  split at h <;> first | rfl | cases h

theorem Expression.head {tier : Tier} {e : Expr} (h : Expression g tier ts e) :
    Begins opensExpression ts := by
  induction h with
  | assign hname | «variable» hname => exact begins_cons (by rw [hname]; rfl)
  | invalid _ _ _ _ _ ih | operation _ _ _ ih => exact ih.append _
  | ofTighter _ ih => exact ih
  | unary hop =>
    refine begins_cons ?_
    simp only [prefixOperators, List.mem_cons, List.not_mem_nil, or_false] at hop
    rcases hop with hop | hop <;> rw [hop] <;> rfl
  | literal h => exact begins_cons (opensExpression_of_literalValue? h)
  | grouping hopen => exact begins_cons (by rw [hopen]; rfl)

theorem ExpressionStatement.head {s : Stmt} (h : ExpressionStatement g ts s) :
    Begins opensExpression ts := by
  cases h with
  | intro h hs => exact h.head.append _

theorem VariableDeclaration.head {s : Stmt} (h : VariableDeclaration g ts s) :
    ∃ t tail, ts = t :: tail ∧ t.kind = .keyword .kwVar := by
  cases h with
  | bare hk => exact ⟨_, _, rfl, hk⟩
  | withValue hk => exact ⟨_, _, rfl, hk⟩

theorem opensStatement_of_opensExpression (kind : TokenKind) (h : opensExpression kind = true) :
    opensStatement kind = true := by
  unfold opensStatement
  split <;> first | rfl | exact h

theorem Statement.head {hanging : Bool} {s : Stmt} (h : Statement g hanging ts s) :
    Begins opensStatement ts := by
  cases h with
  | expression h => exact h.head.imp opensStatement_of_opensExpression
  | print hk | loop hk | forLoop hk | ifThen hk | ifThenElse hk =>
    exact begins_cons (by rw [hk]; rfl)
  | block hopen => exact begins_cons (by rw [hopen]; rfl)

/-! ## Tiers -/

theorem Expression.or_of_primary {e : Expr} (h : Expression g .primary ts e) :
    Expression g .or ts e := by
  have hunary : Expression g .unary ts e := .ofTighter h
  have hterm : Expression g .term ts e := .ofTighter (.ofTighter hunary)
  have hequality : Expression g .equality ts e := .ofTighter (.ofTighter hterm)
  exact .ofTighter (.ofTighter hequality)

/-! ## No closing token -/

/-- No token of the list closes it. -/
def Unclosed (ts : List Token) : Prop :=
  ∀ t ∈ ts, t.kind ≠ .eof

@[simp] theorem unclosed_nil : Unclosed [] := by
  simp [Unclosed]

@[simp] theorem unclosed_cons {t : Token} : Unclosed (t :: ts) ↔ t.kind ≠ .eof ∧ Unclosed ts := by
  simp [Unclosed]

@[simp] theorem unclosed_append {us : List Token} :
    Unclosed (ts ++ us) ↔ Unclosed ts ∧ Unclosed us := by
  simp [Unclosed, or_imp, forall_and]

theorem Expression.unclosed {tier : Tier} {e : Expr} (h : Expression g tier ts e) :
    Unclosed ts := by
  induction h with
  | assign hname hequal _ ih => simp [hname, hequal, ih]
  | invalid _ _ _ hequal _ ihTarget ihValue => simp [hequal, ihTarget, ihValue]
  | @operation tier _ _ op _ _ _ hop _ ihLeft ihRight =>
    have hoperator : op.kind ≠ .eof := fun heof => by
      cases tier <;> simp [heof, Tier.operators] at hop
    simp [hoperator, ihLeft, ihRight]
  | ofTighter _ ih => exact ih
  | @unary op _ _ hop _ ih =>
    have hoperator : op.kind ≠ .eof := fun heof => by simp [heof, prefixOperators] at hop
    simp [hoperator, ih]
  | @literal t _ h =>
    have hkind : t.kind ≠ .eof := fun heof => by simp [heof, literalValue?] at h
    simp [hkind]
  | «variable» h => simp [h]
  | grouping hopen _ hclose ih => simp [hopen, hclose, ih]

theorem ExpressionStatement.unclosed {s : Stmt} (h : ExpressionStatement g ts s) :
    Unclosed ts := by
  cases h with
  | intro h hs => simp [h.unclosed, hs]

theorem VariableDeclaration.unclosed {s : Stmt} (h : VariableDeclaration g ts s) :
    Unclosed ts := by
  cases h with
  | bare hk hname hs => simp [hk, hname, hs]
  | withValue hk hname hequal h hs => simp [hk, hname, hequal, h.unclosed, hs]

theorem Condition.unclosed {c : Expr} (h : Condition g ts c) : Unclosed ts := by
  cases h with
  | always => exact unclosed_nil
  | given h => exact h.unclosed

theorem Increment.unclosed {body round : Stmt} (h : Increment g ts body round) :
    Unclosed ts := by
  cases h with
  | absent => exact unclosed_nil
  | given h => exact h.unclosed

theorem Initializer.unclosed {loop whole : Stmt} (h : Initializer g ts loop whole) :
    Unclosed ts := by
  cases h with
  | absent h => simp [h]
  | «variable» h => exact h.unclosed
  | expression h => exact h.unclosed

mutual

theorem Statement.unclosed {hanging : Bool} {ts : List Token} {s : Stmt} :
    Statement g hanging ts s → Unclosed ts
  | .expression h => h.unclosed
  | .print hk h hs => by simp [hk, h.unclosed, hs]
  | .block hopen h hclose => by simp [hopen, Declarations.unclosed h, hclose]
  | .loop hk hopen hc hclose hbody => by
    simp [hk, hopen, hc.unclosed, hclose, Statement.unclosed hbody]
  | .forLoop hk hopen hi hc hs hn hclose hbody => by
    simp [hk, hopen, hi.unclosed, hc.unclosed, hs, hn.unclosed, hclose,
      Statement.unclosed hbody]
  | .ifThen hk hopen hc hclose hyes => by
    simp [hk, hopen, hc.unclosed, hclose, Statement.unclosed hyes]
  | .ifThenElse hk hopen hc hclose hyes _ helse hno => by
    simp [hk, hopen, hc.unclosed, hclose, Statement.unclosed hyes, helse,
      Statement.unclosed hno]

theorem Declarations.unclosed {ts : List Token} {stmts : List Stmt} :
    Declarations g ts stmts → Unclosed ts
  | .nil => unclosed_nil
  | .variable h hrest => by simp [h.unclosed, Declarations.unclosed hrest]
  | .statement h hrest => by simp [Statement.unclosed h, Declarations.unclosed hrest]

end

/-! ## More rules -/

theorem Expression.mono (hg : g.anyTarget → g'.anyTarget) {tier : Tier} {e : Expr}
    (h : Expression g tier ts e) : Expression g' tier ts e := by
  induction h with
  | assign hname hequal _ ih => exact .assign hname hequal ih
  | invalid ht _ hl hequal _ ihTarget ihValue => exact .invalid (hg ht) ihTarget hl hequal ihValue
  | operation _ hop _ ihLeft ihRight => exact .operation ihLeft hop ihRight
  | ofTighter _ ih => exact .ofTighter ih
  | unary hop _ ih => exact .unary hop ih
  | literal h => exact .literal h
  | «variable» h => exact .variable h
  | grouping hopen _ hclose ih => exact .grouping hopen ih hclose

theorem ExpressionStatement.mono (hg : g.anyTarget → g'.anyTarget) {s : Stmt}
    (h : ExpressionStatement g ts s) : ExpressionStatement g' ts s := by
  cases h with
  | intro h hs => exact .intro (h.mono hg) hs

theorem VariableDeclaration.mono (hg : g.anyTarget → g'.anyTarget) {s : Stmt}
    (h : VariableDeclaration g ts s) : VariableDeclaration g' ts s := by
  cases h with
  | bare hk hname hs => exact .bare hk hname hs
  | withValue hk hname hequal h hs => exact .withValue hk hname hequal (h.mono hg) hs

theorem Condition.mono (hg : g.anyTarget → g'.anyTarget) {c : Expr} (h : Condition g ts c) :
    Condition g' ts c := by
  cases h with
  | always => exact .always
  | given h => exact .given (h.mono hg)

theorem Increment.mono (hg : g.anyTarget → g'.anyTarget) {body round : Stmt}
    (h : Increment g ts body round) : Increment g' ts body round := by
  cases h with
  | absent => exact .absent
  | given h => exact .given (h.mono hg)

theorem Initializer.mono (hg : g.anyTarget → g'.anyTarget) {loop whole : Stmt}
    (h : Initializer g ts loop whole) : Initializer g' ts loop whole := by
  cases h with
  | absent h => exact .absent h
  | «variable» h => exact .variable (h.mono hg)
  | expression h => exact .expression (h.mono hg)

mutual

theorem Statement.mono (ht : g.anyTarget → g'.anyTarget) (he : g.anyElse → g'.anyElse)
    {hanging : Bool} {ts : List Token} {s : Stmt} :
    Statement g hanging ts s → Statement g' hanging ts s
  | .expression h => .expression (h.mono ht)
  | .print hk h hs => .print hk (h.mono ht) hs
  | .block hopen h hclose => .block hopen (Declarations.mono ht he h) hclose
  | .loop hk hopen hc hclose hbody =>
    .loop hk hopen (hc.mono ht) hclose (Statement.mono ht he hbody)
  | .forLoop hk hopen hi hc hs hn hclose hbody =>
    .forLoop hk hopen (hi.mono ht) (hc.mono ht) hs (hn.mono ht) hclose
      (Statement.mono ht he hbody)
  | .ifThen hk hopen hc hclose hyes =>
    .ifThen hk hopen (hc.mono ht) hclose (Statement.mono ht he hyes)
  | .ifThenElse hk hopen hc hclose hyes hg helse hno =>
    .ifThenElse hk hopen (hc.mono ht) hclose (Statement.mono ht he hyes) (fun h => he (hg h))
      helse (Statement.mono ht he hno)

theorem Declarations.mono (ht : g.anyTarget → g'.anyTarget) (he : g.anyElse → g'.anyElse)
    {ts : List Token} {stmts : List Stmt} :
    Declarations g ts stmts → Declarations g' ts stmts
  | .nil => .nil
  | .variable h hrest => .variable (h.mono ht) (Declarations.mono ht he hrest)
  | .statement h hrest => .statement (Statement.mono ht he h) (Declarations.mono ht he hrest)

end

/-! ## Programs behind each other -/

theorem Declarations.append {us : List Token} {others : List Stmt}
    (hothers : Declarations g us others) {ts : List Token} {stmts : List Stmt} :
    Declarations g ts stmts → Declarations g (ts ++ us) (stmts ++ others)
  | .nil => hothers
  | .variable h hrest => by
    rw [List.append_assoc]
    exact .variable h (Declarations.append hothers hrest)
  | .statement h hrest => by
    rw [List.append_assoc]
    exact .statement h (Declarations.append hothers hrest)

/-! ## Other tokens of the same kinds -/

section

variable {f : Token → Token}

theorem Tier.map_node (f : Token → Token) (tier : Tier) (l r : Expr) (operator : Token) :
    (tier.node l operator r).map f = tier.node (l.map f) (f operator) (r.map f) := by
  cases tier <;> rfl

theorem Expression.map (hf : ∀ t, (f t).kind = t.kind) {tier : Tier} {e : Expr}
    (h : Expression g tier ts e) : Expression g tier (ts.map f) (e.map f) := by
  induction h with
  | assign hname hequal _ ih => exact .assign ((hf _).trans hname) ((hf _).trans hequal) ih
  | @invalid _ _ _ l _ hg _ hl hequal _ ihTarget ihValue =>
    rw [List.map_append]
    refine .invalid hg ihTarget (fun name hname => ?_) ((hf _).trans hequal) ihValue
    cases l with
    | «variable» => exact hl _ rfl
    | _ => cases hname
  | operation _ hop _ ihLeft ihRight =>
    rw [List.map_append, Tier.map_node]
    exact .operation ihLeft ((hf _).symm ▸ hop) ihRight
  | ofTighter _ ih => exact .ofTighter ih
  | unary hop _ ih => exact .unary ((hf _).symm ▸ hop) ih
  | literal h => exact .literal ((hf _).symm ▸ h)
  | «variable» h => exact .variable ((hf _).trans h)
  | grouping hopen _ hclose ih =>
    rw [List.map_cons, List.map_append]
    exact .grouping ((hf _).trans hopen) ih ((hf _).trans hclose)

theorem ExpressionStatement.map (hf : ∀ t, (f t).kind = t.kind) {s : Stmt}
    (h : ExpressionStatement g ts s) : ExpressionStatement g (ts.map f) (s.map f) := by
  cases h with
  | intro h hs =>
    rw [List.map_append]
    exact .intro (h.map hf) ((hf _).trans hs)

theorem VariableDeclaration.map (hf : ∀ t, (f t).kind = t.kind) {s : Stmt}
    (h : VariableDeclaration g ts s) : VariableDeclaration g (ts.map f) (s.map f) := by
  cases h with
  | bare hk hname hs =>
    exact .bare ((hf _).trans hk) ((hf _).trans hname) ((hf _).trans hs)
  | withValue hk hname hequal h hs =>
    rw [List.map_cons, List.map_cons, List.map_cons, List.map_append]
    exact .withValue ((hf _).trans hk) ((hf _).trans hname) ((hf _).trans hequal) (h.map hf)
      ((hf _).trans hs)

theorem Condition.map (hf : ∀ t, (f t).kind = t.kind) {c : Expr} (h : Condition g ts c) :
    Condition g (ts.map f) (c.map f) := by
  cases h with
  | always => exact .always
  | given h => exact .given (h.map hf)

theorem Increment.map (hf : ∀ t, (f t).kind = t.kind) {body round : Stmt}
    (h : Increment g ts body round) : Increment g (ts.map f) (body.map f) (round.map f) := by
  cases h with
  | absent => exact .absent
  | given h => exact .given (h.map hf)

theorem Initializer.map (hf : ∀ t, (f t).kind = t.kind) {loop whole : Stmt}
    (h : Initializer g ts loop whole) :
    Initializer g (ts.map f) (loop.map f) (whole.map f) := by
  cases h with
  | absent h => exact .absent ((hf _).trans h)
  | «variable» h => exact .variable (h.map hf)
  | expression h => exact .expression (h.map hf)

mutual

theorem Statement.map (hf : ∀ t, (f t).kind = t.kind) {hanging : Bool} {ts : List Token}
    {s : Stmt} : Statement g hanging ts s → Statement g hanging (ts.map f) (s.map f)
  | .expression h => .expression (h.map hf)
  | .print hk h hs => by
    simp only [List.map_cons, List.map_append]
    exact .print ((hf _).trans hk) (h.map hf) ((hf _).trans hs)
  | .block hopen h hclose => by
    simp only [List.map_cons, List.map_append, Stmt.map, Stmt.mapAll_eq_map]
    exact .block ((hf _).trans hopen) (Declarations.map hf h) ((hf _).trans hclose)
  | .loop hk hopen hc hclose hbody => by
    simp only [List.map_cons, List.map_append, Stmt.map]
    exact .loop ((hf _).trans hk) ((hf _).trans hopen) (hc.map hf) ((hf _).trans hclose)
      (Statement.map hf hbody)
  | .forLoop hk hopen hi hc hs hn hclose hbody => by
    simp only [List.map_cons, List.map_append]
    exact .forLoop ((hf _).trans hk) ((hf _).trans hopen) (hi.map hf) (hc.map hf)
      ((hf _).trans hs) (hn.map hf) ((hf _).trans hclose) (Statement.map hf hbody)
  | .ifThen hk hopen hc hclose hyes => by
    simp only [List.map_cons, List.map_append, Stmt.map]
    exact .ifThen ((hf _).trans hk) ((hf _).trans hopen) (hc.map hf) ((hf _).trans hclose)
      (Statement.map hf hyes)
  | .ifThenElse hk hopen hc hclose hyes hg helse hno => by
    simp only [List.map_cons, List.map_append, Stmt.map]
    exact .ifThenElse ((hf _).trans hk) ((hf _).trans hopen) (hc.map hf) ((hf _).trans hclose)
      (Statement.map hf hyes) hg ((hf _).trans helse) (Statement.map hf hno)

theorem Declarations.map (hf : ∀ t, (f t).kind = t.kind) {ts : List Token}
    {stmts : List Stmt} :
    Declarations g ts stmts → Declarations g (ts.map f) (stmts.map (Stmt.map f))
  | .nil => .nil
  | .variable h hrest => by
    rw [List.map_append]
    exact .variable (h.map hf) (Declarations.map hf hrest)
  | .statement h hrest => by
    rw [List.map_append]
    exact .statement (Statement.map hf h) (Declarations.map hf hrest)

end

end

/-! ## Every `else` at the nearest `if` -/

/-- A body or a loop may be another one, with the tokens of its clauses unchanged. -/
theorem Increment.exists_other {body round : Stmt} (h : Increment g ts body round)
    (body' : Stmt) : ∃ round', Increment g ts body' round' := by
  cases h with
  | absent => exact ⟨body', .absent⟩
  | given h => exact ⟨_, .given h⟩

theorem Initializer.exists_other {loop whole : Stmt} (h : Initializer g ts loop whole)
    (loop' : Stmt) : ∃ whole', Initializer g ts loop' whole' := by
  cases h with
  | absent h => exact ⟨loop', .absent h⟩
  | «variable» h => exact ⟨_, .variable h⟩
  | expression h => exact ⟨_, .expression h⟩

theorem exists_forLoop {keyword opening semicolon closing : Token} {is cs ns bs : List Token}
    {c : Expr} {body round whole body' : Stmt} {hanging : Bool}
    (hk : keyword.kind = .keyword .kwFor) (hopen : opening.kind = .mark .leftParen)
    (hi : Initializer g is (.loop c round) whole) (hc : Condition g cs c)
    (hs : semicolon.kind = .mark .semicolon) (hn : Increment g ns body round)
    (hclose : closing.kind = .mark .rightParen) (hbody : Statement g hanging bs body') :
    ∃ s, Statement g hanging
      (keyword :: opening :: (is ++ (cs ++ semicolon :: (ns ++ closing :: bs)))) s := by
  obtain ⟨round', hn'⟩ := hn.exists_other body'
  obtain ⟨whole', hi'⟩ := hi.exists_other (.loop c round')
  exact ⟨whole', .forLoop hk hopen hi' hc hs hn' hclose hbody⟩

/-- An `else` behind a hanging statement joins the nearest `if` within it. -/
theorem Statement.exists_append_else {otherwise : Token} {ns : List Token} {no s : Stmt}
    {hangingNo hanging : Bool} (helse : otherwise.kind = .keyword .kwElse)
    (hno : Statement g hangingNo ns no) (h : Statement g hanging ts s) (hh : hanging = true) :
    ∃ hanging' s', Statement g hanging' (ts ++ otherwise :: ns) s' := by
  -- The phrase within is shorter, which is all that the recursion needs.
  induction hn : ts.length using Nat.strongRecOn generalizing ts s hanging with
  | ind n ih =>
    subst hn
    cases h with
    | expression | print | block => cases hh
    | loop hk hopen hc hclose hbody =>
      obtain ⟨_, _, hbody'⟩ := ih _ (by simp; omega) hbody hh rfl
      exact ⟨_, _, by simpa using Statement.loop hk hopen hc hclose hbody'⟩
    | forLoop hk hopen hi hc hs hn hclose hbody =>
      obtain ⟨_, _, hbody'⟩ := ih _ (by simp; omega) hbody hh rfl
      obtain ⟨s', hs'⟩ := exists_forLoop hk hopen hi hc hs hn hclose hbody'
      exact ⟨_, s', by simpa using hs'⟩
    | @ifThen _ _ _ _ _ _ _ hangingYes hk hopen hc hclose hyes =>
      cases hangingYes with
      | false =>
        have hboth := Statement.ifThenElse hk hopen hc hclose hyes (by simp) helse hno
        exact ⟨_, _, by simpa using hboth⟩
      | true =>
        obtain ⟨_, _, hyes'⟩ := ih _ (by simp; omega) hyes rfl rfl
        exact ⟨_, _, by simpa using Statement.ifThen hk hopen hc hclose hyes'⟩
    | ifThenElse hk hopen hc hclose hyes hg helse' hlast =>
      obtain ⟨_, _, hlast'⟩ := ih _ (by simp; omega) hlast hh rfl
      exact ⟨_, _, by simpa using Statement.ifThenElse hk hopen hc hclose hyes hg helse' hlast'⟩

mutual

theorem Statement.exists_nearest (ht : g.anyTarget → g'.anyTarget) {hanging : Bool}
    {ts : List Token} {s : Stmt} :
    Statement g hanging ts s → ∃ hanging' s', Statement g' hanging' ts s'
  | .expression h => ⟨_, _, .expression (h.mono ht)⟩
  | .print hk h hs => ⟨_, _, .print hk (h.mono ht) hs⟩
  | .block hopen h hclose => by
    obtain ⟨_, h'⟩ := Declarations.exists_nearest ht h
    exact ⟨_, _, .block hopen h' hclose⟩
  | .loop hk hopen hc hclose hbody => by
    obtain ⟨_, _, hbody'⟩ := Statement.exists_nearest ht hbody
    exact ⟨_, _, .loop hk hopen (hc.mono ht) hclose hbody'⟩
  | .forLoop hk hopen hi hc hs hn hclose hbody => by
    obtain ⟨_, _, hbody'⟩ := Statement.exists_nearest ht hbody
    obtain ⟨s', hs'⟩ := exists_forLoop hk hopen (hi.mono ht) (hc.mono ht) hs (hn.mono ht) hclose
      hbody'
    exact ⟨_, s', hs'⟩
  | .ifThen hk hopen hc hclose hyes => by
    obtain ⟨_, _, hyes'⟩ := Statement.exists_nearest ht hyes
    exact ⟨_, _, .ifThen hk hopen (hc.mono ht) hclose hyes'⟩
  | .ifThenElse hk hopen hc hclose hyes _ helse hno => by
    obtain ⟨hangingYes, _, hyes'⟩ := Statement.exists_nearest ht hyes
    obtain ⟨_, _, hno'⟩ := Statement.exists_nearest ht hno
    cases hangingYes with
    | false => exact ⟨_, _, .ifThenElse hk hopen (hc.mono ht) hclose hyes' (by simp) helse hno'⟩
    | true =>
      obtain ⟨_, _, hboth⟩ := Statement.exists_append_else helse hno' hyes' rfl
      exact ⟨_, _, .ifThen hk hopen (hc.mono ht) hclose hboth⟩

theorem Declarations.exists_nearest (ht : g.anyTarget → g'.anyTarget) {ts : List Token}
    {stmts : List Stmt} : Declarations g ts stmts → ∃ stmts', Declarations g' ts stmts'
  | .nil => ⟨_, .nil⟩
  | .variable h hrest => by
    obtain ⟨_, hrest'⟩ := Declarations.exists_nearest ht hrest
    exact ⟨_, .variable (h.mono ht) hrest'⟩
  | .statement h hrest => by
    obtain ⟨_, _, h'⟩ := Statement.exists_nearest ht h
    obtain ⟨_, hrest'⟩ := Declarations.exists_nearest ht hrest
    exact ⟨_, .statement h' hrest'⟩

end

end Treewalk.Grammar
