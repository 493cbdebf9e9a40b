import Treewalk.Proofs.Grammar.Viable

/-!
# One token of lookahead

A run that ends in front of a token, with a value or a failure, never looks behind that token: it
ends there with the same outcome whatever stands behind. Bounds play no role either, if they are
above the count of the tokens in front.

Both are said at once by `Alike n p p'`: up to a token `t` with fewer than `n` tokens in front of
it, the parser `p'` does as `p` does, with anything else behind `t`. So parsers can be compared that
differ in their bounds only. `alike_bind` and its like go through the parsers; a token that is taken
makes one token less in front, which is what nested phrases with their smaller bounds need
(`alike_take?_bind`, `alike_bind_of_progresses`).

* `alike_expression`, `alike_statement`, `alike_program`.
-/

namespace Treewalk.Grammar

open Treewalk.Parser

variable {α β : Type}

/-- A value is only yielded behind one token at least. -/
def Progresses (p : Parser α) : Prop :=
  ∀ ts a rest, Yields .relaxed p ts a rest → rest.length < ts.length

/-- What a run leaves, or fails at, is the end of what it was given. -/
abbrev Descends (p : Parser α) : Prop :=
  Viable p fun _ _ => True

structure Alike (n : Nat) (p p' : Parser α) : Prop where
  yields : ∀ t back back' front front' a, front.length < n →
    Yields .relaxed p (front ++ t :: back) a (front' ++ t :: back) →
    Yields .relaxed p' (front ++ t :: back') a (front' ++ t :: back')
  fails : ∀ t back back' front front' fault, front.length < n →
    Fails p (front ++ t :: back) ⟨fault, front' ++ t :: back⟩ →
    Fails p' (front ++ t :: back') ⟨fault, front' ++ t :: back'⟩
  descends : Descends p

variable {n : Nat} {p p' : Parser α} {X : α → List Token → Prop}

/-! ## Positions in front of a token -/

theorem starts_append_cons {wanted : Token → Bool} {t : Token} {front back back' : List Token} :
    Starts wanted (front ++ t :: back) ↔ Starts wanted (front ++ t :: back') := by
  cases front <;> simp

theorem length_between_lt {m : Nat} {t : Token} {front between back : List Token}
    (hlength : (between ++ t :: back).length + n ≤ (front ++ t :: back).length + m)
    (hfront : front.length < n) : between.length < m := by
  simp only [List.length_append] at hlength
  omega

theorem Viable.descends (h : Viable p X) : Descends p :=
  h.mono fun _ _ _ => True.intro

theorem Viable.progresses (h : Viable p X) (hX : ∀ a used, X a used → used ≠ []) :
    Progresses p := by
  intro ts a rest hy
  obtain ⟨used, rfl, hused⟩ := h.yields ts a rest hy
  have hlength := List.length_pos_iff.mpr (hX a used hused)
  simp only [List.length_append]
  omega

theorem progresses_bind {f : α → Parser β} (hp : Progresses p)
    (hf : ∀ a, Descends (f a)) : Progresses (p >>= f) := by
  intro ts b rest hy
  obtain ⟨a, mid, ha, hb⟩ := yields_bind.mp hy
  obtain ⟨used, rfl, -⟩ := (hf a).yields mid b rest hb
  have hlength := hp ts a _ ha
  simp only [List.length_append] at hlength
  omega

/-! ## Building blocks -/

theorem Alike.mono {m : Nat} (h : Alike n p p') (hm : m ≤ n) : Alike m p p' where
  yields t back back' front front' a hfront :=
    h.yields t back back' front front' a (Nat.lt_of_lt_of_le hfront hm)
  fails t back back' front front' fault hfront :=
    h.fails t back back' front front' fault (Nat.lt_of_lt_of_le hfront hm)
  descends := h.descends

theorem alike_zero (h : Viable p X) : Alike 0 p p' where
  yields _ _ _ _ _ _ hfront := absurd hfront (Nat.not_lt_zero _)
  fails _ _ _ _ _ _ hfront := absurd hfront (Nat.not_lt_zero _)
  descends := h.descends

theorem alike_pure (n : Nat) (a : α) : Alike n (pure a) (pure a) where
  yields t back back' front front' b _ hy := by
    obtain ⟨rfl, heq⟩ := yields_pure.mp hy
    obtain rfl := List.append_cancel_right heq
    exact yields_self a
  fails _ _ _ _ _ _ _ hf := absurd hf fails_pure
  descends := viable_pure True.intro

theorem alike_fail [Inhabited α] (n : Nat) {fault : SyntaxFault} (hfault : fault ≠ .invalidTarget) :
    Alike n (fail fault : Parser α) (fail fault) where
  yields _ _ _ _ _ _ _ hy := absurd hy yields_fail
  fails t back back' front front' fault' _ hf := by
    obtain ⟨rfl, heq⟩ := SyntaxError.mk.inj ((fails_fail hfault).mp hf)
    obtain rfl := List.append_cancel_right heq
    exact (fails_fail hfault).mpr rfl
  descends := viable_fail hfault ⟨default, [], True.intro⟩

/-- Behind the value `a`, there are fewer than `m a` tokens in front. -/
theorem alike_bind_of_length {m : α → Nat} {f f' : α → Parser β} (hp : Alike n p p')
    (hlength : ∀ ts a rest, Yields .relaxed p ts a rest → rest.length + n ≤ ts.length + m a)
    (hf : ∀ a, Alike (m a) (f a) (f' a)) : Alike n (p >>= f) (p' >>= f') where
  yields t back back' front front' b hfront hy := by
    obtain ⟨a, mid, ha, hb⟩ := yields_bind.mp hy
    -- The second part leaves the token ahead, so the token was ahead of it too.
    obtain ⟨used, rfl, -⟩ := (hf a).descends.yields mid b _ hb
    rw [← List.append_assoc] at ha hb
    have hbetween := length_between_lt (hlength _ a _ ha) hfront
    exact (hp.yields t back back' front _ a hfront ha).bind
      ((hf a).yields t back back' _ front' b hbetween hb)
  fails t back back' front front' fault hfront h := by
    rcases fails_bind.mp h with hfirst | ⟨a, mid, ha, hsecond⟩
    · exact fails_bind.mpr (.inl (hp.fails t back back' front front' fault hfront hfirst))
    · obtain ⟨used, _, _, rfl, -⟩ := (hf a).descends.fails mid _ hsecond
      rw [← List.append_assoc] at ha hsecond
      have hbetween := length_between_lt (hlength _ a _ ha) hfront
      exact fails_bind.mpr (.inr ⟨a, _, hp.yields t back back' front _ a hfront ha,
        (hf a).fails t back back' _ front' fault hbetween hsecond⟩)
  descends := viable_bind hp.descends fun a _ _ => (hf a).descends

theorem alike_bind {f f' : α → Parser β} (hp : Alike n p p')
    (hf : ∀ a, Alike n (f a) (f' a)) : Alike n (p >>= f) (p' >>= f') := by
  refine alike_bind_of_length hp (fun ts a rest ha => ?_) hf
  obtain ⟨used, rfl, -⟩ := hp.descends.yields ts a rest ha
  simp only [List.length_append]
  omega

theorem alike_bind_of_progresses {f f' : α → Parser β} (hp : Alike n p p')
    (hprogress : Progresses p) (hf : ∀ a, Alike (n - 1) (f a) (f' a)) :
    Alike n (p >>= f) (p' >>= f') := by
  refine alike_bind_of_length hp (fun ts a rest ha => ?_) hf
  have hlt := hprogress ts a rest ha
  omega

theorem alike_map (f : α → β) (hp : Alike n p p') : Alike n (f <$> p) (f <$> p') :=
  alike_bind hp fun a => alike_pure n (f a)

theorem alike_take? (n : Nat) (wanted : Token → Bool) : Alike n (take? wanted) (take? wanted) where
  yields t back back' front front' o _ hy := by
    rw [yields_take?] at hy ⊢
    rcases hy with ⟨hstart, rfl, heq⟩ | ⟨u, heq, hu, rfl⟩
    · obtain rfl := List.append_cancel_right heq
      exact .inl ⟨mt starts_append_cons.mpr hstart, rfl, rfl⟩
    · obtain rfl : front = u :: front' := List.append_cancel_right heq
      exact .inr ⟨u, rfl, hu, rfl⟩
  fails _ _ _ _ _ _ _ hf := absurd hf fails_take?
  descends := (viable_take? wanted).descends

/-- Behind a token that was taken, there is one token less in front. -/
theorem alike_take?_bind {wanted : Token → Bool} {f f' : Option Token → Parser β}
    (hnone : Alike n (f none) (f' none))
    (hsome : ∀ t, Alike (n - 1) (f (some t)) (f' (some t))) :
    Alike n (take? wanted >>= f) (take? wanted >>= f') := by
  refine alike_bind_of_length (m := fun o => if o.isSome then n - 1 else n)
    (alike_take? n wanted) (fun ts o rest ho => ?_) fun o => ?_
  · rcases yields_take?.mp ho with ⟨-, rfl, rfl⟩ | ⟨t, rfl, -, rfl⟩
    · simp
    · change rest.length + n ≤ rest.length + 1 + (n - 1)
      omega
  · cases o with
    | none => exact hnone
    | some t => exact hsome t

theorem alike_expect (n : Nat) {wanted : Token → Bool} {fault : SyntaxFault}
    (hfault : fault ≠ .invalidTarget) {u : Token} (hu : wanted u = true) :
    Alike n (expect wanted fault) (expect wanted fault) where
  yields t back back' front front' v _ hy := by
    obtain ⟨heq, hv⟩ := yields_expect.mp hy
    obtain rfl : front = v :: front' := List.append_cancel_right heq
    exact yields_expect.mpr ⟨rfl, hv⟩
  fails t back back' front front' fault' _ hf := by
    rw [fails_expect hfault] at hf ⊢
    obtain ⟨hstart, heq⟩ := hf
    obtain ⟨rfl, hahead⟩ := SyntaxError.mk.inj heq
    obtain rfl := List.append_cancel_right hahead
    exact ⟨mt starts_append_cons.mpr hstart, rfl⟩
  descends := (viable_expect hfault hu).descends

theorem alike_expectMark (n : Nat) (m : Mark) (after : Phrase) :
    Alike n (expectMark m after) (expectMark m after) :=
  alike_bind (alike_expect n (u := ⟨.mark m, m.text, 1⟩) (by simp) (by simp [Token.isMark]))
    fun _ => alike_pure n ()

theorem alike_isAt (n : Nat) (m : Mark) : Alike n (isAt m) (isAt m) where
  yields t back back' front front' b _ hy := by
    rw [yields_isAt] at hy ⊢
    obtain ⟨hb, heq⟩ := hy
    obtain rfl := List.append_cancel_right heq
    exact ⟨hb.trans starts_append_cons, rfl⟩
  fails _ _ _ _ _ _ _ hf := absurd hf fails_isAt
  descends := (viable_isAt m).descends

/-- The place of an error that is not fatal does not count. -/
theorem alike_report (n : Nat) (place place' : List Token) :
    Alike n (report ⟨.invalidTarget, place⟩) (report ⟨.invalidTarget, place'⟩) where
  yields t back back' front front' _ _ hy := by
    obtain ⟨-, heq⟩ := yields_report.mp hy
    obtain rfl := List.append_cancel_right heq
    exact yields_report.mpr ⟨⟨True.intro, rfl⟩, rfl⟩
  fails _ _ _ _ _ _ _ hf := absurd hf fails_report
  descends := (viable_report place).descends

theorem alike_ahead_bind {f f' : List Token → Parser β}
    (hf : ∀ place place', Alike n (f place) (f' place')) :
    Alike n (ahead >>= f) (ahead >>= f') where
  yields t back back' front front' b hfront hy := by
    rw [yields_ahead_bind] at hy ⊢
    exact (hf _ _).yields t back back' front front' b hfront hy
  fails t back back' front front' fault hfront h := by
    rw [fails_ahead_bind] at h ⊢
    exact (hf _ _).fails t back back' front front' fault hfront h
  descends := viable_bind viable_ahead fun place _ _ => (hf place place).descends

/-! ## Expressions -/

section

variable {nested nested' : Parser Expr}

theorem alike_primary (h : Alike (n - 1) nested nested') :
    Alike n (primary nested) (primary nested') := by
  rw [primary_eq, primary_eq]
  apply alike_take?_bind
  · exact alike_fail n (by simp)
  · intro t
    change Alike (n - 1) (primaryBehind nested t) (primaryBehind nested' t)
    unfold primaryBehind
    split
    · exact alike_pure _ _
    · split
      · exact alike_pure _ _
      · apply alike_bind h
        intro inner
        apply alike_bind (alike_expectMark _ _ _)
        intro _
        exact alike_pure _ _

theorem alike_unary (hviable : ViableExpression nested .assignment)
    (h : Alike (n - 1) nested nested') : Alike n (unary nested) (unary nested') := by
  induction n with
  | zero => exact alike_zero (viable_unary hviable)
  | succ n ih =>
    rw [unary_eq nested, unary_eq nested']
    apply alike_take?_bind
    · exact alike_primary h
    · intro t
      exact alike_map _ (ih (h.mono (Nat.sub_le n 1)))

theorem progresses_unary (hviable : ViableExpression nested .assignment) :
    Progresses (unary nested) := by
  apply (viable_unary hviable).progresses
  intro e used hused
  exact hused.head.ne_nil

end

section

variable {level : Level} {operand operand' : Parser Expr}

theorem descends_operations (h : Descends operand) (rounds : Nat) (left : Expr) :
    Descends (operations level operand rounds left) := by
  induction rounds generalizing left with
  | zero => exact viable_pure True.intro
  | succ rounds ih =>
    rw [operations]
    apply viable_take?_bind
    · exact viable_pure True.intro
    · intro op _
      exact viable_bind h fun right _ _ => ih _

/-- Each round takes a token. -/
theorem alike_operations (h : Alike n operand operand') {rounds rounds' : Nat}
    (hrounds : n ≤ rounds) (hrounds' : n ≤ rounds') (left : Expr) :
    Alike n (operations level operand rounds left) (operations level operand' rounds' left) := by
  induction n generalizing rounds rounds' left with
  | zero => exact alike_zero (descends_operations h.descends rounds left)
  | succ n ih =>
    obtain ⟨rounds, rfl⟩ := Nat.exists_eq_add_of_le' (Nat.le_trans (Nat.le_add_left 1 n) hrounds)
    obtain ⟨rounds', rfl⟩ := Nat.exists_eq_add_of_le' (Nat.le_trans (Nat.le_add_left 1 n) hrounds')
    rw [operations, operations]
    apply alike_take?_bind
    · exact alike_pure _ _
    · intro op
      have hless := h.mono (Nat.le_succ n)
      apply alike_bind hless
      intro right
      exact ih hless (Nat.le_of_succ_le_succ hrounds) (Nat.le_of_succ_le_succ hrounds') _

theorem progresses_binary (hprogress : Progresses operand) (h : Descends operand) (rounds : Nat)
    (levels : List Level) :
    Progresses (binary rounds operand levels) ∧ Descends (binary rounds operand levels) := by
  induction levels with
  | nil => exact ⟨hprogress, h⟩
  | cons level tighter ih =>
    obtain ⟨hleft, hdescends⟩ := ih
    have hloop : ∀ left, Descends (operations level (binary rounds operand tighter) rounds left) :=
      descends_operations hdescends rounds
    exact ⟨progresses_bind hleft hloop, viable_bind hdescends fun left _ _ => hloop left⟩

/-- The loop of a level comes behind a left side, hence the rounds that are one too few. -/
theorem alike_binary (hprogress : Progresses operand) (h : Alike n operand operand')
    {rounds rounds' : Nat} (hrounds : n ≤ rounds + 1) (hrounds' : n ≤ rounds' + 1)
    (levels : List Level) :
    Alike n (binary rounds operand levels) (binary rounds' operand' levels) := by
  induction levels with
  | nil => exact h
  | cons level tighter ih =>
    apply alike_bind_of_progresses ih (progresses_binary hprogress h.descends rounds tighter).1
    exact alike_operations (ih.mono (Nat.sub_le n 1)) (by omega) (by omega)

end

theorem alike_assignment {nested nested' : Parser Expr} {rounds rounds' : Nat}
    (hviable : ViableExpression nested .assignment) (h : Alike (n - 1) nested nested')
    (hrounds : n ≤ rounds + 1) (hrounds' : n ≤ rounds' + 1) :
    Alike n (assignment rounds nested) (assignment rounds' nested') := by
  have hunary := alike_unary hviable h
  apply alike_bind (alike_binary (progresses_unary hviable) hunary hrounds hrounds' Level.all)
  intro left
  apply alike_ahead_bind
  intro place place'
  apply alike_take?_bind
  · exact alike_pure _ _
  · intro equal
    apply alike_bind h
    intro value
    cases left with
    | «variable» name => exact alike_pure _ _
    | _ => exact alike_bind (alike_report _ place place') fun _ => alike_pure _ _

theorem alike_expression {bound bound' : Nat} (h : n ≤ bound) (h' : n ≤ bound') :
    Alike n (expression bound) (expression bound') := by
  induction bound generalizing n bound' with
  | zero =>
    obtain rfl := Nat.le_zero.mp h
    exact alike_zero (viable_expression 0)
  | succ bound ih =>
    cases bound' with
    | zero =>
      obtain rfl := Nat.le_zero.mp h'
      exact alike_zero (viable_expression _)
    | succ bound' =>
      rw [expression, expression]
      exact alike_assignment (viable_expression bound) (ih (by omega) (by omega)) h h'

/-! ## Statements -/

section

variable {expr expr' : Parser Expr} {stmt stmt' : Parser Stmt}

theorem alike_expressionStatement (he : Alike n expr expr') :
    Alike n (expressionStatement expr) (expressionStatement expr') := by
  apply alike_bind he
  intro e
  apply alike_bind (alike_expectMark _ _ _)
  intro _
  exact alike_pure _ _

theorem alike_printStatement (he : Alike n expr expr') :
    Alike n (printStatement expr) (printStatement expr') := by
  apply alike_bind he
  intro e
  apply alike_bind (alike_expectMark _ _ _)
  intro _
  exact alike_pure _ _

theorem alike_variableDeclaration (he : Alike n expr expr') :
    Alike n (variableDeclaration expr) (variableDeclaration expr') := by
  apply alike_bind (alike_expect n (u := ⟨.identifier, "x", 1⟩) (by simp) rfl)
  intro name
  have hend : ∀ (m : Nat) (initializer : Option Expr), Alike m (do
        expectMark .semicolon .variableDeclaration
        return Stmt.declare name initializer) (do
        expectMark .semicolon .variableDeclaration
        return Stmt.declare name initializer) := fun m initializer =>
    alike_bind (alike_expectMark m _ _) fun _ => alike_pure _ _
  apply alike_take?_bind
  · exact alike_bind (alike_pure _ _) (hend n)
  · intro equal
    exact alike_bind (alike_map _ (he.mono (Nat.sub_le n 1))) (hend _)

theorem alike_ifStatement (he : Alike n expr expr') (hs : Alike n stmt stmt') :
    Alike n (ifStatement expr stmt) (ifStatement expr' stmt') := by
  apply alike_bind (alike_expectMark _ _ _)
  intro _
  apply alike_bind he
  intro condition
  apply alike_bind (alike_expectMark _ _ _)
  intro _
  apply alike_bind hs
  intro yes
  apply alike_take?_bind
  · exact alike_pure _ _
  · intro otherwise
    exact alike_bind (hs.mono (Nat.sub_le n 1)) fun no => alike_pure _ _

theorem alike_whileStatement (he : Alike n expr expr') (hs : Alike n stmt stmt') :
    Alike n (whileStatement expr stmt) (whileStatement expr' stmt') := by
  apply alike_bind (alike_expectMark _ _ _)
  intro _
  apply alike_bind he
  intro condition
  apply alike_bind (alike_expectMark _ _ _)
  intro _
  exact alike_bind hs fun body => alike_pure _ _

theorem alike_forInitializer (he : Alike n expr expr') :
    Alike n (forInitializer expr) (forInitializer expr') := by
  apply alike_take?_bind
  · apply alike_take?_bind
    · exact alike_map _ (alike_expressionStatement he)
    · intro keyword
      exact alike_map _ (alike_variableDeclaration (he.mono (Nat.sub_le n 1)))
  · intro semicolon
    exact alike_pure _ _

theorem alike_forClause (close : Mark) (he : Alike n expr expr') :
    Alike n (forClause close expr) (forClause close expr') := by
  apply alike_bind (alike_isAt n close)
  rintro (_ | _)
  · exact alike_map _ he
  · exact alike_pure _ _

theorem alike_forStatement (he : Alike n expr expr') (hs : Alike n stmt stmt') :
    Alike n (forStatement expr stmt) (forStatement expr' stmt') := by
  apply alike_bind (alike_expectMark _ _ _)
  intro _
  apply alike_bind (alike_forInitializer he)
  intro initializer
  apply alike_bind (alike_forClause .semicolon he)
  intro condition
  apply alike_bind (alike_expectMark _ _ _)
  intro _
  apply alike_bind (alike_forClause .rightParen he)
  intro increment
  apply alike_bind (alike_expectMark _ _ _)
  intro _
  exact alike_bind hs fun body => alike_pure _ _

/-! ## Programs -/

theorem alike_declaration (he : Alike n expr expr') (hs : Alike n stmt stmt') :
    Alike n (declaration expr stmt) (declaration expr' stmt') := by
  apply alike_take?_bind
  · exact hs
  · intro keyword
    exact alike_variableDeclaration (he.mono (Nat.sub_le n 1))

/-- Each declaration takes a token. -/
theorem alike_declarations {closes : Token → Bool} {one one' : Parser Stmt}
    (hone : Viable one fun s used =>
      VariableDeclaration .relaxed used s ∨ ∃ hanging, Statement .relaxed hanging used s)
    (hreads : Reads (fun _ => True) one (FormedStmt fun _ => True))
    (hreads' : Reads (fun _ => True) one' (FormedStmt fun _ => True))
    (h : Alike n one one') {rounds rounds' : Nat} (hrounds : n ≤ rounds) (hrounds' : n ≤ rounds') :
    Alike n (declarations closes one rounds) (declarations closes one' rounds') := by
  induction n generalizing rounds rounds' with
  | zero => exact alike_zero (viable_declarations hone hreads rounds)
  | succ n ih =>
    obtain ⟨rounds, rfl⟩ := Nat.exists_eq_add_of_le' (Nat.le_trans (Nat.le_add_left 1 n) hrounds)
    obtain ⟨rounds', rfl⟩ := Nat.exists_eq_add_of_le' (Nat.le_trans (Nat.le_add_left 1 n) hrounds')
    have hprogress : Progresses one := hone.progresses fun _ _ => ne_nil_of_declaration
    have hround : Alike (n + 1) (one >>= fun s => List.cons s <$> declarations closes one rounds)
        (one' >>= fun s => List.cons s <$> declarations closes one' rounds') := by
      apply alike_bind_of_progresses h hprogress
      intro s
      apply alike_map
      exact ih (h.mono (Nat.le_succ n)) (Nat.le_of_succ_le_succ hrounds)
        (Nat.le_of_succ_le_succ hrounds')
    refine ⟨fun t back back' front front' stmts hfront hy => ?_,
      fun t back back' front front' fault hfront hf => ?_,
      (viable_declarations hone hreads (rounds + 1)).descends⟩
    · rw [yields_declarations_succ hreads fun _ _ => trivial] at hy
      rw [yields_declarations_succ hreads' fun _ _ => trivial]
      rcases hy with ⟨hend, rfl, heq⟩ | ⟨-, hstart, hy⟩
      · obtain rfl := List.append_cancel_right heq
        exact .inl ⟨.inr (starts_append_cons.mp (hend.resolve_left (by simp))), rfl, rfl⟩
      · rw [← yields_declarations_round] at hy ⊢
        exact .inr ⟨by simp, mt starts_append_cons.mpr hstart,
          hround.yields t back back' front front' stmts hfront hy⟩
    · rw [fails_declarations_succ hreads fun _ _ => trivial] at hf
      rw [fails_declarations_succ hreads' fun _ _ => trivial]
      obtain ⟨-, hstart, hf⟩ := hf
      exact ⟨by simp, mt starts_append_cons.mpr hstart,
        hround.fails t back back' front front' fault hfront hf⟩

theorem alike_block {bound bound' : Nat} (hviable : ViableExpression expr .assignment)
    (hstmt : ViableStatement stmt [])
    (hreads : Reads (fun _ => True) (declaration expr stmt) (FormedStmt fun _ => True))
    (hreads' : Reads (fun _ => True) (declaration expr' stmt') (FormedStmt fun _ => True))
    (he : Alike n expr expr') (hs : Alike n stmt stmt') (h : n ≤ bound) (h' : n ≤ bound') :
    Alike n (block bound expr stmt) (block bound' expr' stmt') := by
  have hone := viable_declaration hviable hstmt
  apply alike_bind (alike_declarations hone hreads hreads' (alike_declaration he hs) h h')
  intro body
  apply alike_bind (alike_expectMark _ _ _)
  intro _
  exact alike_pure _ _

end

theorem alike_statement {bound bound' : Nat} (h : n ≤ bound) (h' : n ≤ bound') :
    Alike n (statement bound) (statement bound') := by
  induction bound generalizing n bound' with
  | zero =>
    obtain rfl := Nat.le_zero.mp h
    exact alike_zero (viable_statement 0)
  | succ bound ih =>
    cases bound' with
    | zero =>
      obtain rfl := Nat.le_zero.mp h'
      exact alike_zero (viable_statement _)
    | succ bound' =>
      have he := alike_expression h h'
      have he' := he.mono (Nat.sub_le n 1)
      have hs : Alike (n - 1) (statement bound) (statement bound') := ih (by omega) (by omega)
      rw [statement_succ, statement_succ]
      apply alike_take?_bind
      · exact alike_expressionStatement he
      · intro t
        change Alike (n - 1) (compoundBehind bound _ _ t) (compoundBehind bound' _ _ t)
        unfold compoundBehind
        split
        · exact alike_forStatement he' hs
        · exact alike_ifStatement he' hs
        · exact alike_printStatement he'
        · exact alike_whileStatement he' hs
        · exact alike_block (viable_expression _) (viable_statement _)
            (reads_declaration (reads_expression _) (reads_statement _))
            (reads_declaration (reads_expression _) (reads_statement _)) he' hs
            (by omega) (by omega)

/-- Programs under different bounds. -/
theorem alike_program {bound bound' : Nat} (h : n ≤ bound) (h' : n ≤ bound') :
    Alike n
      (declarations (fun _ => false) (declaration (expression bound) (statement bound)) bound)
      (declarations (fun _ => false) (declaration (expression bound') (statement bound'))
        bound') := by
  have hone := viable_declaration (viable_expression bound) (viable_statement bound)
  exact alike_declarations hone (reads_declaration (reads_expression _) (reads_statement _))
    (reads_declaration (reads_expression _) (reads_statement _))
    (alike_declaration (alike_expression h h') (alike_statement h h')) h h'

end Treewalk.Grammar
