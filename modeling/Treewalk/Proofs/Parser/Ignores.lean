import Treewalk.Proofs.Parser.Fails

/-!
# What stands behind does not matter

`Ignores n tail p p'` says that in front of `tail`, the parser `p` does what `p'` does where nothing
stands behind: on fewer than `n` tokens, it ends alike and reports the same errors, and never goes
past the first token of `tail`. Two parsers are compared so that they may differ in their bounds.

* `ignores_expression`: an expression ends in front of a semicolon at the latest, whatever is behind
  that.
* `ignores_statement`, `declarations_eq_program`: the bounds that the parsers take for recursion do
  not matter if they are above the count of tokens. Here nothing stands behind on either side.
-/

namespace Treewalk

/-- The same reply, with more tokens behind all places. -/
def Reply.behind {α : Type} (tail : List Token) (r : Reply α) : Reply α :=
  ⟨r.outcome, r.errors.map fun e => ⟨e.fault, e.ahead ++ tail⟩, r.rest ++ tail⟩

@[simp] theorem Reply.behind_nil {α : Type} (r : Reply α) : r.behind [] = r := by
  simp [Reply.behind]

namespace Parser

open Grammar

variable {α β : Type} {n : Nat} {tail : List Token} {p p' : Parser α}

/-! ## One parser after another -/

theorem bind_of_error {f : α → Parser β} {ts : List Token} {fault : SyntaxFault}
    (h : (p ts).outcome = .error fault) :
    (p >>= f) ts = ⟨.error fault, (p ts).errors, (p ts).rest⟩ := by
  simp only [bind, h]

theorem bind_of_ok {f : α → Parser β} {ts : List Token} {a : α} (h : (p ts).outcome = .ok a) :
    (p >>= f) ts = ⟨(f a (p ts).rest).outcome, (p ts).errors ++ (f a (p ts).rest).errors,
      (f a (p ts).rest).rest⟩ := by
  simp only [bind, h]

theorem take?_bind_of_starts {wanted : Token → Bool} {f : Option Token → Parser β} {t : Token}
    (h : wanted t = true) (ts : List Token) : (take? wanted >>= f) (t :: ts) = f (some t) ts := by
  simp only [bind, take?, if_pos h, List.nil_append]

theorem take?_bind_of_not_starts {wanted : Token → Bool} {f : Option Token → Parser β}
    {ts : List Token} (h : ¬ Starts wanted ts) : (take? wanted >>= f) ts = f none ts := by
  cases ts with
  | nil => simp only [bind, take?, List.nil_append]
  | cons t ts => simp only [bind, take?, if_neg (mt (starts_cons _ _ _).mpr h), List.nil_append]

/-! ## Building blocks -/

def Ignores (n : Nat) (tail : List Token) (p p' : Parser α) : Prop :=
  ∀ front : List Token, front.length < n →
    p (front ++ tail) = (p' front).behind tail ∧ (p' front).rest <:+ front

theorem Ignores.mono {m : Nat} (h : Ignores n tail p p') (hm : m ≤ n) : Ignores m tail p p' :=
  fun front hfront => h front (Nat.lt_of_lt_of_le hfront hm)

theorem ignores_zero : Ignores 0 tail p p' :=
  fun _ hfront => absurd hfront (Nat.not_lt_zero _)

theorem ignores_pure (a : α) : Ignores n tail (pure a) (pure a) :=
  fun front _ => ⟨rfl, List.suffix_refl front⟩

theorem ignores_fail (fault : SyntaxFault) :
    Ignores n tail (fail fault : Parser α) (fail fault) :=
  fun front _ => ⟨rfl, List.suffix_refl front⟩

theorem Ignores.bind {f f' : α → Parser β} (hp : Ignores n tail p p')
    (hf : ∀ a, Ignores n tail (f a) (f' a)) : Ignores n tail (p >>= f) (p' >>= f') := by
  intro front hfront
  obtain ⟨heq, hrest⟩ := hp front hfront
  cases hout : (p' front).outcome with
  | error fault =>
    rw [bind_of_error hout, bind_of_error (by rw [heq]; exact hout), heq]
    exact ⟨rfl, hrest⟩
  | ok a =>
    obtain ⟨heq', hrest'⟩ := hf a (p' front).rest (Nat.lt_of_le_of_lt hrest.length_le hfront)
    rw [bind_of_ok hout, bind_of_ok (by rw [heq]; exact hout), heq]
    simp only [Reply.behind] at heq' ⊢
    rw [heq', List.map_append]
    exact ⟨rfl, hrest'.trans hrest⟩

theorem Ignores.map (h : Ignores n tail p p') (f : α → β) :
    Ignores n tail (f <$> p) (f <$> p') :=
  h.bind fun a => ignores_pure (f a)

/-- What is taken makes one token less in front. -/
theorem ignores_take?_bind {wanted : Token → Bool} (hw : ¬ Starts wanted tail)
    {f f' : Option Token → Parser β} (hnone : Ignores n tail (f none) (f' none))
    (hsome : ∀ t, Ignores (n - 1) tail (f (some t)) (f' (some t))) :
    Ignores n tail (take? wanted >>= f) (take? wanted >>= f') := by
  intro front hfront
  cases front with
  | nil =>
    rw [List.nil_append, take?_bind_of_not_starts hw, take?_bind_of_not_starts (not_starts_nil _)]
    exact hnone [] hfront
  | cons t front =>
    by_cases ht : wanted t = true
    · rw [List.cons_append, take?_bind_of_starts ht, take?_bind_of_starts ht]
      obtain ⟨heq, hrest⟩ := hsome t front (Nat.lt_sub_of_add_lt hfront)
      exact ⟨heq, hrest.trans (List.suffix_cons t front)⟩
    · have hstop : ∀ more, ¬ Starts wanted (t :: more) := fun more => mt (starts_cons _ _ _).mp ht
      rw [List.cons_append, take?_bind_of_not_starts (hstop _), take?_bind_of_not_starts (hstop _)]
      exact hnone (t :: front) hfront

theorem ignores_expect {wanted : Token → Bool} {fault : SyntaxFault} (hw : ¬ Starts wanted tail) :
    Ignores n tail (expect wanted fault) (expect wanted fault) := by
  intro front _
  cases front with
  | nil =>
    cases tail with
    | nil => exact ⟨rfl, List.suffix_refl _⟩
    | cons t ts =>
      simp only [List.nil_append, expect, if_neg (mt (starts_cons _ _ _).mpr hw)]
      exact ⟨rfl, List.suffix_refl _⟩
  | cons t front =>
    rw [List.cons_append, expect, expect]
    split
    · exact ⟨rfl, List.suffix_cons t front⟩
    · exact ⟨rfl, List.suffix_refl _⟩

theorem ignores_expectMark {m : Mark} {after : Phrase} (hw : ¬ Starts (Token.isMark m) tail) :
    Ignores n tail (expectMark m after) (expectMark m after) :=
  (ignores_expect hw).bind fun _ => ignores_pure ()

theorem ignores_isAt (m : Mark) : Ignores n [] (isAt m) (isAt m) := by
  intro front _
  rw [List.append_nil, Reply.behind_nil]
  cases front with
  | nil => exact ⟨rfl, List.suffix_refl _⟩
  | cons t front => exact ⟨rfl, List.suffix_refl _⟩

theorem ignores_report (fault : SyntaxFault) (place : List Token) :
    Ignores n tail (report ⟨fault, place ++ tail⟩) (report ⟨fault, place⟩) :=
  fun front _ => ⟨rfl, List.suffix_refl front⟩

/-- The place that is noted has the tail behind it. -/
theorem ignores_ahead_bind {f f' : List Token → Parser β}
    (hf : ∀ place, Ignores n tail (f (place ++ tail)) (f' place)) :
    Ignores n tail (ahead >>= f) (ahead >>= f') :=
  fun front hfront => hf front front hfront

/-! ## Expressions -/

/-- Nothing is left, or a semicolon is next. -/
def Barrier (tail : List Token) : Prop :=
  ∀ t ∈ tail.head?, t.kind = .mark .semicolon

theorem Barrier.not_starts (h : Barrier tail) {wanted : Token → Bool}
    (hw : ∀ t : Token, t.kind = .mark .semicolon → wanted t = false) : ¬ Starts wanted tail := by
  rintro ⟨t, ht, hwanted⟩
  rw [hw t (h t ht)] at hwanted
  cases hwanted

section

variable {nested nested' : Parser Expr}

theorem ignores_primary (htail : Barrier tail) (h : Ignores (n - 1) tail nested nested') :
    Ignores n tail (primary nested) (primary nested') := by
  rw [primary_eq, primary_eq]
  apply ignores_take?_bind
  · exact htail.not_starts fun t ht => by simp [opensPrimary, Token.isMark, ht, literalValue?]
  · exact ignores_fail _
  · intro t
    change Ignores (n - 1) tail (primaryBehind nested t) (primaryBehind nested' t)
    unfold primaryBehind
    split
    · exact ignores_pure _
    · split
      · exact ignores_pure _
      · apply h.bind
        intro inner
        apply (ignores_expectMark _).bind
        · exact fun _ => ignores_pure _
        · exact htail.not_starts fun t ht => by simp [Token.isMark, ht]

theorem ignores_unary (htail : Barrier tail) (h : Ignores (n - 1) tail nested nested') :
    Ignores n tail (unary nested) (unary nested') := by
  induction n with
  | zero => exact ignores_zero
  | succ n ih =>
    rw [unary_eq nested, unary_eq nested']
    apply ignores_take?_bind
    · exact htail.not_starts fun t ht => by simp [Token.isUnary, ht]
    · exact ignores_primary htail h
    · exact fun t => (ih (h.mono (Nat.sub_le n 1))).map _

end

section

variable {level : Level} {operand operand' : Parser Expr}

/-- Neither a closing token nor a semicolon is an operator. -/
theorem not_isOperator (hlevel : level ∈ Level.all) {t : Token}
    (ht : t.kind = .eof ∨ t.kind = .mark .semicolon) : level.isOperator t = false := by
  simp only [Level.all, List.mem_cons, List.not_mem_nil, or_false] at hlevel
  obtain ht | ht := ht
  all_goals
    rcases hlevel with rfl | rfl | rfl | rfl | rfl | rfl <;>
      simp [Token.isKeyword, Token.isEquality, Token.isComparison, Token.isTerm, Token.isFactor, ht]

theorem operations_of_not_starts {ts : List Token} (h : ¬ Starts level.isOperator ts)
    (rounds : Nat) (left : Expr) :
    operations level operand rounds left ts = ⟨.ok left, [], ts⟩ := by
  cases rounds with
  | zero => rfl
  | succ rounds =>
    rw [operations, take?_bind_of_not_starts h]
    rfl

/-- Each round takes a token. -/
theorem ignores_operations (hlevel : ¬ Starts level.isOperator tail)
    (h : Ignores n tail operand operand') {rounds rounds' : Nat} (hrounds : n ≤ rounds + 1)
    (hrounds' : n ≤ rounds' + 1) (left : Expr) :
    Ignores n tail (operations level operand rounds left)
      (operations level operand' rounds' left) := by
  induction n generalizing rounds rounds' left with
  | zero => exact ignores_zero
  | succ n ih =>
    intro front hfront
    cases front with
    | nil =>
      -- No operator is next on either side, so it does not count how many rounds are left.
      rw [List.nil_append, operations_of_not_starts hlevel,
        operations_of_not_starts (not_starts_nil _)]
      exact ⟨rfl, List.suffix_refl _⟩
    | cons t front =>
      obtain ⟨rounds, rfl⟩ : ∃ r, rounds = r + 1 := ⟨rounds - 1, by simp at hfront; omega⟩
      obtain ⟨rounds', rfl⟩ : ∃ r, rounds' = r + 1 := ⟨rounds' - 1, by simp at hfront; omega⟩
      have hless := h.mono (Nat.le_succ n)
      refine ignores_take?_bind hlevel (ignores_pure left) (fun operator => ?_) (t :: front) hfront
      apply hless.bind
      intro right
      exact ih hless (Nat.le_of_succ_le_succ hrounds) (Nat.le_of_succ_le_succ hrounds') _

theorem ignores_binary (htail : Barrier tail) (h : Ignores n tail operand operand')
    {rounds rounds' : Nat} (hrounds : n ≤ rounds + 1) (hrounds' : n ≤ rounds' + 1)
    {levels : List Level} (hlevels : levels ⊆ Level.all) :
    Ignores n tail (binary rounds operand levels) (binary rounds' operand' levels) := by
  induction levels with
  | nil => exact h
  | cons level tighter ih =>
    obtain ⟨hlevel, htighter⟩ := List.cons_subset.mp hlevels
    have hquiet : ¬ Starts level.isOperator tail :=
      htail.not_starts fun t ht => not_isOperator hlevel (.inr ht)
    exact (ih htighter).bind (ignores_operations hquiet (ih htighter) hrounds hrounds')

end

theorem ignores_assignment (htail : Barrier tail) {nested nested' : Parser Expr}
    (h : Ignores (n - 1) tail nested nested') {rounds rounds' : Nat} (hrounds : n ≤ rounds + 1)
    (hrounds' : n ≤ rounds' + 1) :
    Ignores n tail (assignment rounds nested) (assignment rounds' nested') := by
  apply (ignores_binary htail (ignores_unary htail h) hrounds hrounds' (List.Subset.refl _)).bind
  intro left
  -- The place of an invalid target is the one before the equals sign.
  apply ignores_ahead_bind
  intro place
  apply ignores_take?_bind
  · exact htail.not_starts fun t ht => by simp [Token.isMark, ht]
  · exact ignores_pure left
  · intro equal
    apply h.bind
    intro value
    cases left with
    | «variable» name => exact ignores_pure _
    | _ => exact (ignores_report .invalidTarget place).bind fun _ => ignores_pure _

theorem ignores_expression (htail : Barrier tail) {bound bound' : Nat} (h : n ≤ bound)
    (h' : n ≤ bound') : Ignores n tail (expression bound) (expression bound') := by
  induction bound generalizing n bound' with
  | zero =>
    obtain rfl := Nat.le_zero.mp h
    exact ignores_zero
  | succ bound ih =>
    cases bound' with
    | zero =>
      obtain rfl := Nat.le_zero.mp h'
      exact ignores_zero
    | succ bound' =>
      rw [expression, expression]
      exact ignores_assignment htail (ih (by omega) (by omega)) h h'

/-! ## Progress -/

theorem Reads.suffix {Q : α → Prop} (h : Reads (fun _ => True) p Q) (ts : List Token) :
    (p ts).rest <:+ ts :=
  (h ts fun _ _ => trivial).rest

/-- A value is only given behind one token at least. -/
def Consumes (p : Parser α) : Prop :=
  ∀ ts a, (p ts).outcome = .ok a → (p ts).rest.length < ts.length

theorem consumes_expectMark (m : Mark) (after : Phrase) : Consumes (expectMark m after) := by
  intro ts a h
  cases ts with
  | nil => cases h
  | cons t ts =>
    by_cases ht : t.isMark m = true
    · simp [expectMark, expect, ht, bind, pure]
    · simp [expectMark, expect, ht, bind] at h

theorem Consumes.bind {f : α → Parser β} (hp : Consumes p)
    (hf : ∀ a ts, (f a ts).rest <:+ ts) : Consumes (p >>= f) := by
  intro ts b h
  cases hout : (p ts).outcome with
  | error fault =>
    rw [bind_of_error hout] at h
    cases h
  | ok a =>
    rw [bind_of_ok hout]
    exact Nat.lt_of_le_of_lt (hf a _).length_le (hp ts a hout)

theorem consumes_bind {f : α → Parser β} (hp : ∀ ts, (p ts).rest <:+ ts)
    (hf : ∀ a, Consumes (f a)) : Consumes (p >>= f) := by
  intro ts b h
  cases hout : (p ts).outcome with
  | error fault =>
    rw [bind_of_error hout] at h
    cases h
  | ok a =>
    rw [bind_of_ok hout] at h ⊢
    exact Nat.lt_of_lt_of_le (hf a _ b h) (hp ts).length_le

theorem consumes_take?_bind {wanted : Token → Bool} {f : Option Token → Parser β}
    (hnone : Consumes (f none)) (hsome : ∀ t ts, (f (some t) ts).rest <:+ ts) :
    Consumes (take? wanted >>= f) := by
  intro ts b h
  by_cases hstart : Starts wanted ts
  · obtain ⟨t, ht, hwanted⟩ := hstart
    obtain ⟨ts, rfl⟩ := List.head?_eq_some_iff.mp ht
    rw [take?_bind_of_starts hwanted]
    exact Nat.lt_succ_of_le (hsome t ts).length_le
  · rw [take?_bind_of_not_starts hstart] at h ⊢
    exact hnone ts b h

theorem Consumes.bind_of_reads {f : α → Parser β} {Q : α → Prop} {R : β → Prop} (hp : Consumes p)
    (hreads : Reads (fun _ => True) p Q) (hf : ∀ a, Q a → Reads (fun _ => True) (f a) R) :
    Consumes (p >>= f) := by
  intro ts b h
  cases hout : (p ts).outcome with
  | error fault =>
    rw [bind_of_error hout] at h
    cases h
  | ok a =>
    have ha := (hreads ts fun _ _ => trivial).value a hout
    rw [bind_of_ok hout]
    exact Nat.lt_of_le_of_lt ((hf a ha).suffix _).length_le (hp ts a hout)

section

variable {nested operand : Parser Expr}

theorem consumes_primary (h : Reads (fun _ => True) nested (Formed fun _ => True)) :
    Consumes (primary nested) := by
  rw [primary_eq]
  apply consumes_take?_bind
  · intro ts e hfail
    cases hfail
  · intro t
    have hbehind : Reads (fun _ => True) (primaryBehind nested t) fun _ => True := by
      unfold primaryBehind
      split
      · exact reads_pure trivial
      · split
        · exact reads_pure trivial
        · exact reads_bind h fun _ _ =>
            reads_bind (reads_expectMark _ _) fun _ _ => reads_pure trivial
    exact hbehind.suffix

theorem consumes_unary (h : Reads (fun _ => True) nested (Formed fun _ => True)) :
    Consumes (unary nested) := by
  rw [unary_eq]
  apply consumes_take?_bind (consumes_primary h)
  intro t
  have hbehind : Reads (fun _ => True) (Expr.unary t <$> unary nested) fun _ => True :=
    reads_map (reads_unary h) fun _ _ => trivial
  exact hbehind.suffix

theorem consumes_binary (hconsumes : Consumes operand)
    (h : Reads (fun _ => True) operand (Formed fun _ => True)) (bound : Nat) {levels : List Level}
    (hlevels : ∀ level ∈ levels, Level.WellFormed level) :
    Consumes (binary bound operand levels) := by
  induction levels with
  | nil => exact hconsumes
  | cons level tighter ih =>
    have htighter : ∀ l ∈ tighter, Level.WellFormed l :=
      fun l hl => hlevels l (List.mem_cons_of_mem level hl)
    have hreads := reads_binary h bound htighter
    exact (ih htighter).bind_of_reads hreads fun left hleft =>
      reads_operations (hlevels level List.mem_cons_self) hreads bound hleft

end

/-! ## Statements -/

section

variable {expr expr' : Parser Expr} {stmt stmt' : Parser Stmt}

theorem ignores_expressionStatement (he : Ignores n [] expr expr') :
    Ignores n [] (expressionStatement expr) (expressionStatement expr') := by
  apply he.bind
  intro e
  exact (ignores_expectMark (not_starts_nil _)).bind fun _ => ignores_pure _

theorem ignores_printStatement (he : Ignores n [] expr expr') :
    Ignores n [] (printStatement expr) (printStatement expr') := by
  apply he.bind
  intro e
  exact (ignores_expectMark (not_starts_nil _)).bind fun _ => ignores_pure _

theorem ignores_variableDeclaration (he : Ignores n [] expr expr') :
    Ignores n [] (variableDeclaration expr) (variableDeclaration expr') := by
  apply (ignores_expect (not_starts_nil _)).bind
  intro name
  have hend : ∀ (m : Nat) (initializer : Option Expr), Ignores m [] (do
        expectMark .semicolon .variableDeclaration
        return Stmt.declare name initializer) (do
        expectMark .semicolon .variableDeclaration
        return Stmt.declare name initializer) := fun m initializer =>
    (ignores_expectMark (not_starts_nil _)).bind fun _ => ignores_pure _
  apply ignores_take?_bind (not_starts_nil _)
  · exact (ignores_pure none).bind (hend n)
  · exact fun equal => ((he.mono (Nat.sub_le n 1)).map some).bind (hend _)

theorem ignores_ifStatement (he : Ignores n [] expr expr') (hs : Ignores n [] stmt stmt') :
    Ignores n [] (ifStatement expr stmt) (ifStatement expr' stmt') := by
  apply (ignores_expectMark (not_starts_nil _)).bind
  intro _
  apply he.bind
  intro condition
  apply (ignores_expectMark (not_starts_nil _)).bind
  intro _
  apply hs.bind
  intro yes
  apply ignores_take?_bind (not_starts_nil _)
  · exact ignores_pure _
  · exact fun otherwise => (hs.mono (Nat.sub_le n 1)).bind fun no => ignores_pure _

theorem ignores_whileStatement (he : Ignores n [] expr expr') (hs : Ignores n [] stmt stmt') :
    Ignores n [] (whileStatement expr stmt) (whileStatement expr' stmt') := by
  apply (ignores_expectMark (not_starts_nil _)).bind
  intro _
  apply he.bind
  intro condition
  apply (ignores_expectMark (not_starts_nil _)).bind
  intro _
  exact hs.bind fun body => ignores_pure _

theorem ignores_forInitializer (he : Ignores n [] expr expr') :
    Ignores n [] (forInitializer expr) (forInitializer expr') := by
  apply ignores_take?_bind (not_starts_nil _)
  · apply ignores_take?_bind (not_starts_nil _)
    · exact (ignores_expressionStatement he).map _
    · exact fun keyword => (ignores_variableDeclaration (he.mono (Nat.sub_le n 1))).map _
  · exact fun semicolon => ignores_pure _

theorem ignores_forClause (close : Mark) (he : Ignores n [] expr expr') :
    Ignores n [] (forClause close expr) (forClause close expr') := by
  apply (ignores_isAt close).bind
  rintro (_ | _)
  · exact he.map _
  · exact ignores_pure _

theorem ignores_forStatement (he : Ignores n [] expr expr') (hs : Ignores n [] stmt stmt') :
    Ignores n [] (forStatement expr stmt) (forStatement expr' stmt') := by
  apply (ignores_expectMark (not_starts_nil _)).bind
  intro _
  apply (ignores_forInitializer he).bind
  intro initializer
  apply (ignores_forClause .semicolon he).bind
  intro condition
  apply (ignores_expectMark (not_starts_nil _)).bind
  intro _
  apply (ignores_forClause .rightParen he).bind
  intro increment
  apply (ignores_expectMark (not_starts_nil _)).bind
  intro _
  exact hs.bind fun body => ignores_pure _

/-! ## Programs -/

theorem ignores_declaration (he : Ignores n [] expr expr') (hs : Ignores n [] stmt stmt') :
    Ignores n [] (declaration expr stmt) (declaration expr' stmt') := by
  apply ignores_take?_bind (not_starts_nil _)
  · exact hs
  · exact fun keyword => ignores_variableDeclaration (he.mono (Nat.sub_le n 1))

theorem declarations_succ_cons {closes : Token → Bool} {one : Parser Stmt} {t : Token}
    (h : closes t = false) (rounds : Nat) (ts : List Token) :
    declarations closes one (rounds + 1) (t :: ts) =
      (recover one >>= fun first => declarations closes one rounds >>= fun others =>
        pure (first.toList ++ others)) (t :: ts) := by
  simp only [declarations, h, Bool.false_eq_true, if_false]

/-- The first declaration, or the recovery from it, and then the others. -/
theorem declarations_cons_of_ok {closes : Token → Bool} {one : Parser Stmt} {t : Token}
    (h : closes t = false) (rounds : Nat) {ts : List Token} {o : Option Stmt}
    (ho : (recover one (t :: ts)).outcome = .ok o) {others : List Stmt}
    (hothers : (declarations closes one rounds (recover one (t :: ts)).rest).outcome =
      .ok others) :
    declarations closes one (rounds + 1) (t :: ts) =
      ⟨.ok (o.toList ++ others), (recover one (t :: ts)).errors ++
        (declarations closes one rounds (recover one (t :: ts)).rest).errors,
        (declarations closes one rounds (recover one (t :: ts)).rest).rest⟩ := by
  rw [declarations_succ_cons h, bind_of_ok ho, bind_of_ok hothers]
  simp [pure]

theorem length_rest_recover_lt {one : Parser Stmt} (hone : Consumes one)
    (hreads : Reads (fun _ => True) one (FormedStmt fun _ => True)) (t : Token) (ts : List Token) :
    (recover one (t :: ts)).rest.length < (t :: ts).length := by
  have hrest := hreads.suffix (t :: ts)
  simp only [recover]
  split
  · rename_i s hs
    exact hone (t :: ts) s hs
  · cases h : (one (t :: ts)).rest with
    | nil => exact Nat.succ_pos _
    | cons u us =>
      rw [h] at hrest
      exact Nat.lt_of_lt_of_le (length_resume_lt u us) hrest.length_le

/-- Each declaration takes a token, and so does the recovery from one. -/
theorem declarations_eq {closes : Token → Bool} {one one' : Parser Stmt}
    (h : ∀ front, front.length < n → one front = one' front) (hone : Consumes one')
    (hreads : Reads (fun _ => True) one' (FormedStmt fun _ => True)) {rounds rounds' : Nat}
    (hrounds : n ≤ rounds) (hrounds' : n ≤ rounds') {ts : List Token} (hts : ts.length < n) :
    declarations closes one rounds ts = declarations closes one' rounds' ts := by
  induction n generalizing rounds rounds' ts with
  | zero => exact absurd hts (Nat.not_lt_zero _)
  | succ n ih =>
    obtain ⟨rounds, rfl⟩ := Nat.exists_eq_add_of_le' (Nat.le_trans (Nat.le_add_left 1 n) hrounds)
    obtain ⟨rounds', rfl⟩ := Nat.exists_eq_add_of_le' (Nat.le_trans (Nat.le_add_left 1 n) hrounds')
    cases ts with
    | nil => rfl
    | cons t ts =>
      cases hc : closes t with
      | true => simp only [declarations, hc, if_true]
      | false =>
        have hfirst : recover one (t :: ts) = recover one' (t :: ts) := by
          simp only [recover, h _ hts]
        -- What the first declaration leaves is shorter, so the rounds are enough for it.
        have hless := length_rest_recover_lt hone hreads t ts
        have hothers := ih (fun front hfront => h front (Nat.lt_succ_of_lt hfront))
          (Nat.le_of_succ_le_succ hrounds) (Nat.le_of_succ_le_succ hrounds')
          (Nat.lt_of_lt_of_le hless (Nat.le_of_lt_succ hts))
        rw [declarations_succ_cons hc, declarations_succ_cons hc]
        simp only [bind, hfirst, hothers]

/-- Declarations go on up to a token that closes them, or to the end. -/
theorem rest_declarations {closes : Token → Bool} {one : Parser Stmt} (hone : Consumes one)
    (hreads : Reads (fun _ => True) one (FormedStmt fun _ => True)) {rounds : Nat}
    {ts : List Token} (h : ts.length < rounds) :
    (declarations closes one rounds ts).rest = [] ∨
      Starts closes (declarations closes one rounds ts).rest := by
  induction rounds generalizing ts with
  | zero => exact absurd h (Nat.not_lt_zero _)
  | succ rounds ih =>
    cases ts with
    | nil => exact .inl rfl
    | cons t ts =>
      cases hc : closes t with
      | true =>
        refine .inr ?_
        simp only [declarations, hc, if_true]
        exact (starts_cons closes t ts).mpr hc
      | false =>
        obtain ⟨o, ho⟩ := exists_outcome_recover one (t :: ts)
        obtain ⟨others, hothers⟩ :=
          exists_outcome_declarations closes one rounds (recover one (t :: ts)).rest
        have hless := length_rest_recover_lt hone hreads t ts
        rw [declarations_cons_of_ok hc rounds ho hothers]
        exact ih (Nat.lt_of_lt_of_le hless (Nat.le_of_lt_succ h))

theorem ignores_block (he : Ignores n [] expr expr') (hs : Ignores n [] stmt stmt')
    (hone : Consumes (declaration expr' stmt'))
    (hreads : Reads (fun _ => True) (declaration expr' stmt') (FormedStmt fun _ => True))
    {bound bound' : Nat} (h : n ≤ bound) (h' : n ≤ bound') :
    Ignores n [] (block bound expr stmt) (block bound' expr' stmt') := by
  have hbody : Ignores n []
      (declarations (Token.isMark .rightBrace) (declaration expr stmt) bound)
      (declarations (Token.isMark .rightBrace) (declaration expr' stmt') bound') := by
    intro front hfront
    have hone' : ∀ ts, ts.length < n → declaration expr stmt ts = declaration expr' stmt' ts :=
      fun ts hts => by simpa using (ignores_declaration he hs ts hts).1
    rw [List.append_nil, Reply.behind_nil]
    exact ⟨declarations_eq hone' hone hreads h h' hfront,
      (reads_declarations hreads bound').suffix front⟩
  apply hbody.bind
  intro body
  exact (ignores_expectMark (not_starts_nil _)).bind fun _ => ignores_pure _

end

theorem consumes_statement (bound : Nat) : Consumes (statement bound) := by
  cases bound with
  | zero =>
    intro ts s h
    cases h
  | succ bound =>
    have he := reads_expression (P := fun _ => True) (bound + 1)
    have hs := reads_statement (P := fun _ => True) bound
    rw [statement_succ]
    apply consumes_take?_bind
    · exact consumes_bind he.suffix fun e =>
        (consumes_expectMark .semicolon .expression).bind fun _ ts => List.suffix_refl ts
    · intro t
      have hbehind : Reads (fun _ => True)
          (compoundBehind bound (expression (bound + 1)) (statement bound) t)
          (FormedStmt fun _ => True) := by
        unfold compoundBehind
        split
        · exact reads_forStatement he hs
        · exact reads_ifStatement he hs
        · exact reads_printStatement he
        · exact reads_whileStatement he hs
        · exact reads_block he hs bound
      exact hbehind.suffix

theorem consumes_declaration {expr : Parser Expr} {stmt : Parser Stmt}
    (he : Reads (fun _ => True) expr (Formed fun _ => True)) (hs : Consumes stmt) :
    Consumes (declaration expr stmt) :=
  consumes_take?_bind hs fun _ => (reads_variableDeclaration he).suffix

theorem ignores_statement {bound bound' : Nat} (h : n ≤ bound) (h' : n ≤ bound') :
    Ignores n [] (statement bound) (statement bound') := by
  induction bound generalizing n bound' with
  | zero =>
    obtain rfl := Nat.le_zero.mp h
    exact ignores_zero
  | succ bound ih =>
    cases bound' with
    | zero =>
      obtain rfl := Nat.le_zero.mp h'
      exact ignores_zero
    | succ bound' =>
      have he : Ignores n [] (expression (bound + 1)) (expression (bound' + 1)) :=
        ignores_expression (by simp [Barrier]) h h'
      have he' := he.mono (Nat.sub_le n 1)
      have hs : Ignores (n - 1) [] (statement bound) (statement bound') := ih (by omega) (by omega)
      rw [statement_succ, statement_succ]
      apply ignores_take?_bind (not_starts_nil _)
      · exact ignores_expressionStatement he
      · intro t
        change Ignores (n - 1) [] (compoundBehind bound _ _ t) (compoundBehind bound' _ _ t)
        unfold compoundBehind
        split
        · exact ignores_forStatement he' hs
        · exact ignores_ifStatement he' hs
        · exact ignores_printStatement he'
        · exact ignores_whileStatement he' hs
        · exact ignores_block he' hs
            (consumes_declaration (reads_expression _) (consumes_statement _))
            (reads_declaration (reads_expression _) (reads_statement _)) (by omega) (by omega)

/-- What a program is read with has only to be enough. -/
theorem declarations_eq_program {ts : List Token} {bound rounds : Nat} (h : ts.length < bound)
    (hrounds : ts.length < rounds) :
    declarations (fun _ => false) (declaration (expression bound) (statement bound)) rounds ts =
      program ts := by
  have hdeclaration : ∀ front : List Token, front.length < ts.length + 1 →
      declaration (expression bound) (statement bound) front =
        declaration (expression (ts.length + 1)) (statement (ts.length + 1)) front := by
    intro front hfront
    have he : Ignores (ts.length + 1) [] (expression bound) (expression (ts.length + 1)) :=
      ignores_expression (by simp [Barrier]) h (Nat.le_refl _)
    have hs := ignores_statement h (Nat.le_refl (ts.length + 1))
    simpa using (ignores_declaration he hs front hfront).1
  exact declarations_eq hdeclaration
    (consumes_declaration (reads_expression _) (consumes_statement _))
    (reads_declaration (reads_expression _) (reads_statement _)) hrounds (Nat.le_refl _)
    (Nat.lt_succ_self _)

theorem rest_program (ts : List Token) : (program ts).rest = [] := by
  have h : (program ts).rest = [] ∨ Starts (fun _ => false) (program ts).rest :=
    rest_declarations (consumes_declaration (reads_expression _) (consumes_statement _))
      (reads_declaration (reads_expression _) (reads_statement _)) (Nat.lt_succ_self _)
  exact h.resolve_right fun ⟨_, _, hclosed⟩ => Bool.false_ne_true hclosed

end Parser

end Treewalk
