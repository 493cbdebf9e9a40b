import Treewalk.Parser.Statement
import Treewalk.Proofs.Tree

/-!
# What every parser does

Whatever tokens there are, and whether or not they are a sentence, a parser leaves the end of
its tokens, reports errors at places that it came past, and never gives up over an invalid
target. `Reads P p Q` says this of `p`, and that on tokens with the property `P` its values have
the property `Q`. `reads_bind` carries it from the parts of a parser to the whole.

* `reads_statement`: in a tree, each token comes from the tokens read and fits its role.
* `statements_every`: so it is in the statements of a whole program, also where errors were
  recovered from.
-/

namespace Treewalk

/-- What holds of a reply to the tokens `ts`. -/
structure Reply.Sound {α : Type} (Q : α → Prop) (ts : List Token) (r : Reply α) : Prop where
  rest : r.rest <:+ ts
  places : ∀ e ∈ r.errors, e.ahead <:+ ts
  fatal : ∀ fault, r.outcome = .error fault → fault ≠ .invalidTarget
  value : ∀ a, r.outcome = .ok a → Q a

theorem Reply.Sound.of_suffix {α : Type} {Q : α → Prop} {ts base : List Token} {r : Reply α}
    (h : r.Sound Q ts) (hts : ts <:+ base) : r.Sound Q base where
  rest := h.rest.trans hts
  places e he := (h.places e he).trans hts
  fatal := h.fatal
  value := h.value

theorem Reply.Sound.map {α β : Type} {Q : α → Prop} {R : β → Prop} {ts : List Token}
    {r : Reply α} {f : α → β} (h : r.Sound Q ts) (hf : ∀ a, Q a → R (f a)) :
    (r.map f).Sound R ts := by
  refine ⟨h.rest, h.places, ?_, ?_⟩
  · intro fault hfault
    cases ho : r.outcome with
    | error fault' =>
      simp only [Reply.map, ho, Except.map, Except.error.injEq] at hfault
      exact hfault ▸ h.fatal fault' ho
    | ok a => simp [Reply.map, ho, Except.map] at hfault
  · intro b hb
    cases ho : r.outcome with
    | error fault => simp [Reply.map, ho, Except.map] at hb
    | ok a =>
      simp only [Reply.map, ho, Except.map, Except.ok.injEq] at hb
      exact hb ▸ hf a (h.value a ho)

namespace Parser

variable {α β : Type} {P : Token → Prop} {Q : α → Prop} {R : β → Prop}

def Reads (P : Token → Prop) (p : Parser α) (Q : α → Prop) : Prop :=
  ∀ ts, (∀ t ∈ ts, P t) → (p ts).Sound Q ts

/-! ## Building blocks -/

theorem sound_ok {a : α} (ts : List Token) (h : Q a) : Reply.Sound Q ts ⟨.ok a, [], ts⟩ where
  rest := List.suffix_refl ts
  places := by simp
  fatal := by simp
  value := by simpa using h

theorem sound_error {fault : SyntaxFault} (ts : List Token) (h : fault ≠ .invalidTarget) :
    Reply.Sound Q ts ⟨.error fault, [], ts⟩ where
  rest := List.suffix_refl ts
  places := by simp
  fatal := by simpa using h
  value := by simp

theorem sound_bind {ts base : List Token} {p : Parser α} {f : α → Parser β}
    (hp : (p ts).Sound Q base) (hf : ∀ a, Q a → (f a (p ts).rest).Sound R base) :
    ((p >>= f) ts).Sound R base := by
  obtain ⟨hrest, hplaces, hfatal, hvalue⟩ := hp
  simp only [bind]
  split
  · rename_i fault h
    exact ⟨hrest, hplaces, by simpa using hfatal fault h, by simp⟩
  · rename_i a h
    have later := hf a (hvalue a h)
    refine ⟨later.rest, ?_, later.fatal, later.value⟩
    intro e he
    exact (List.mem_append.mp he).elim (hplaces e) (later.places e)

theorem sound_report {e : SyntaxError} {ts base : List Token} (hts : ts <:+ base)
    (he : e.ahead <:+ base) : (report e ts).Sound (fun _ => True) base where
  rest := hts
  places e' he' := List.mem_singleton.mp he' ▸ he
  fatal := by simp [report]
  value := fun _ _ => trivial

theorem reads_pure {a : α} (h : Q a) : Reads P (pure a) Q := fun ts _ => sound_ok ts h

theorem reads_fail {fault : SyntaxFault} (h : fault ≠ .invalidTarget) :
    Reads P (fail fault) Q := fun ts _ => sound_error ts h

theorem reads_bind {p : Parser α} {f : α → Parser β} (hp : Reads P p Q)
    (hf : ∀ a, Q a → Reads P (f a) R) : Reads P (p >>= f) R := by
  intro ts hts
  have hrest := (hp ts hts).rest
  apply sound_bind (hp ts hts)
  intro a ha
  exact (hf a ha _ fun t ht => hts t (hrest.subset ht)).of_suffix hrest

theorem reads_map {p : Parser α} {f : α → β} (hp : Reads P p Q) (hf : ∀ a, Q a → R (f a)) :
    Reads P (f <$> p) R :=
  reads_bind hp fun a ha => reads_pure (hf a ha)

theorem reads_take? (wanted : Token → Bool) :
    Reads P (take? wanted) fun o => ∀ t ∈ o, P t ∧ wanted t = true := by
  intro ts hts
  unfold take?
  split
  · exact sound_ok [] (by simp)
  · rename_i t ts
    split
    · rename_i h
      exact (sound_ok ts (by simpa using ⟨hts t List.mem_cons_self, h⟩)).of_suffix
        (List.suffix_cons t ts)
    · exact sound_ok (t :: ts) (by simp)

theorem reads_expect {wanted : Token → Bool} {fault : SyntaxFault}
    (h : fault ≠ .invalidTarget) :
    Reads P (expect wanted fault) fun t => P t ∧ wanted t = true := by
  intro ts hts
  unfold expect
  split
  · exact sound_error [] h
  · rename_i t ts
    split
    · rename_i hw
      exact (sound_ok ts ⟨hts t List.mem_cons_self, hw⟩).of_suffix (List.suffix_cons t ts)
    · exact sound_error (t :: ts) h

theorem reads_expectMark (m : Mark) (after : Phrase) :
    Reads P (expectMark m after) fun _ => True :=
  reads_bind (reads_expect (by simp)) fun _ _ => reads_pure trivial

theorem reads_isAt (m : Mark) : Reads P (isAt m) fun _ => True := by
  intro ts _
  unfold isAt
  split
  · exact sound_ok [] trivial
  · exact sound_ok _ trivial

/-! ## Expressions -/

/-- A token from the tokens read that fits its role. -/
def Placed (P : Token → Prop) (role : Role) (t : Token) : Prop :=
  P t ∧ role.Fits t

/-- The trees of expressions, with every token in its place. -/
abbrev Formed (P : Token → Prop) (e : Expr) : Prop := e.Every (Placed P)

theorem reads_primary {nested : Parser Expr} (h : Reads P nested (Formed P)) :
    Reads P (primary nested) (Formed P) := by
  intro ts hts
  match ts with
  | [] => exact sound_error [] (by simp)
  | t :: ts =>
    have hsuffix := List.suffix_cons t ts
    have ht : P t := hts t List.mem_cons_self
    have hrest : ∀ u ∈ ts, P u := fun u hu => hts u (List.mem_cons_of_mem t hu)
    unfold primary
    dsimp only
    split
    case h_1 => exact (sound_ok ts trivial).of_suffix hsuffix
    split
    case h_5 =>
      refine Reply.Sound.of_suffix ?_ hsuffix
      exact reads_bind h (fun e he => reads_bind (reads_expectMark _ _)
        fun _ _ => reads_pure (show Formed P (.grouping e) from he)) ts hrest
    case h_4 hk =>
      exact (sound_ok ts (by simpa [Formed, Expr.Every, Placed, Role.Fits, Role.kinds]
        using ⟨ht, hk⟩)).of_suffix hsuffix
    case h_6 => exact sound_error _ (by simp)
    all_goals exact (sound_ok ts trivial).of_suffix hsuffix

theorem reads_unary {nested : Parser Expr} (h : Reads P nested (Formed P)) :
    Reads P (unary nested) (Formed P) := by
  intro ts hts
  induction ts with
  | nil => exact reads_primary h [] hts
  | cons t ts ih =>
    unfold unary
    split
    · rename_i hop
      have ht : P t := hts t List.mem_cons_self
      have inner := ih fun u hu => hts u (List.mem_cons_of_mem t hu)
      have hfits : Role.Fits (.operator .unary) t := Token.isUnary_iff.mp hop
      exact (inner.map fun e he => ⟨⟨ht, hfits⟩, he⟩).of_suffix (List.suffix_cons t ts)
    · exact reads_primary h (t :: ts) hts

/-- The operators of a level fit the role that its nodes give them. -/
def Level.WellFormed (level : Level) : Prop :=
  ∀ P : Token → Prop, ∀ t, P t → level.isOperator t = true → ∀ l r,
    Formed P l → Formed P r → Formed P (level.node l t r)

theorem wellFormed_all : ∀ level ∈ Level.all, Level.WellFormed level := by
  intro level hlevel P t ht hop l r hl hr
  simp only [Level.all, List.mem_cons, List.not_mem_nil, or_false] at hlevel
  rcases hlevel with rfl | rfl | rfl | rfl | rfl | rfl
  all_goals
    refine ⟨⟨ht, ?_⟩, hl, hr⟩
    simp only [Token.isKeyword_iff, Token.isEquality_iff, Token.isComparison_iff,
      Token.isTerm_iff, Token.isFactor_iff, List.mem_cons, List.not_mem_nil, or_false] at hop
    simp only [Role.Fits, Role.kinds, List.mem_cons, List.not_mem_nil, or_false]
    grind

theorem reads_operations {level : Level} {operand : Parser Expr} (hlevel : Level.WellFormed level)
    (h : Reads P operand (Formed P)) (bound : Nat) {left : Expr} (hleft : Formed P left) :
    Reads P (operations level operand bound left) (Formed P) := by
  induction bound generalizing left with
  | zero => exact reads_pure hleft
  | succ bound ih =>
    apply reads_bind (reads_take? level.isOperator)
    intro o ho
    cases o with
    | none => exact reads_pure hleft
    | some t =>
      obtain ⟨ht, hop⟩ := ho t rfl
      exact reads_bind h fun right hright => ih (hlevel P t ht hop left right hleft hright)

theorem reads_binary {operand : Parser Expr} (h : Reads P operand (Formed P)) (bound : Nat)
    {levels : List Level} (hlevels : ∀ level ∈ levels, Level.WellFormed level) :
    Reads P (binary bound operand levels) (Formed P) := by
  induction levels with
  | nil => exact h
  | cons level tighter ih =>
    have inner := ih fun l hl => hlevels l (List.mem_cons_of_mem level hl)
    exact reads_bind inner fun left hleft =>
      reads_operations (hlevels level List.mem_cons_self) inner bound hleft

theorem reads_assignment {nested : Parser Expr} (h : Reads P nested (Formed P)) (bound : Nat) :
    Reads P (assignment bound nested) (Formed P) := by
  apply reads_bind (reads_binary (reads_unary h) bound wellFormed_all)
  intro left hleft place hplace
  -- The report comes behind `nested` but stands before it, so suffixes of `place` are followed.
  refine sound_bind (p := ahead) (sound_ok (Q := (· = place)) place rfl) ?_
  rintro place' rfl
  have htake := reads_take? (P := P) (Token.isMark .equal) place' hplace
  apply sound_bind htake
  intro o ho
  have hafter := htake.rest
  have hmem : ∀ t ∈ (take? (Token.isMark .equal) place').rest, P t :=
    fun t ht => hplace t (hafter.subset ht)
  cases o with
  | none => exact (reads_pure hleft _ hmem).of_suffix hafter
  | some t =>
    have hvalue := (h _ hmem).of_suffix hafter
    apply sound_bind hvalue
    intro value hv
    cases left with
    | «variable» name => exact (sound_ok _ ⟨hleft, hv⟩).of_suffix hvalue.rest
    | _ =>
      exact sound_bind (sound_report hvalue.rest (List.suffix_refl _)) fun _ _ =>
        (sound_ok _ hleft).of_suffix hvalue.rest

theorem reads_expression (bound : Nat) : Reads P (expression bound) (Formed P) := by
  induction bound with
  | zero =>
    rw [expression]
    exact reads_fail (by simp)
  | succ bound ih =>
    rw [expression]
    exact reads_assignment ih bound

/-! ## Statements -/

/-- The trees of statements, with every token in its place. -/
abbrev FormedStmt (P : Token → Prop) (s : Stmt) : Prop := s.Every (Placed P)

theorem reads_expressionStatement {expr : Parser Expr} (h : Reads P expr (Formed P)) :
    Reads P (expressionStatement expr) (FormedStmt P) := by
  apply reads_bind h
  intro e he
  apply reads_bind (reads_expectMark _ _)
  intro _ _
  apply reads_pure
  simpa only [FormedStmt, Stmt.Every] using he

theorem reads_printStatement {expr : Parser Expr} (h : Reads P expr (Formed P)) :
    Reads P (printStatement expr) (FormedStmt P) := by
  apply reads_bind h
  intro e he
  apply reads_bind (reads_expectMark _ _)
  intro _ _
  apply reads_pure
  simpa only [FormedStmt, Stmt.Every] using he

theorem reads_variableDeclaration {expr : Parser Expr} (h : Reads P expr (Formed P)) :
    Reads P (variableDeclaration expr) (FormedStmt P) := by
  apply reads_bind (reads_expect (by simp))
  intro name hname
  have hplaced : Placed P .name name := ⟨hname.1, by simpa [Role.Fits, Role.kinds] using hname.2⟩
  have hend : ∀ initializer : Option Expr, (∀ e ∈ initializer, Formed P e) →
      Reads P (do
        expectMark .semicolon .variableDeclaration
        return .declare name initializer) (FormedStmt P) := by
    intro initializer hi
    apply reads_bind (reads_expectMark _ _)
    intro _ _
    apply reads_pure
    cases initializer with
    | none => simpa only [FormedStmt, Stmt.Every] using hplaced
    | some e => simpa only [FormedStmt, Stmt.Every] using ⟨hplaced, hi e rfl⟩
  apply reads_bind (reads_take? _)
  intro o _
  cases o with
  | none => exact reads_bind (reads_pure (by simp)) hend
  | some _ => exact reads_bind (reads_map h (by simp)) hend

theorem reads_ifStatement {expr : Parser Expr} {stmt : Parser Stmt}
    (he : Reads P expr (Formed P)) (hs : Reads P stmt (FormedStmt P)) :
    Reads P (ifStatement expr stmt) (FormedStmt P) := by
  apply reads_bind (reads_expectMark _ _)
  intro _ _
  apply reads_bind he
  intro condition hc
  apply reads_bind (reads_expectMark _ _)
  intro _ _
  apply reads_bind hs
  intro yes hyes
  apply reads_bind (reads_take? _)
  intro o _
  cases o with
  | none => exact reads_pure ⟨hc, hyes⟩
  | some _ => exact reads_bind hs fun no hno => reads_pure ⟨hc, hyes, hno⟩

theorem reads_whileStatement {expr : Parser Expr} {stmt : Parser Stmt}
    (he : Reads P expr (Formed P)) (hs : Reads P stmt (FormedStmt P)) :
    Reads P (whileStatement expr stmt) (FormedStmt P) := by
  apply reads_bind (reads_expectMark _ _)
  intro _ _
  apply reads_bind he
  intro condition hc
  apply reads_bind (reads_expectMark _ _)
  intro _ _
  exact reads_bind hs fun body hbody => reads_pure ⟨hc, hbody⟩

/-- The loop of a `for` has the tokens of its clauses and its body. -/
theorem every_forLoop {Q : Role → Token → Prop} {initializer : Option Stmt}
    {condition increment : Option Expr} {body : Stmt} (hi : ∀ s ∈ initializer, s.Every Q)
    (hc : ∀ e ∈ condition, e.Every Q) (hn : ∀ e ∈ increment, e.Every Q) (hbody : body.Every Q) :
    (forLoop initializer condition increment body).Every Q := by
  have hcondition : (condition.getD (.literal (.bool true))).Every Q := by
    cases condition with
    | none => trivial
    | some e => exact hc e rfl
  cases initializer <;> cases increment <;>
    simp_all [forLoop, Stmt.Every, Stmt.EveryOf]

theorem reads_forInitializer {expr : Parser Expr} (h : Reads P expr (Formed P)) :
    Reads P (forInitializer expr) fun o => ∀ s ∈ o, FormedStmt P s := by
  apply reads_bind (reads_take? _)
  intro o _
  cases o with
  | some _ => exact reads_pure (by simp)
  | none =>
    apply reads_bind (reads_take? _)
    intro o _
    cases o with
    | some _ => exact reads_map (reads_variableDeclaration h) (by simp)
    | none => exact reads_map (reads_expressionStatement h) (by simp)

theorem reads_forClause {expr : Parser Expr} (h : Reads P expr (Formed P)) (close : Mark) :
    Reads P (forClause close expr) fun o => ∀ e ∈ o, Formed P e := by
  apply reads_bind (reads_isAt close)
  intro b _
  cases b with
  | true => exact reads_pure (by simp)
  | false => exact reads_map h (by simp)

theorem reads_forStatement {expr : Parser Expr} {stmt : Parser Stmt}
    (he : Reads P expr (Formed P)) (hs : Reads P stmt (FormedStmt P)) :
    Reads P (forStatement expr stmt) (FormedStmt P) := by
  apply reads_bind (reads_expectMark _ _)
  intro _ _
  apply reads_bind (reads_forInitializer he)
  intro initializer hi
  apply reads_bind (reads_forClause he _)
  intro condition hc
  apply reads_bind (reads_expectMark _ _)
  intro _ _
  apply reads_bind (reads_forClause he _)
  intro increment hn
  apply reads_bind (reads_expectMark _ _)
  intro _ _
  exact reads_bind hs fun body hbody => reads_pure (every_forLoop hi hc hn hbody)

/-! ## Programs -/

theorem reads_declaration {expr : Parser Expr} {stmt : Parser Stmt}
    (he : Reads P expr (Formed P)) (hs : Reads P stmt (FormedStmt P)) :
    Reads P (declaration expr stmt) (FormedStmt P) := by
  apply reads_bind (reads_take? _)
  intro o _
  cases o with
  | some _ => exact reads_variableDeclaration he
  | none => exact hs

theorem resume_suffix (ts : List Token) : resume ts <:+ ts := by
  cases ts with
  | nil => exact List.suffix_refl _
  | cons t ts => exact (dropUntilStart_suffix t ts).trans (List.suffix_cons t ts)

theorem reads_recover {p : Parser α} (h : Reads P p Q) :
    Reads P (recover p) fun o => ∀ a ∈ o, Q a := by
  intro ts hts
  have hp := h ts hts
  simp only [recover]
  split
  · rename_i a ha
    exact ⟨hp.rest, hp.places, by simp, by simpa using hp.value a ha⟩
  · refine ⟨(resume_suffix _).trans hp.rest, ?_, by simp, by simp⟩
    intro e he
    rcases List.mem_append.mp he with he | he
    · exact hp.places e he
    · exact List.mem_singleton.mp he ▸ hp.rest

theorem reads_declarations {closes : Token → Bool} {one : Parser Stmt}
    (h : Reads P one (FormedStmt P)) (bound : Nat) :
    Reads P (declarations closes one bound) fun stmts => ∀ s ∈ stmts, FormedStmt P s := by
  induction bound with
  | zero => exact reads_pure (by simp)
  | succ bound ih =>
    intro ts hts
    match ts with
    | [] => exact sound_ok [] (by simp)
    | t :: ts =>
      simp only [declarations]
      by_cases hc : closes t = true
      · rw [if_pos hc]
        exact sound_ok _ (by simp)
      · rw [if_neg hc]
        refine reads_bind (reads_recover h) (fun first hfirst => ?_) (t :: ts) hts
        apply reads_bind ih
        intro others hothers
        apply reads_pure
        intro s hs
        rcases List.mem_append.mp hs with hs | hs
        · exact hfirst s (by simpa using hs)
        · exact hothers s hs

theorem reads_block {expr : Parser Expr} {stmt : Parser Stmt} (he : Reads P expr (Formed P))
    (hs : Reads P stmt (FormedStmt P)) (bound : Nat) :
    Reads P (block bound expr stmt) (FormedStmt P) := by
  apply reads_bind (reads_declarations (reads_declaration he hs) bound)
  intro body hbody
  exact reads_bind (reads_expectMark _ _) fun _ _ => reads_pure (Stmt.everyOf_iff.mpr hbody)

theorem reads_statement (bound : Nat) : Reads P (statement bound) (FormedStmt P) := by
  induction bound with
  | zero =>
    rw [statement]
    exact reads_fail (by simp)
  | succ bound ih =>
    intro ts hts
    have he := reads_expression (P := P) (bound + 1)
    match ts with
    | [] => exact reads_expressionStatement he [] hts
    | t :: ts =>
      have hrest : ∀ u ∈ ts, P u := fun u hu => hts u (List.mem_cons_of_mem t hu)
      have hsuffix := List.suffix_cons t ts
      unfold statement
      dsimp only
      split
      · exact (reads_forStatement he ih ts hrest).of_suffix hsuffix
      · exact (reads_ifStatement he ih ts hrest).of_suffix hsuffix
      · exact (reads_printStatement he ts hrest).of_suffix hsuffix
      · exact (reads_whileStatement he ih ts hrest).of_suffix hsuffix
      · exact (reads_block he ih bound ts hrest).of_suffix hsuffix
      · exact reads_expressionStatement he (t :: ts) hts

theorem reads_program (P : Token → Prop) :
    Reads P program fun stmts => ∀ s ∈ stmts, FormedStmt P s := fun ts =>
  reads_declarations (reads_declaration (reads_expression _) (reads_statement _)) _ ts

/-- A program is always read to some list of statements. -/
theorem exists_outcome_program (ts : List Token) : ∃ stmts, (program ts).outcome = .ok stmts :=
  exists_outcome_declarations _ _ _ ts

end Parser

/-- In the statements of a program, each token is one of the tokens parsed and fits its role,
whatever errors there were. -/
theorem Program.statements_every (tokens : List Token) :
    ∀ s ∈ (Program.ofTokens tokens).statements,
      s.Every fun role t => t ∈ tokens ∧ role.Fits t := by
  have hmem : ∀ t ∈ (Cursor.ofTokens tokens).ahead, t ∈ tokens :=
    fun t ht => (List.takeWhile_prefix _).subset ht
  intro s hs
  obtain ⟨stmts, hout⟩ := Parser.exists_outcome_program (Cursor.ofTokens tokens).ahead
  refine (Parser.reads_program _ _ hmem).value stmts hout s ?_
  simpa [Program.ofTokens, hout, Except.toOption] using hs

end Treewalk
