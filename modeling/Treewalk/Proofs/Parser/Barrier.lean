import Treewalk.Proofs.Parser.Ignores

/-!
# A semicolon bars errors

Where the statements before a semicolon are simple ones, however broken, the parser comes to that
semicolon with nothing open: no block that it could close, and no `for` that it belongs to. So what
was read before does not matter for what is behind.

`Closes n semi back p` says this of one parser: it either reads up to behind the semicolon, or gives
up in front of it, and in both cases does as it does where nothing stands behind the semicolon.

* `closes_statement`: statements close, if what stands behind is no `else` that an `if` could take.
* `resume_cases`: recovery from a fault does not go past the semicolon either.
* `Program.semicolon_bars_errors`: so the statements and errors before the semicolon are those that
  there are without the tokens behind it, and those behind it are those of these tokens.
-/

namespace Treewalk

namespace Parser

variable {α β : Type} {n : Nat} {semi : Token} {back : List Token} {p : Parser α}

/-! ## Up to the semicolon -/

/-- A token that is no semicolon, and opens no statement with semicolons inside. -/
structure Simple (t : Token) : Prop where
  not_semicolon : t.kind ≠ .mark .semicolon
  not_for : t.kind ≠ .keyword .kwFor
  not_brace : t.kind ≠ .mark .leftBrace

/-- A reply to `front` and the semicolon. -/
structure Closed (semi : Token) (front : List Token) (r : Reply α) : Prop where
  /-- No error stands at the end. -/
  places : ∀ e ∈ r.errors, e.ahead ≠ []
  failed : ∀ fault, r.outcome = .error fault → ∃ left, left <:+ front ∧ r.rest = left ++ [semi]
  read : ∀ a, r.outcome = .ok a → r.rest = []

def Closes (n : Nat) (semi : Token) (back : List Token) (p : Parser α) : Prop :=
  ∀ front : List Token, front.length < n → (∀ t ∈ front, Simple t) →
    p (front ++ semi :: back) = (p (front ++ [semi])).behind back ∧
      Closed semi front (p (front ++ [semi]))

/-- Something that ends before the semicolon, in front of something that closes. -/
theorem closes_bind (hsemi : semi.kind = .mark .semicolon) {f : α → Parser β}
    (hp : ∀ tail, Barrier tail → Ignores n tail p p) (hf : ∀ a, Closes n semi back (f a)) :
    Closes n semi back (p >>= f) := by
  intro front hfront hsimple
  have hbarrier : ∀ more, Barrier (semi :: more) := fun more t ht => by
    obtain rfl : semi = t := by simpa using ht
    exact hsemi
  have hreply : ∀ more, p (front ++ semi :: more) = (p front).behind (semi :: more) :=
    fun more => (hp _ (hbarrier more) front hfront).1
  have hrest := (hp _ (hbarrier []) front hfront).2
  have hplaces : ∀ e ∈ ((p front).behind [semi]).errors, e.ahead ≠ [] := by
    simp [Reply.behind]
  -- Both replies are the one to `front` alone, with all that stands behind.
  cases hout : (p front).outcome with
  | error fault =>
    have herror : ∀ more, (p >>= f) (front ++ semi :: more) = ⟨.error fault,
        ((p front).behind (semi :: more)).errors, (p front).rest ++ semi :: more⟩ := fun more => by
      rw [bind_of_error (by rw [hreply]; exact hout), hreply]
      rfl
    rw [herror, herror]
    refine ⟨?_, hplaces, fun _ _ => ⟨_, hrest, rfl⟩, by simp⟩
    simp [Reply.behind]
  | ok a =>
    have hok : ∀ more, (p >>= f) (front ++ semi :: more) =
        ⟨(f a ((p front).rest ++ semi :: more)).outcome,
          ((p front).behind (semi :: more)).errors ++
            (f a ((p front).rest ++ semi :: more)).errors,
          (f a ((p front).rest ++ semi :: more)).rest⟩ := fun more => by
      rw [bind_of_ok (by rw [hreply]; exact hout), hreply]
      rfl
    obtain ⟨heq, hclosed⟩ := hf a (p front).rest (Nat.lt_of_le_of_lt hrest.length_le hfront)
      fun t ht => hsimple t (hrest.subset ht)
    rw [hok, hok, heq]
    refine ⟨?_, ?_, ?_, hclosed.read⟩
    · simp [Reply.behind]
    · intro e he
      exact (List.mem_append.mp he).elim (hplaces e) (hclosed.places e)
    · intro fault hfault
      obtain ⟨left, hleft, heq⟩ := hclosed.failed fault hfault
      exact ⟨left, hleft.trans hrest, heq⟩

theorem closes_semicolon (hsemi : semi.kind = .mark .semicolon) (after : Phrase) (a : α) :
    Closes n semi back (expectMark .semicolon after >>= fun _ => pure a) := by
  intro front _ hsimple
  cases front with
  | nil =>
    have hread : ∀ more, (expectMark .semicolon after >>= fun _ => pure a) (semi :: more) =
        ⟨.ok a, [], more⟩ := fun more => by
      simp [expectMark, expect, Token.isMark, hsemi, bind, pure]
    rw [List.nil_append, List.nil_append, hread, hread]
    exact ⟨rfl, by simp, by simp, fun _ _ => rfl⟩
  | cons t front =>
    have hfail : ∀ more, (expectMark .semicolon after >>= fun _ => pure a) (t :: more) =
        ⟨.error (.missing .semicolon after), [], t :: more⟩ := fun more => by
      have ht := (hsimple t List.mem_cons_self).not_semicolon
      simp [expectMark, expect, Token.isMark, ht, bind]
    rw [List.cons_append, List.cons_append, hfail, hfail]
    refine ⟨by simp [Reply.behind], by simp, fun _ _ => ?_, by simp⟩
    exact ⟨t :: front, List.suffix_refl _, rfl⟩

/-- Other marks are taken before the semicolon. -/
theorem closes_expectMark_bind (hsemi : semi.kind = .mark .semicolon) {m : Mark}
    (hm : m ≠ .semicolon) {after : Phrase} {f : Unit → Parser β} (hf : Closes n semi back (f ())) :
    Closes n semi back (expectMark m after >>= f) := by
  apply closes_bind hsemi
  · intro tail htail
    apply ignores_expectMark
    exact htail.not_starts fun t ht => by simp [Token.isMark, ht, hm.symm]
  · exact fun _ => hf

/-- What comes behind the semicolon, and there takes nothing. -/
theorem Closes.bind_end {f : α → Parser β} (hp : Closes n semi back p)
    (hf : ∀ a, ∃ b, f a [] = ⟨.ok b, [], []⟩ ∧ f a back = ⟨.ok b, [], back⟩) :
    Closes n semi back (p >>= f) := by
  intro front hfront hsimple
  obtain ⟨heq, hplaces, hfailed, hread⟩ := hp front hfront hsimple
  cases hout : (p (front ++ [semi])).outcome with
  | error fault =>
    rw [bind_of_error hout, bind_of_error (by rw [heq]; exact hout), heq]
    exact ⟨rfl, hplaces, fun _ _ => hfailed fault hout, by simp⟩
  | ok a =>
    obtain ⟨b, hend, hback⟩ := hf a
    have hrest := hread a hout
    have hrest' : (p (front ++ semi :: back)).rest = back := by
      rw [heq]
      simp [Reply.behind, hrest]
    rw [bind_of_ok hout, bind_of_ok (by rw [heq]; exact hout), hrest, hrest', hend, hback, heq]
    exact ⟨by simp [Reply.behind], by simpa using hplaces, by simp, fun _ _ => rfl⟩

theorem closes_take?_bind {wanted : Token → Bool} (hw : wanted semi = false)
    {f : Option Token → Parser β} (hnone : Closes n semi back (f none))
    (hsome : ∀ t, Simple t → wanted t = true → Closes (n - 1) semi back (f (some t))) :
    Closes n semi back (take? wanted >>= f) := by
  intro front hfront hsimple
  by_cases hstart : Starts wanted front
  · obtain ⟨t, ht, hwanted⟩ := hstart
    obtain ⟨front, rfl⟩ := List.head?_eq_some_iff.mp ht
    rw [List.cons_append, List.cons_append, take?_bind_of_starts hwanted,
      take?_bind_of_starts hwanted]
    obtain ⟨heq, hclosed⟩ := hsome t (hsimple t List.mem_cons_self) hwanted front
      (Nat.lt_sub_of_add_lt hfront) fun u hu => hsimple u (List.mem_cons_of_mem t hu)
    refine ⟨heq, hclosed.places, fun fault h => ?_, hclosed.read⟩
    obtain ⟨left, hleft, hrest⟩ := hclosed.failed fault h
    exact ⟨left, hleft.trans (List.suffix_cons t front), hrest⟩
  · have hstop : ∀ more, ¬ Starts wanted (front ++ semi :: more) := fun more => by
      cases front with
      | nil => simp [hw]
      | cons t front => simpa using hstart
    rw [take?_bind_of_not_starts (hstop _), take?_bind_of_not_starts (hstop _)]
    exact hnone front hfront hsimple

/-! ## Statements -/

section

variable {expr : Parser Expr} {stmt : Parser Stmt} (hsemi : semi.kind = .mark .semicolon)
  (he : ∀ tail, Barrier tail → Ignores n tail expr expr)

include hsemi he

theorem closes_expressionStatement : Closes n semi back (expressionStatement expr) :=
  closes_bind hsemi he fun e => closes_semicolon hsemi _ (Stmt.expression e)

theorem closes_printStatement : Closes n semi back (printStatement expr) :=
  closes_bind hsemi he fun e => closes_semicolon hsemi _ (Stmt.print e)

theorem closes_variableDeclaration : Closes n semi back (variableDeclaration expr) := by
  apply closes_bind hsemi
  · exact fun tail htail => ignores_expect (htail.not_starts fun t ht => by simp [ht])
  intro name
  have hend : ∀ (m : Nat) (initializer : Option Expr), Closes m semi back (do
      expectMark .semicolon .variableDeclaration
      return Stmt.declare name initializer) :=
    fun m initializer => closes_semicolon hsemi _ _
  apply closes_take?_bind
  · simp [Token.isMark, hsemi]
  · exact closes_bind hsemi (fun _ _ => ignores_pure none) (hend n)
  · intro equal _ _
    exact closes_bind hsemi (fun tail htail => ((he tail htail).mono (Nat.sub_le n 1)).map some)
      (hend _)

theorem closes_ifStatement (hback : ¬ Starts (Token.isKeyword .kwElse) back)
    (hs : Closes n semi back stmt) : Closes n semi back (ifStatement expr stmt) := by
  apply closes_expectMark_bind hsemi (by simp)
  apply closes_bind hsemi he
  intro condition
  apply closes_expectMark_bind hsemi (by simp)
  apply hs.bind_end
  intro yes
  refine ⟨.ifThen condition yes, ?_, ?_⟩
  · rw [take?_bind_of_not_starts (not_starts_nil _)]
    rfl
  · rw [take?_bind_of_not_starts hback]
    rfl

theorem closes_whileStatement (hs : Closes n semi back stmt) :
    Closes n semi back (whileStatement expr stmt) := by
  apply closes_expectMark_bind hsemi (by simp)
  apply closes_bind hsemi he
  intro condition
  apply closes_expectMark_bind hsemi (by simp)
  exact hs.bind_end fun body => ⟨.loop condition body, rfl, rfl⟩

theorem closes_declaration (hs : Closes n semi back stmt) :
    Closes n semi back (declaration expr stmt) := by
  apply closes_take?_bind
  · simp [Token.isKeyword, hsemi]
  · exact hs
  · intro keyword _ _
    exact closes_variableDeclaration hsemi fun tail htail => (he tail htail).mono (Nat.sub_le n 1)

end

theorem closes_statement (hsemi : semi.kind = .mark .semicolon)
    (hback : ¬ Starts (Token.isKeyword .kwElse) back) (bound : Nat) :
    Closes bound semi back (statement bound) := by
  induction bound with
  | zero => exact fun _ hfront => absurd hfront (Nat.not_lt_zero _)
  | succ bound ih =>
    have he : ∀ tail, Barrier tail →
        Ignores (bound + 1) tail (expression (bound + 1)) (expression (bound + 1)) :=
      fun tail htail => ignores_expression htail (Nat.le_refl _) (Nat.le_refl _)
    have he' : ∀ tail, Barrier tail →
        Ignores bound tail (expression (bound + 1)) (expression (bound + 1)) :=
      fun tail htail => (he tail htail).mono (Nat.le_succ bound)
    rw [statement_succ]
    apply closes_take?_bind
    · simp [opensCompound, hsemi]
    · exact closes_expressionStatement hsemi he
    · intro t hsimple hopens
      change Closes bound semi back (compoundBehind bound _ _ t)
      unfold compoundBehind
      split
      case h_1 hk => exact absurd hk hsimple.not_for
      case h_2 => exact closes_ifStatement hsemi he' hback ih
      case h_3 => exact closes_printStatement hsemi he'
      case h_4 => exact closes_whileStatement hsemi he' ih
      case h_5 hfor hif hprint hwhile =>
        unfold opensCompound at hopens
        split at hopens <;> simp_all [hsimple.not_brace]

/-! ## Recovery -/

/-- Tokens are dropped up to one in front of the semicolon, or up to behind it. -/
theorem dropUntilStart_cases (hsemi : semi.kind = .mark .semicolon) {last : Token}
    (hlast : last.kind ≠ .mark .semicolon) {front : List Token} (hsimple : ∀ t ∈ front, Simple t) :
    (∃ left, left <:+ front ∧ ∀ more,
      dropUntilStart last (front ++ semi :: more) = left ++ semi :: more) ∨
    ∀ more, dropUntilStart last (front ++ semi :: more) = more := by
  induction front generalizing last with
  | nil =>
    refine .inr fun more => ?_
    have hbehind : dropUntilStart semi more = more := by
      cases more <;> simp [dropUntilStart, Token.isMark, hsemi]
    simpa [dropUntilStart, Token.isMark, hlast, Token.startsStatement, hsemi] using hbehind
  | cons t front ih =>
    by_cases hstart : t.startsStatement = true
    · refine .inl ⟨t :: front, List.suffix_refl _, fun more => ?_⟩
      rw [List.cons_append, dropUntilStart, hstart, Bool.or_true, if_pos rfl]
    · have hdrop : ∀ more, dropUntilStart last (t :: front ++ semi :: more) =
          dropUntilStart t (front ++ semi :: more) := fun more => by
        simp [dropUntilStart, Token.isMark, hlast, hstart]
      rcases ih (hsimple t List.mem_cons_self).not_semicolon
        fun u hu => hsimple u (List.mem_cons_of_mem t hu) with ⟨left, hleft, heq⟩ | heq
      · exact .inl ⟨left, hleft.trans (List.suffix_cons t front),
          fun more => (hdrop more).trans (heq more)⟩
      · exact .inr fun more => (hdrop more).trans (heq more)

theorem resume_cases (hsemi : semi.kind = .mark .semicolon) {front : List Token}
    (hsimple : ∀ t ∈ front, Simple t) :
    (∃ left, left <:+ front ∧ left.length < front.length ∧
      ∀ more, resume (front ++ semi :: more) = left ++ semi :: more) ∨
    ∀ more, resume (front ++ semi :: more) = more := by
  cases front with
  | nil =>
    refine .inr fun more => ?_
    cases more <;> simp [resume, dropUntilStart, Token.isMark, hsemi]
  | cons t front =>
    rcases dropUntilStart_cases hsemi (hsimple t List.mem_cons_self).not_semicolon
      fun u hu => hsimple u (List.mem_cons_of_mem t hu) with ⟨left, hleft, heq⟩ | heq
    · exact .inl ⟨left, hleft.trans (List.suffix_cons t front), Nat.lt_succ_of_le hleft.length_le,
        heq⟩
    · exact .inr heq

/-- One declaration, or the recovery from it. -/
theorem Closes.recover_cases (h : Closes n semi back p) (hsemi : semi.kind = .mark .semicolon)
    {front : List Token} (hfront : front.length < n) (hsimple : ∀ t ∈ front, Simple t) :
    ∃ left : List Token,
      recover p (front ++ semi :: back) = (recover p (front ++ [semi])).behind back ∧
      (∀ e ∈ (recover p (front ++ [semi])).errors, e.ahead ≠ []) ∧
      ((recover p (front ++ [semi])).rest = [] ∨
        (recover p (front ++ [semi])).rest = left ++ [semi] ∧ left <:+ front ∧
          left.length < front.length) := by
  obtain ⟨heq, hplaces, hfailed, hread⟩ := h front hfront hsimple
  cases hout : (p (front ++ [semi])).outcome with
  | ok a =>
    have hrecover : recover p (front ++ [semi]) =
        ⟨.ok (some a), (p (front ++ [semi])).errors, (p (front ++ [semi])).rest⟩ := by
      simp only [recover, hout]
    refine ⟨[], ?_, ?_, .inl ?_⟩
    · rw [hrecover]
      simp only [recover, heq, Reply.behind, hout]
    · rw [hrecover]
      exact hplaces
    · rw [hrecover]
      exact hread a hout
  | error fault =>
    obtain ⟨place, hplace, hrest⟩ := hfailed fault hout
    have hrecover : recover p (front ++ [semi]) =
        ⟨.ok none, (p (front ++ [semi])).errors ++ [⟨fault, place ++ [semi]⟩],
          resume (place ++ [semi])⟩ := by
      simp only [recover, hout, hrest]
    have hrecover' : recover p (front ++ semi :: back) =
        ⟨.ok none, ((p (front ++ [semi])).behind back).errors ++ [⟨fault, place ++ semi :: back⟩],
          resume (place ++ semi :: back)⟩ := by
      simp [recover, heq, Reply.behind, hout, hrest]
    have hnonempty : ∀ e ∈ (recover p (front ++ [semi])).errors, e.ahead ≠ [] := by
      rw [hrecover]
      intro e he
      rcases List.mem_append.mp he with he | he
      · exact hplaces e he
      · simp [List.mem_singleton.mp he]
    rcases resume_cases hsemi fun t ht => hsimple t (hplace.subset ht) with
      ⟨left, hleft, hlength, hresume⟩ | hresume
    · refine ⟨left, ?_, hnonempty, .inr ⟨?_, hleft.trans hplace, ?_⟩⟩
      · rw [hrecover, hrecover', hresume, hresume]
        simp [Reply.behind]
      · rw [hrecover]
        exact hresume []
      · exact Nat.lt_of_lt_of_le hlength hplace.length_le
    · refine ⟨[], ?_, hnonempty, .inl ?_⟩
      · rw [hrecover, hrecover', hresume, hresume]
        simp [Reply.behind]
      · rw [hrecover]
        exact hresume []

/-! ## Programs -/

/-- A round of a list of declarations that nothing closes. -/
theorem declarations_round {one : Parser Stmt} {ts : List Token} (hts : ts ≠ []) (rounds : Nat)
    {o : Option Stmt} (ho : (recover one ts).outcome = .ok o) {others : List Stmt}
    (hothers : (declarations (fun _ => false) one rounds (recover one ts).rest).outcome =
      .ok others) :
    declarations (fun _ => false) one (rounds + 1) ts =
      ⟨.ok (o.toList ++ others), (recover one ts).errors ++
        (declarations (fun _ => false) one rounds (recover one ts).rest).errors,
        (declarations (fun _ => false) one rounds (recover one ts).rest).rest⟩ := by
  obtain ⟨t, ts, rfl⟩ := List.exists_cons_of_ne_nil hts
  exact declarations_cons_of_ok rfl rounds ho hothers

/-- The reply `r` to all tokens is the reply to a first part and then the one to `back`. -/
structure Joined (back : List Token) (first later r : Reply (List Stmt)) : Prop where
  outcome : ∃ stmts others, first.outcome = .ok stmts ∧ later.outcome = .ok others ∧
    r.outcome = .ok (stmts ++ others)
  errors : r.errors = (first.behind back).errors ++ later.errors
  /-- No error of the first part stands at its end. -/
  places : ∀ e ∈ first.errors, e.ahead ≠ []

/-- The declarations up to the semicolon, and then those behind it, for which enough rounds are
left. -/
theorem Closes.exists_joined {one : Parser Stmt} (h : Closes n semi back one)
    (hsemi : semi.kind = .mark .semicolon) {front : List Token} (hfront : front.length < n)
    (hsimple : ∀ t ∈ front, Simple t) {rounds : Nat} (hrounds : front.length < rounds)
    (more : Nat) :
    ∃ left, more ≤ left ∧
      Joined back (declarations (fun _ => false) one rounds (front ++ [semi]))
        (declarations (fun _ => false) one left back)
        (declarations (fun _ => false) one (rounds + more) (front ++ semi :: back)) := by
  induction rounds generalizing front with
  | zero => exact absurd hrounds (Nat.not_lt_zero _)
  | succ rounds ih =>
    obtain ⟨place, heq, hplaces, hrest⟩ := h.recover_cases hsemi hfront hsimple
    obtain ⟨o, ho⟩ := exists_outcome_recover one (front ++ [semi])
    have ho' : (recover one (front ++ semi :: back)).outcome = .ok o := by
      rw [heq]
      exact ho
    have hne : front ++ [semi] ≠ [] := by simp
    have hne' : front ++ semi :: back ≠ [] := by simp
    rw [Nat.add_right_comm rounds 1 more]
    rcases hrest with hrest | ⟨hrest, hplace, hlength⟩
    · -- The semicolon is passed, and all other rounds are for what is behind it.
      have hrest' : (recover one (front ++ semi :: back)).rest = back := by
        simp [heq, Reply.behind, hrest]
      have hend : declarations (fun _ => false) one rounds (recover one (front ++ [semi])).rest =
          ⟨.ok [], [], []⟩ := by
        rw [hrest]
        cases rounds <;> rfl
      obtain ⟨others, hothers⟩ := exists_outcome_declarations (fun _ => false) one (rounds + more)
        (recover one (front ++ semi :: back)).rest
      rw [declarations_round hne rounds ho (congrArg Reply.outcome hend),
        declarations_round hne' _ ho' hothers]
      rw [hrest'] at hothers ⊢
      refine ⟨rounds + more, Nat.le_add_left _ _, ⟨_, others, rfl, hothers, by simp⟩, ?_, ?_⟩
      · simp [heq, hend, Reply.behind]
      · simpa [hend] using hplaces
    · -- Recovery has stopped in front of the semicolon, where fewer tokens are left.
      have hrest' : (recover one (front ++ semi :: back)).rest = place ++ semi :: back := by
        simp [heq, Reply.behind, hrest]
      obtain ⟨left, hleft, ⟨stmts, others, hstmts, hothers, hboth⟩, herrors, hplaces'⟩ :=
        ih (Nat.lt_trans hlength hfront) (fun t ht => hsimple t (hplace.subset ht))
          (Nat.lt_of_lt_of_le hlength (Nat.le_of_lt_succ hrounds))
      rw [← hrest] at hstmts hplaces' herrors
      rw [← hrest'] at hboth herrors
      rw [declarations_round hne rounds ho hstmts, declarations_round hne' _ ho' hboth]
      refine ⟨left, hleft, ⟨_, others, rfl, hothers, by simp⟩, ?_, ?_⟩
      · rw [herrors]
        simp [heq, Reply.behind]
      · intro e he
        exact (List.mem_append.mp he).elim (hplaces e) (hplaces' e)

theorem joined_program (hsemi : semi.kind = .mark .semicolon)
    (hback : ¬ Starts (Token.isKeyword .kwElse) back) {front : List Token}
    (hsimple : ∀ t ∈ front, Simple t) :
    Joined back (program (front ++ [semi])) (program back) (program (front ++ semi :: back)) := by
  obtain ⟨bound, hbound⟩ : ∃ bound, (front ++ semi :: back).length < bound :=
    ⟨_, Nat.lt_succ_self _⟩
  have hlength : (front ++ semi :: back).length = front.length + back.length + 1 := by
    simp
    omega
  have hone : Closes bound semi back (declaration (expression bound) (statement bound)) :=
    closes_declaration hsemi
      (fun tail htail => ignores_expression htail (Nat.le_refl _) (Nat.le_refl _))
      (closes_statement hsemi hback bound)
  have hfront : front.length < bound := by omega
  have hrounds : front.length < front.length + 2 := by omega
  obtain ⟨left, hleft, h⟩ :=
    hone.exists_joined hsemi hfront hsimple hrounds (back.length + 1)
  have hfirst : (front ++ [semi]).length = front.length + 1 := List.length_append
  rw [declarations_eq_program (by omega) (by omega), declarations_eq_program (by omega) hleft,
    declarations_eq_program hbound (by omega)] at h
  exact h

end Parser

/-- Tokens in front of others do not matter for where the list is closed. -/
theorem Cursor.stop_append {ts us : List Token} (hts : ∀ t ∈ ts, t.kind ≠ .eof) (hus : us ≠ []) :
    (Cursor.ofTokens (ts ++ us)).stop = (Cursor.ofTokens us).stop := by
  have hnone : ts.find? Token.isEof = none :=
    List.find?_eq_none.mpr fun t ht => by simpa [Token.isEof] using hts t ht
  have hlast : Cursor.lastLine (ts ++ us) = Cursor.lastLine us := by
    rw [Cursor.lastLine, Cursor.lastLine, List.getLast?_append, List.getLast?_eq_some_getLast hus,
      Option.some_or]
  simp only [Cursor.ofTokens, List.find?_append, hnone, Option.none_or, hlast]

namespace Program

open Treewalk.Parser

theorem statements_of_outcome {tokens : List Token} {stmts : List Stmt}
    (h : (program (tokens.takeWhile (!·.isEof))).outcome = .ok stmts) :
    (ofTokens tokens).statements = stmts := by
  simp [ofTokens, Cursor.ofTokens, h, Except.toOption]

/-- Errors in front of a semicolon do not reach behind it. Where the tokens before it are no
semicolons and neither open a `for` nor a block, and those behind it do not begin with an `else`,
the statements and the errors are those of the part up to the semicolon, and then those of the part
behind it. -/
theorem semicolon_bars_errors {front back : List Token} {semi : Token}
    (hsemi : semi.kind = .mark .semicolon) (hsimple : ∀ t ∈ front, Simple t)
    (hfront : ∀ t ∈ front, t.kind ≠ .eof) (hback : ¬ Starts (Token.isKeyword .kwElse) back) :
    (ofTokens ((front ++ [semi]) ++ back)).statements =
        (ofTokens (front ++ [semi])).statements ++ (ofTokens back).statements ∧
      (ofTokens ((front ++ [semi]) ++ back)).errors =
        (ofTokens (front ++ [semi])).errors ++ (ofTokens back).errors := by
  have hclosed : ∀ t ∈ front ++ [semi], t.kind ≠ .eof := by
    intro t ht
    rcases List.mem_append.mp ht with ht | ht
    · exact hfront t ht
    · simp [List.mem_singleton.mp ht, hsemi]
  have hopen : ∀ t ∈ front ++ [semi], (!t.isEof) = true :=
    fun t ht => by simpa [Token.isEof] using hclosed t ht
  have htake : ∀ more : List Token, ((front ++ [semi]) ++ more).takeWhile (!·.isEof) =
      front ++ semi :: more.takeWhile (!·.isEof) := fun more => by
    rw [List.takeWhile_append_of_pos hopen, List.append_assoc]
    rfl
  have hfirst : (front ++ [semi]).takeWhile (!·.isEof) = front ++ [semi] := by
    simpa using htake []
  have helse : ¬ Starts (Token.isKeyword .kwElse) (back.takeWhile (!·.isEof)) := by
    cases back with
    | nil => exact hback
    | cons t back =>
      rw [List.takeWhile_cons]
      split
      · simpa using hback
      · exact not_starts_nil _
  obtain ⟨⟨stmts, others, hstmts, hothers, hboth⟩, herrors, hplaces⟩ :=
    joined_program hsemi helse hsimple
  constructor
  · rw [statements_of_outcome (htake back ▸ hboth), statements_of_outcome (hfirst.symm ▸ hstmts),
      statements_of_outcome hothers]
  · let stop := fun tokens : List Token => (Cursor.ofTokens tokens).stop
    have hplaced : ∀ tokens : List Token, (ofTokens tokens).errors =
        (program (tokens.takeWhile (!·.isEof))).errors.map fun e =>
          (e.fault, e.token (stop tokens)) := fun _ => rfl
    rw [hplaced, hplaced (front ++ [semi]), hplaced back, htake, hfirst, herrors, List.map_append]
    congr 1
    · rw [Reply.behind, List.map_map]
      apply List.map_congr_left
      intro e he
      obtain ⟨t, ts, ht⟩ := List.exists_cons_of_ne_nil (hplaces e he)
      simp [SyntaxError.token, ht]
    · cases back with
      | nil => rfl
      | cons t back =>
        have hstop : stop ((front ++ [semi]) ++ t :: back) = stop (t :: back) :=
          Cursor.stop_append hclosed (by simp)
        rw [hstop]

/-- Behind `print ) ;`, an assignment to nothing is still found. -/
theorem errors_on_both_sides :
    let closing : Token := ⟨.mark .rightParen, ")", 1⟩
    let semicolon : Token := ⟨.mark .semicolon, ";", 1⟩
    let equal : Token := ⟨.mark .equal, "=", 2⟩
    let broken : List Token := [⟨.keyword .kwPrint, "print", 1⟩, closing]
    let behind : List Token :=
      [⟨.keyword .kwNil, "nil", 2⟩, equal, ⟨.identifier, "b", 2⟩, semicolon]
    (ofTokens ((broken ++ [semicolon]) ++ behind)).statements = (ofTokens behind).statements ∧
      (ofTokens ((broken ++ [semicolon]) ++ behind)).errors =
        [(.missingExpression, closing), (.invalidTarget, equal)] := by
  intro closing semicolon equal broken behind
  have hsimple : ∀ t ∈ broken, Simple t := by
    intro t ht
    obtain rfl | rfl : t = ⟨.keyword .kwPrint, "print", 1⟩ ∨ t = closing := by
      simpa [broken] using ht
    · exact ⟨by decide, by decide, by decide⟩
    · exact ⟨by decide, by decide, by decide⟩
  have hnone : (ofTokens (broken ++ [semicolon])).statements.length = 0 := by decide +kernel
  have herrors : (ofTokens (broken ++ [semicolon])).errors = [(.missingExpression, closing)] := by
    decide +kernel
  have herrors' : (ofTokens behind).errors = [(.invalidTarget, equal)] := by decide +kernel
  have hbars := semicolon_bars_errors (show semicolon.kind = _ from rfl) hsimple (by decide)
    (show ¬ Starts (Token.isKeyword .kwElse) behind by simp [behind, Token.isKeyword])
  constructor
  · rw [hbars.1, List.eq_nil_of_length_eq_zero hnone, List.nil_append]
  · simp only [hbars.2, herrors, herrors', List.cons_append, List.nil_append]

end Program

end Treewalk
