import Mathlib
import Treewalk.Proofs.Session.Effect

/-!
# Where errors stand

Every diagnostic of a source leads back to something in this source. A lexical error has a line of
it, a syntax error one of its tokens, and a run-time error a token that the parser has put in the
place in the tree that the message speaks of (`Diagnostic.StandsIn`). The session may have run other
sources before, with other texts and more lines: what they have defined decides whether there is an
error, and never where it stands.

`Stmt.placesOf` lists the tokens in a tree with their roles. It is the strongest relation of which
`Stmt.Every` holds (`Stmt.everyOf_iff_places`), so a stop that arises from it has a place in the
tree (`standsIn_of_interpret`). The lines are in range since each is counted by some of the newlines
of the source.

The main statement is `Session.reports_stand_in_source`.
-/

namespace Treewalk

/-! ## The places in a tree -/

section

variable {P : Role → Token → Prop}

namespace Expr

/-- The tokens of an expression with their roles, in the order of the text. -/
def places : Expr → List (Role × Token)
  | assign name value => (.name, name) :: value.places
  | binary left operator right => left.places ++ (.operator .binary, operator) :: right.places
  | grouping inner => inner.places
  | literal _ => []
  | logical left operator right => left.places ++ (.operator .logical, operator) :: right.places
  | unary operator operand => (.operator .unary, operator) :: operand.places
  | .variable name => [(.name, name)]

theorem every_iff_places {e : Expr} : e.Every P ↔ ∀ p ∈ e.places, P p.1 p.2 := by
  induction e with
  | literal => simp [Every, places]
  | grouping _ ih => exact ih
  | «variable» => simp [Every, places]
  | assign _ _ ih | unary _ _ ih => rw [Every, places, List.forall_mem_cons, ih]
  | binary _ _ _ ihLeft ihRight | logical _ _ _ ihLeft ihRight =>
    rw [Every, places, List.forall_mem_append, List.forall_mem_cons, ihLeft, ihRight, and_left_comm]

end Expr

namespace Stmt

mutual

/-- The tokens of a statement with their roles. -/
def places : Stmt → List (Role × Token)
  | block body => placesOf body
  | expression e | print e => e.places
  | ifThen condition yes => condition.places ++ yes.places
  | ifThenElse condition yes no => condition.places ++ (yes.places ++ no.places)
  | declare name none => [(.name, name)]
  | declare name (some e) => (.name, name) :: e.places
  | loop condition body => condition.places ++ body.places

def placesOf : List Stmt → List (Role × Token)
  | [] => []
  | s :: rest => s.places ++ placesOf rest

end

mutual

theorem every_iff_places : ∀ {s : Stmt}, s.Every P ↔ ∀ p ∈ s.places, P p.1 p.2
  | .block _ => by rw [Every, places, everyOf_iff_places]
  | .expression _ => by rw [Every, places, Expr.every_iff_places]
  | .print _ => by rw [Every, places, Expr.every_iff_places]
  | .ifThen _ _ | .loop _ _ => by
    rw [Every, places, List.forall_mem_append, Expr.every_iff_places, every_iff_places]
  | .ifThenElse _ _ _ => by
    rw [Every, places, List.forall_mem_append, List.forall_mem_append, Expr.every_iff_places,
      every_iff_places, every_iff_places]
  | .declare _ none => by simp [Every, places]
  | .declare _ (some _) => by rw [Every, places, List.forall_mem_cons, Expr.every_iff_places]

theorem everyOf_iff_places :
    ∀ {stmts : List Stmt}, EveryOf P stmts ↔ ∀ p ∈ placesOf stmts, P p.1 p.2
  | [] => by simp [EveryOf, placesOf]
  | _ :: _ => by
    rw [EveryOf, placesOf, List.forall_mem_append, every_iff_places, everyOf_iff_places]

end

end Stmt

end

/-! ## Run-time errors -/

/-- The token of a run-time error is one of the source, and stands where the message says: a name
that has no value, or the operator to which the operands do not fit. There are no other messages. -/
structure RuntimeError.StandsIn (source : String) (e : RuntimeError) : Prop where
  mem : e.token ∈ (scan source).tokens
  name : ∀ x, e.message = "Undefined variable '" ++ x ++ "'." →
    e.token.kind = .identifier ∧ e.token.lexeme = x ∧
      (.name, e.token) ∈ Stmt.placesOf (statementsOf source)
  operand : e.message = "Operand must be a number." →
    e.token.kind = .mark .minus ∧
      (.operator .unary, e.token) ∈ Stmt.placesOf (statementsOf source)
  operands : e.message = "Operands must be numbers." →
    e.token.kind ∈ [.mark .minus, .mark .star, .mark .slash, .mark .less, .mark .lessEqual,
        .mark .greater, .mark .greaterEqual] ∧
      (.operator .binary, e.token) ∈ Stmt.placesOf (statementsOf source)
  summands : e.message = "Operands must be two numbers or at least one string." →
    e.token.kind = .mark .plus ∧
      (.operator .binary, e.token) ∈ Stmt.placesOf (statementsOf source)
  message : (∃ x, e.message = "Undefined variable '" ++ x ++ "'.") ∨
    e.message = "Operand must be a number." ∨ e.message = "Operands must be numbers." ∨
    e.message = "Operands must be two numbers or at least one string."

namespace RuntimeError

theorem undefined_injective {x y : String}
    (h : "Undefined variable '" ++ x ++ "'." = "Undefined variable '" ++ y ++ "'.") : x = y := by
  have hlist := congrArg String.toList h
  simp only [String.toList_append, List.append_assoc] at hlist
  exact String.toList_inj.mp (List.append_cancel_right (List.append_cancel_left hlist))

/-- No name makes of this message the message of another fault. -/
theorem head?_message (e : RuntimeError) :
    e.message.toList.head? = some (if e.fault = .undefinedVariable then 'U' else 'O') := by
  obtain ⟨fault, t⟩ := e
  cases fault <;> simp [message, String.toList_append]

theorem fault_eq_of_message_eq {e e' : RuntimeError} (h : e.message = e'.message) :
    e.fault = e'.fault := by
  have hhead : (if e.fault = .undefinedVariable then 'U' else 'O') =
      if e'.fault = .undefinedVariable then 'U' else 'O' := by
    rw [← Option.some_inj, ← head?_message, ← head?_message, h]
  obtain ⟨fault, t⟩ := e
  obtain ⟨fault', t'⟩ := e'
  cases fault <;> cases fault' <;> simp_all [message]

end RuntimeError

theorem standsIn_of_interpret {source : String} {fuel : Nat} {m m' : Machine} {e : RuntimeError}
    (hrun : interpret fuel (statementsOf source) m = (.error (.error e), m')) :
    e.StandsIn source := by
  -- What holds of every token in the statements, and which tokens these are.
  have hevery : ∀ s ∈ statementsOf source, s.Every fun role t =>
      t ∈ (scan source).tokens ∧ role.Fits t ∧
        (role, t) ∈ Stmt.placesOf (statementsOf source) := by
    refine Stmt.everyOf_iff.mp (Stmt.everyOf_iff_places.mpr fun p hp => ?_)
    have hfits := Stmt.everyOf_iff_places.mp
      (Stmt.everyOf_iff.mpr (statementsOf_every source)) p hp
    exact ⟨hfits.1, hfits.2, hp⟩
  obtain ⟨⟨hmem, hfits, hplace⟩, hraised⟩ := stopsOnly_interpret hevery fuel m
    (.error e) (by rw [hrun])
  have hfault : ∀ fault t, e.message = RuntimeError.message ⟨fault, t⟩ → e.fault = fault :=
    fun _ _ h => RuntimeError.fault_eq_of_message_eq h
  refine ⟨hmem, fun x h => ?_, fun h => ?_, fun h => ?_, fun h => ?_, ?_⟩
  · have hname := hfault .undefinedVariable ⟨.identifier, x, 0⟩ h
    rw [hname] at hfits hplace
    rw [RuntimeError.message, hname] at h
    exact ⟨List.mem_singleton.mp hfits, RuntimeError.undefined_injective h, hplace⟩
  · rw [hfault .operandNotNumber e.token h] at hplace hraised
    exact ⟨hraised, hplace⟩
  · rw [hfault .operandsNotNumbers e.token h] at hplace hraised
    exact ⟨hraised, hplace⟩
  · rw [hfault .operandsNotSummable e.token h] at hplace hraised
    exact ⟨hraised, hplace⟩
  · rw [RuntimeError.message]
    cases e.fault with
    | undefinedVariable => exact .inl ⟨_, rfl⟩
    | operandNotNumber => exact .inr (.inl rfl)
    | operandsNotNumbers => exact .inr (.inr (.inl rfl))
    | operandsNotSummable => exact .inr (.inr (.inr rfl))

/-! ## Diagnostics -/

namespace Diagnostic

def line : Diagnostic → UInt32
  | source line _ _ | runtime line _ => line

/-- What a diagnostic of a source refers to. A lexical error has no more than its line. A syntax
error has the line of a token and the text of that, unless it is the closing one. -/
inductive StandsIn (source : String) : Diagnostic → Prop
  | lexical {e : LexicalError} (h : e ∈ (scan source).errors) :
      StandsIn source (.source e.line "" e.fault.message)
  | atToken {t : Token} (ht : t ∈ (scan source).tokens) (fault : SyntaxFault) :
      StandsIn source (.source t.line
        (if t.kind = .eof then "at end" else "at '" ++ t.lexeme ++ "'") fault.message)
  | atRuntime {e : RuntimeError} (h : e.StandsIn source) :
      StandsIn source (.runtime e.token.line e.message)

end Diagnostic

section

variable {source : String}

/-- The errors of a parse stand at tokens that were parsed: the closing one, or one ahead of it. -/
theorem mem_tokens_of_error {fault : SyntaxFault} {t : Token}
    (h : (fault, t) ∈ (Program.ofTokens (scan source).tokens).errors) :
    t ∈ (scan source).tokens := by
  obtain ⟨e, he, heq⟩ := List.mem_map.mp h
  obtain rfl : e.token (Cursor.ofTokens (scan source).tokens).stop = t := congrArg Prod.snd heq
  have hahead := (Parser.reads_program (fun _ => True) _ fun _ _ => trivial).places e he
  cases hnext : e.ahead with
  | nil =>
    -- Nothing is ahead, so the error stands at the closing token that the scan ends with.
    rw [SyntaxError.token, hnext]
    change (Cursor.ofTokens (scan source).tokens).stop ∈ _
    rw [Cursor.ofTokens]
    cases hfind : (scan source).tokens.find? Token.isEof with
    | none =>
      have heof := List.find?_eq_none.mp hfind (Token.eof (lineAfter 1 source.toList))
        (by rw [tokens_scan]; simp)
      exact absurd rfl heof
    | some stop => exact List.mem_of_find?_eq_some hfind
  | cons next rest =>
    rw [SyntaxError.token, hnext]
    exact (List.takeWhile_prefix _).subset (hahead.subset (by simp [hnext]))

theorem standsIn_of_mem_faultsOf {d : Diagnostic} (h : d ∈ faultsOf source) :
    d.StandsIn source := by
  rcases List.mem_append.mp h with h | h
  · obtain ⟨e, he, rfl⟩ := List.mem_map.mp h
    exact .lexical he
  · obtain ⟨⟨fault, t⟩, ht, rfl⟩ := List.mem_map.mp h
    have hstands := Diagnostic.StandsIn.atToken (mem_tokens_of_error ht) fault
    simpa [Diagnostic.ofSyntaxFault, Token.location, Token.isEof] using hstands

/-! ## Lines -/

/-- A line that is counted by some of the newlines of a source is one of its lines. -/
theorem toNat_line_of_le {line : UInt32} {newlines : Nat} (h : newlines < UInt32.size - 1)
    (hline : ∃ n ≤ newlines, line = 1 + UInt32.ofNat n) :
    1 ≤ line.toNat ∧ line.toNat ≤ 1 + newlines := by
  obtain ⟨n, hn, rfl⟩ := hline
  simp only [UInt32.toNat_add, UInt32.toNat_ofNat', UInt32.reduceToNat, UInt32.size] at h ⊢
  omega

theorem exists_line_eq_of_mem_tokens {t : Token} (ht : t ∈ (scan source).tokens) :
    ∃ n ≤ source.toList.count '\n', t.line = 1 + UInt32.ofNat n := by
  rw [tokens_scan] at ht
  rcases List.mem_append.mp ht with ht | ht
  · exact exists_line_eq ht
  · rw [List.mem_singleton.mp ht]
    exact ⟨_, Nat.le_refl _, rfl⟩

theorem Diagnostic.StandsIn.line_mem {d : Diagnostic} (h : d.StandsIn source)
    (hlines : source.toList.count '\n' < UInt32.size - 1) :
    1 ≤ d.line.toNat ∧ d.line.toNat ≤ 1 + source.toList.count '\n' := by
  apply toNat_line_of_le hlines
  cases h with
  | lexical he => exact exists_line_eq_of_error he
  | atToken ht => exact exists_line_eq_of_mem_tokens ht
  | atRuntime he => exact exists_line_eq_of_mem_tokens he.mem

end

/-! ## Sessions -/

namespace Session

variable {σ : Type}

/-- What a run reports are the faults of a source that is rejected, and the end of the run of one
that is not. -/
def batchOf (fuel : Nat) (source : String) (s : Session σ) : List Diagnostic :=
  if Accepted source then s.reported fuel source else faultsOf source

theorem sink_of_run [Sink σ] [LawfulSink σ] {fuel : Nat} {source output : String} {s s' : Session σ}
    (h : s.run fuel source = .ok (output, s')) :
    s'.sink = Sink.reportAll s.sink [s.batchOf fuel source] := by
  unfold batchOf
  split
  next haccepted =>
    obtain ⟨r, m, hrun, -, -, rfl⟩ := (run_eq_ok_iff haccepted).mp h
    rw [reported, hrun]
    rfl
  next haccepted =>
    rw [run_of_not_accepted haccepted] at h
    cases h
    rfl

theorem standsIn_of_mem_batchOf {fuel : Nat} {source : String} {s : Session σ} {d : Diagnostic}
    (h : d ∈ s.batchOf fuel source) : d.StandsIn source := by
  unfold batchOf at h
  split at h
  next =>
    rcases hrun : interpret fuel (statementsOf source) s.machine with ⟨(e | abort) | _, m⟩
    · rw [reported, hrun] at h
      obtain rfl := List.mem_singleton.mp h
      exact .atRuntime (standsIn_of_interpret hrun)
    · rw [reported, hrun] at h
      cases h
    · rw [reported, hrun] at h
      cases h
  next => exact standsIn_of_mem_faultsOf h

/-- Whatever a session has run before, all that it reports of a source stands in that source, on one
of its lines, and so does the run-time error that a run of it ends with. -/
theorem reports_stand_in_source [Sink σ] [LawfulSink σ] {source : String}
    (hlines : source.toList.count '\n' < UInt32.size - 1) (fuel : Nat) (s : Session σ) :
    (s.printTrees source).2.sink = Sink.reportAll s.sink [faultsOf source] ∧
    (∀ output s', s.run fuel source = .ok (output, s') →
      s'.sink = Sink.reportAll s.sink [s.batchOf fuel source]) ∧
    (∀ d, d ∈ faultsOf source ∨ d ∈ s.batchOf fuel source →
      d.StandsIn source ∧ 1 ≤ d.line.toNat ∧ d.line.toNat ≤ 1 + source.toList.count '\n') ∧
    ∀ e m, interpret fuel (statementsOf source) s.machine = (.error (.error e), m) →
      e.StandsIn source := by
  refine ⟨rfl, fun _ _ => sink_of_run, fun d hd => ?_, fun _ _ => standsIn_of_interpret⟩
  have hstands : d.StandsIn source := hd.elim standsIn_of_mem_faultsOf standsIn_of_mem_batchOf
  exact ⟨hstands, hstands.line_mem hlines⟩

/-- A name was bound on the fourth line of an earlier source, to a value that cannot be negated. -/
theorem negation_reported_on_line_two :
    ∃ s s' : Session Buffered, Session.initial.run 1 "\n\n\nvar a = nil;" = .ok ("", s) ∧
      s.run 1 "\nprint -a;" = .ok ("", s') ∧
      s'.sink.diagnostics = ["Operand must be a number.\n[line 2]"] ∧
      ⟨.mark .minus, "-", 2⟩ ∈ (scan "\nprint -a;").tokens := by
  let m : Machine := ⟨⟨[⟨Scopes.globals, none, ⟨[("a", .nil)]⟩⟩], 1⟩, [], []⟩
  let e : RuntimeError := ⟨.operandNotNumber, ⟨.mark .minus, "-", 2⟩⟩
  have hfirst : (Session.initial : Session Buffered).run 1 "\n\n\nvar a = nil;" =
      .ok ("", ⟨m, ⟨[], .clear⟩⟩) := by
    cbv
  have haccepted : Accepted "\nprint -a;" := by decide +kernel
  have hrun : interpret 1 (statementsOf "\nprint -a;") m = (.error (.error e), m) := by
    cbv
  have hlines : "\nprint -a;".toList.count '\n' < UInt32.size - 1 := by decide
  obtain ⟨-, -, -, hstands⟩ := reports_stand_in_source hlines 1
    (⟨m, ⟨[], .clear⟩⟩ : Session Buffered)
  refine ⟨_, _, hfirst, (run_eq_ok_iff haccepted).mpr ⟨_, m, hrun, ?_, rfl, rfl⟩, ?_,
    (hstands e m hrun).mem⟩
  · rintro a ⟨⟩
  · cbv

end Session

end Treewalk
