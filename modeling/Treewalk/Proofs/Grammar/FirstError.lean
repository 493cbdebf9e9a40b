import Treewalk.Proofs.Grammar.Completeness
import Treewalk.Proofs.Grammar.Lookahead

/-!
# The first error stands at the first token that cannot be right

Let the parser fail at a token. What stands before the token can be completed to a sentence of
`Rules.relaxed`, as what is read always can (`viable_program`). With the token, it cannot: a
completion would be yielded as a whole (`exists_yields_of_sentence`), but the parser would fail at
the same token in there, for it looks at nothing behind it (`alike_program`).

* `Program.fails_at_first_impossible_token`: so the first fatal error of a token list stands at the
  first token that no sentence goes on with. Without a fatal error, the token list is a sentence.

The relaxed rules are those whose sentences have no fatal error. Under `Rules.plain`, the tokens
before a fatal error may already hold an invalid target.
-/

namespace Treewalk

namespace Grammar

open Treewalk.Parser

variable {ts : List Token} {e : SyntaxError}

/-- The relaxed rules have `expression = or ('=' expression)?`. -/
theorem expression_relaxed_iff :
    (∃ tree, Expression .relaxed .assignment ts tree) ↔
      (∃ tree, Expression .relaxed .or ts tree) ∨
        ∃ target equal value, ts = target ++ equal :: value ∧ equal.kind = .mark .equal ∧
          (∃ tree, Expression .relaxed .or target tree) ∧
          ∃ tree, Expression .relaxed .assignment value tree := by
  constructor
  · rintro ⟨tree, h⟩
    cases h with
    | @assign name equal value e hname hequal hvalue =>
      have htarget : Expression .relaxed .or [name] (.variable name) :=
        Expression.or_of_primary (.variable hname)
      exact .inr ⟨[name], equal, value, rfl, hequal, ⟨_, htarget⟩, e, hvalue⟩
    | @invalid equal target value _ e _ htarget _ hequal hvalue =>
      exact .inr ⟨target, equal, value, rfl, hequal, ⟨_, htarget⟩, e, hvalue⟩
    | operation _ hop => cases hop
    | ofTighter h => exact .inl ⟨tree, h⟩
  · rintro (⟨tree, h⟩ | ⟨target, equal, value, rfl, hequal, ⟨l, htarget⟩, e, hvalue⟩)
    · exact ⟨tree, .ofTighter h⟩
    · cases l with
      | «variable» name =>
        obtain ⟨rfl, hname⟩ := tokens_of_variable htarget (by simp) rfl
        exact ⟨_, .assign hname hequal hvalue⟩
      | _ => exact ⟨_, .invalid True.intro htarget (by simp) hequal hvalue⟩

/-- A sentence is yielded under any bound above the count of its tokens. -/
theorem exists_yields_of_sentence (h : Sentence .relaxed ts) {bound : Nat}
    (hbound : ts.length < bound) :
    ∃ stmts, Yields .relaxed (declarations (fun _ => false)
      (declaration (expression bound) (statement bound)) bound) ts stmts [] := by
  obtain ⟨stmts, hstmts⟩ := h
  obtain ⟨nearest, hnearest⟩ : ∃ nearest, Declarations ⟨True, False⟩ ts nearest :=
    hstmts.exists_nearest fun _ => trivial
  have hy := Declarations.yields id hnearest (fun _ => false) bound bound bound []
    (by simpa using hbound) (by simpa using hbound) hbound (.inl rfl) (by simp)
  rw [List.append_nil] at hy
  -- Only the rule on targets says what is tolerated, and the two agree on it.
  exact ⟨nearest, hy⟩

theorem fails_program_iff :
    Fails program ts e ↔ (program ts).errors.find? SyntaxError.isFatal = some e := by
  obtain ⟨stmts, hout⟩ := exists_outcome_program ts
  simp [Fails, Reply.reported, hout]

theorem sentence_of_no_fatal_error (h : (program ts).errors.find? SyntaxError.isFatal = none) :
    Sentence .relaxed ts := by
  obtain ⟨stmts, hout⟩ := exists_outcome_program ts
  exact ⟨stmts, (declarations_of_yields (yields_relaxed_iff.mpr ⟨hout, rfl, h⟩)).2⟩

theorem exists_sentence_of_fails (h : Fails program ts e) :
    ∃ used more, ts = used ++ e.ahead ∧ Sentence .relaxed (used ++ more) := by
  obtain ⟨used, more, stmts, hts, hstmts⟩ := viable_program.fails ts e h
  exact ⟨used, more, hts, stmts, hstmts⟩

theorem not_sentence_of_fails (h : Fails program ts e) : ¬ Sentence .relaxed ts := by
  intro hsentence
  obtain ⟨stmts, hy⟩ := exists_yields_of_sentence hsentence (Nat.lt_succ_self _)
  exact hy.not_fails (fails_program.mp h)

theorem not_sentence_append_of_fails {t : Token} {used back : List Token} {fault : SyntaxFault}
    (h : Fails program (used ++ t :: back) ⟨fault, t :: back⟩) (more : List Token) :
    ¬ Sentence .relaxed (used ++ t :: more) := by
  intro hsentence
  obtain ⟨bound, hback, hmore⟩ : ∃ bound, (used ++ t :: back).length < bound ∧
      (used ++ t :: more).length < bound :=
    ⟨_, Nat.lt_succ_of_le (Nat.le_max_left _ _), Nat.lt_succ_of_le (Nat.le_max_right _ _)⟩
  obtain ⟨stmts, hy⟩ := exists_yields_of_sentence hsentence hmore
  have halike := alike_program (Nat.le_refl _) (Nat.succ_le_of_lt hback)
  have hused : used.length < (used ++ t :: back).length + 1 := by
    simp only [List.length_append]
    omega
  exact hy.not_fails (halike.fails t back more used [] fault hused (fails_program.mp h))

/-- The closing token counts as the token of an error behind all others. -/
theorem first_impossible_of_fails (h : Fails program ts e) (hts : Unclosed ts) {stop : Token}
    (hstop : stop.kind = .eof) :
    ∃ used, ts = used ++ e.ahead ∧ (∃ more, Sentence .relaxed (used ++ more)) ∧
      (∀ more, ¬ Sentence .relaxed (used ++ e.token stop :: more)) ∧
      ((e.token stop).kind = .eof → ¬ Sentence .relaxed used) := by
  obtain ⟨used, more, hahead, hmore⟩ := exists_sentence_of_fails h
  refine ⟨used, hahead, ⟨more, hmore⟩, ?_⟩
  subst hahead
  obtain ⟨fault, ahead⟩ := e
  cases ahead with
  | nil =>
    refine ⟨?_, fun _ => not_sentence_of_fails (by simpa using h)⟩
    rintro more ⟨stmts, hstmts⟩
    have hopen := hstmts.unclosed
    simp [SyntaxError.token, hstop] at hopen
  | cons t back =>
    have ht : t.kind ≠ .eof := hts t (by simp)
    exact ⟨not_sentence_append_of_fails h, fun heof => absurd heof ht⟩

end Grammar

namespace Cursor

/-- The closing token stands behind the tokens ahead, once it is added to a list without one. -/
theorem exists_behind (tokens : List Token) :
    ∃ behind, tokens ++ [(ofTokens tokens).stop] =
      (ofTokens tokens).ahead ++ (ofTokens tokens).stop :: behind := by
  cases hfind : tokens.find? Token.isEof with
  | none =>
    have hahead : (tokens ++ []).takeWhile (!·.isEof) = tokens ++ [].takeWhile (!·.isEof) :=
      List.takeWhile_append_of_pos (by simpa using hfind)
    simp only [List.takeWhile_nil, List.append_nil] at hahead
    exact ⟨[], by simp [ofTokens, hfind, hahead]⟩
  | some stop =>
    obtain ⟨hstop, front, behind, rfl, hfront⟩ := List.find?_eq_some_iff_append.mp hfind
    have hahead : (front ++ stop :: behind).takeWhile (!·.isEof) = front := by
      simp [List.takeWhile_append_of_pos hfront, hstop]
    exact ⟨behind ++ [stop], by simp [ofTokens, hfind, hahead]⟩

theorem kind_stop (tokens : List Token) : (ofTokens tokens).stop.kind = .eof := by
  cases hfind : tokens.find? Token.isEof with
  | none => simp [ofTokens, hfind, Token.eof]
  | some stop =>
    have hstop := List.find?_some hfind
    simpa [ofTokens, hfind, Token.isEof] using hstop

theorem unclosed_ahead (tokens : List Token) : Grammar.Unclosed (ofTokens tokens).ahead := by
  intro t ht
  simpa [Token.isEof] using List.all_eq_true.mp List.all_takeWhile t ht

end Cursor

namespace Program

open Treewalk.Parser Grammar

/-- Where the parser reports a fatal error, let `i` be the position of the token at which the
first one stands; a closing token is added where the list has none. The tokens before it can be
completed to a sentence, but not with that token next; and they are no sentence themselves if it
is the closing one. Where there is no fatal error, the tokens before the closing one are a
sentence. -/
theorem fails_at_first_impossible_token (tokens : List Token) :
    let front := tokens.takeWhile (!·.isEof)
    let stop := (tokens.find? Token.isEof).getD (Token.eof (Cursor.lastLine tokens))
    let errors := (program front).errors
    (ofTokens tokens).errors = errors.map (fun e => (e.fault, e.token stop)) ∧
      match errors.find? SyntaxError.isFatal with
      | none => Sentence .relaxed front
      | some e => ∃ i, tokens.take i ++ e.ahead = front ∧
          (tokens ++ [stop])[i]? = some (e.token stop) ∧
          (∃ more, Sentence .relaxed (tokens.take i ++ more)) ∧
          (∀ more, ¬ Sentence .relaxed (tokens.take i ++ e.token stop :: more)) ∧
          ((e.token stop).kind = .eof → ¬ Sentence .relaxed (tokens.take i)) := by
  intro front stop errors
  refine ⟨rfl, ?_⟩
  cases hfirst : errors.find? SyntaxError.isFatal with
  | none => exact sentence_of_no_fatal_error hfirst
  | some e =>
    obtain ⟨used, hahead, hmore, himpossible, hend⟩ := first_impossible_of_fails
      (fails_program_iff.mpr hfirst) (Cursor.unclosed_ahead tokens) (Cursor.kind_stop tokens)
    obtain ⟨behind, hbehind⟩ : ∃ behind, tokens ++ [stop] = front ++ stop :: behind :=
      Cursor.exists_behind tokens
    have htake : tokens.take used.length = used := by
      have hprefix : used <+: front := ⟨e.ahead, hahead.symm⟩
      have hused : used <+: tokens := hprefix.trans (List.takeWhile_prefix _)
      exact (List.prefix_iff_eq_take.mp hused).symm
    have hget : (tokens ++ [stop])[used.length]? = some (e.token stop) := by
      rw [hbehind, hahead]
      cases hplace : e.ahead <;> simp [SyntaxError.token, hplace]
    refine ⟨used.length, ?_, hget, ?_⟩
    · rw [htake, hahead]
    · rw [htake]
      exact ⟨hmore, himpossible, hend⟩

/-- In `nil = b c`, an equals sign that is only tolerated stands before the fatal error. -/
example :
    let equal : Token := ⟨.mark .equal, "=", 1⟩
    let last : Token := ⟨.identifier, "c", 1⟩
    (ofTokens [⟨.keyword .kwNil, "nil", 1⟩, equal, ⟨.identifier, "b", 1⟩, last]).errors =
      [(.invalidTarget, equal), (.missing .semicolon .expression, last)] := rfl

end Program

end Treewalk
