import Treewalk.Proofs.Grammar.Completeness

/-!
# The parser accepts its grammar

Soundness and completeness of the parser meet here: what is derived with every `else` at the
nearest `if` is what is yielded without an error (`yields_program_iff`). So there is no more than
one such tree, and there is one for each sentence (`sentence_nearest_iff`).

* `ofTokens_accepts`: a token list has no syntax errors exactly when the tokens before the first
  closing one are a sentence of the grammar, and its statements are then the one tree that they
  have.
-/

namespace Treewalk

namespace Grammar

open Treewalk.Parser

variable {ts : List Token} {stmts : List Stmt}

/-- Under rules that want every `else` at the nearest `if`. -/
theorem yields_program_iff {g : Rules} (hg : ¬ g.anyElse) :
    Yields g program ts stmts [] ↔ Declarations g ts stmts :=
  ⟨fun h => (declarations_of_yields h).2, fun h => h.yields_program hg⟩

theorem sentence_nearest_iff : Sentence .nearest ts ↔ Sentence .plain ts := by
  have htarget : Rules.nearest.anyTarget ↔ Rules.plain.anyTarget := Iff.rfl
  constructor
  · rintro ⟨stmts, h⟩
    exact ⟨stmts, h.mono htarget.mp (fun _ => trivial)⟩
  · rintro ⟨stmts, h⟩
    exact Declarations.exists_nearest htarget.mpr h

/-- No error is tolerated in a sentence of `Rules.nearest`. -/
theorem yields_nearest_iff :
    Yields .nearest program ts stmts [] ↔
      (program ts).errors = [] ∧ (program ts).outcome = .ok stmts := by
  constructor
  · rintro ⟨hout, -, herr⟩
    exact ⟨List.eq_nil_iff_forall_not_mem.mpr fun e he => (herr e he).1, hout⟩
  · rintro ⟨herr, hout⟩
    have hy : Yields .nearest program ts stmts (program ts).rest :=
      ⟨hout, rfl, by simp [herr]⟩
    exact (declarations_of_yields hy).1 ▸ hy

end Grammar

namespace Program

open Treewalk.Parser Grammar

variable {tokens : List Token}

theorem errors_ofTokens_eq_nil_iff :
    (ofTokens tokens).errors = [] ↔ (program (tokens.takeWhile (!·.isEof))).errors = [] :=
  List.map_eq_nil_iff

theorem outcome_program (tokens : List Token) :
    (program (tokens.takeWhile (!·.isEof))).outcome = .ok (ofTokens tokens).statements := by
  obtain ⟨stmts, hout⟩ := exists_outcome_program (tokens.takeWhile (!·.isEof))
  simp [ofTokens, Cursor.ofTokens, hout, Except.toOption]

/-- The trees that the grammar has for a token list. -/
theorem declarations_nearest_iff {stmts : List Stmt} :
    Declarations .nearest (tokens.takeWhile (!·.isEof)) stmts ↔
      (ofTokens tokens).errors = [] ∧ (ofTokens tokens).statements = stmts := by
  rw [← yields_program_iff id, yields_nearest_iff, errors_ofTokens_eq_nil_iff, outcome_program,
    Except.ok.injEq]

theorem errors_eq_nil_iff_sentence :
    (ofTokens tokens).errors = [] ↔ Sentence .plain (tokens.takeWhile (!·.isEof)) := by
  rw [← sentence_nearest_iff]
  constructor
  · exact fun h => ⟨_, declarations_nearest_iff.mpr ⟨h, rfl⟩⟩
  · rintro ⟨stmts, h⟩
    exact (declarations_nearest_iff.mp h).1

/-- The parser reports no error exactly on the sentences of the grammar, and there it returns the
only tree that has every `else` at the nearest `if`. -/
theorem ofTokens_accepts (tokens : List Token) :
    ((ofTokens tokens).errors = [] ↔ Sentence .plain (tokens.takeWhile (!·.isEof))) ∧
      ∀ stmts, Declarations .nearest (tokens.takeWhile (!·.isEof)) stmts ↔
        (ofTokens tokens).errors = [] ∧ (ofTokens tokens).statements = stmts :=
  ⟨errors_eq_nil_iff_sentence, fun _ => declarations_nearest_iff⟩

end Program

end Treewalk
