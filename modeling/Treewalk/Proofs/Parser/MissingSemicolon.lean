import Treewalk.Proofs.Grammar.Acceptance
import Treewalk.Proofs.Parser.Barrier
import Treewalk.Proofs.Tape

/-!
# Statements without their semicolon

Where a simple statement lacks its semicolon and another one begins right behind it, the error stands
at the token that begins the other one. Recovery drops this token before it looks for a place to go
on, so the other statement is not read from its beginning: parsing goes on behind its next semicolon,
or at a later token that starts a statement.

* `declaration_of_missing`: a simple statement without its semicolon is given up in front of what
  stands behind it, and reports nothing else.
* `Program.missing_semicolon_drops_start`: the one error, and then what is read behind the recovery.
* `Program.not_next_statement_kept`: so the other statement may be lost, though it has no error. Up to
  the start of the next statement, nothing should be dropped but what is in front of it.
-/

namespace Treewalk

namespace Stmt

/-- What a simple statement has before its semicolon. -/
def simplePhrase? : Stmt → Option Phrase
  | .print _ => some .value
  | .declare _ _ => some .variableDeclaration
  | .expression _ => some .expression
  | _ => none

end Stmt

namespace Parser

open Grammar

variable {α β : Type} {p : Parser α} {ts mid rest : List Token} {g : Token}

/-! ## Parts without errors -/

theorem Yields.reply_eq {a : α} (h : Yields .nearest p ts a rest) : p ts = ⟨.ok a, [], rest⟩ := by
  obtain ⟨hout, hrest, herr⟩ := h
  have hnone : (p ts).errors = [] := List.eq_nil_iff_forall_not_mem.mpr fun e he => (herr e he).1
  rw [← hout, ← hrest, ← hnone]

theorem bind_of_quiet {f : α → Parser β} {a : α} (h : p ts = ⟨.ok a, [], mid⟩) :
    (p >>= f) ts = f a mid := by
  rw [bind_of_ok (congrArg Reply.outcome h), h, List.nil_append]

/-! ## In front of a token that starts a statement -/

section

variable (hg : g.startsStatement = true)

include hg

theorem exists_keyword_of_startsStatement :
    ∃ k, g.kind = .keyword k ∧ k ≠ .kwOr ∧ k ≠ .kwAnd := by
  unfold Token.startsStatement at hg
  split at hg
  case h_9 => cases hg
  all_goals
    rename_i hk
    exact ⟨_, hk, by simp, by simp⟩

/-- Such a token does not carry on an expression. -/
theorem quiet_of_startsStatement : Quiet .assignment (g :: rest) := by
  obtain ⟨k, hk, hor, hand⟩ := exists_keyword_of_startsStatement hg
  intro t ht
  cases ht
  rw [hk]
  refine ⟨by simp, fun u _ => ?_⟩
  cases u <;> simp [Tier.operators, hor, hand]

theorem expectMark_of_startsStatement (m : Mark) (after : Phrase) (f : Unit → Parser β) :
    (expectMark m after >>= f) (g :: rest) = ⟨.error (.missing m after), [], g :: rest⟩ := by
  obtain ⟨k, hk, -⟩ := exists_keyword_of_startsStatement hg
  have hm : g.isMark m = false := by simp [Token.isMark, hk]
  simp [expectMark, expect, hm, bind]

/-- What is read up to the token lacks its semicolon there. -/
theorem lacks_semicolon {a : α} {f : α → Unit → Parser β} (after : Phrase)
    (h : p ts = ⟨.ok a, [], g :: rest⟩) :
    (p >>= fun a => expectMark .semicolon after >>= f a) ts =
      ⟨.error (.missing .semicolon after), [], g :: rest⟩ := by
  rw [bind_of_quiet h]
  exact expectMark_of_startsStatement hg _ _ _

theorem expression_of_open {es : List Token} {e : Expr} (h : Expression .nearest .assignment es e)
    {bound : Nat} (hbound : (es ++ g :: rest).length < bound) :
    expression bound (es ++ g :: rest) = ⟨.ok e, [], g :: rest⟩ :=
  (h.yields hbound (quiet_of_startsStatement hg)).reply_eq

theorem variableDeclaration_of_missing {front : List Token} {semi : Token} {s : Stmt}
    (h : VariableDeclaration .nearest (front ++ [semi]) s) {bound : Nat}
    (hbound : (front ++ g :: rest).length < bound) :
    s.simplePhrase? = some .variableDeclaration ∧
      declaration (expression bound) (statement bound) (front ++ g :: rest) =
        ⟨.error (.missing .semicolon .variableDeclaration), [], g :: rest⟩ := by
  obtain ⟨k, hk, -⟩ := exists_keyword_of_startsStatement hg
  have hequal : ¬ Starts (Token.isMark .equal) (g :: rest) := by simp [Token.isMark, hk]
  have hexpect : ∀ (name : Token) (ts : List Token), name.kind = .identifier →
      expect (fun t => t.kind = .identifier) .missingName (name :: ts) = ⟨.ok name, [], ts⟩ :=
    fun name ts hname => by simp [expect, hname]
  generalize hts : front ++ [semi] = ts at h
  cases h with
  | @bare keyword name semicolon hkeyword hname hsemi =>
    obtain ⟨rfl, -⟩ := List.append_inj'
      (show front ++ [semi] = [keyword, name] ++ [semicolon] from hts) rfl
    refine ⟨rfl, ?_⟩
    change (take? _ >>= _) (keyword :: name :: g :: rest) = _
    rw [take?_bind_of_starts (Token.isKeyword_iff.mpr hkeyword)]
    change variableDeclaration _ _ = _
    rw [variableDeclaration, bind_of_quiet (hexpect name _ hname),
      take?_bind_of_not_starts hequal]
    exact lacks_semicolon hg .variableDeclaration rfl
  | @withValue keyword name equal semicolon es e hkeyword hname heq h hsemi =>
    obtain ⟨rfl, -⟩ := List.append_inj'
      (show front ++ [semi] = (keyword :: name :: equal :: es) ++ [semicolon] from hts) rfl
    refine ⟨rfl, ?_⟩
    have he : expression bound (es ++ g :: rest) = ⟨.ok e, [], g :: rest⟩ :=
      expression_of_open hg h (by simp at hbound ⊢; omega)
    have hvalue : (some <$> expression bound) (es ++ g :: rest) = ⟨.ok (some e), [], g :: rest⟩ :=
      bind_of_quiet he
    change (take? _ >>= _) (keyword :: name :: equal :: (es ++ g :: rest)) = _
    rw [take?_bind_of_starts (Token.isKeyword_iff.mpr hkeyword)]
    change variableDeclaration _ _ = _
    rw [variableDeclaration, bind_of_quiet (hexpect name _ hname),
      take?_bind_of_starts (Token.isMark_iff.mpr heq)]
    exact lacks_semicolon hg .variableDeclaration hvalue

/-- Of the other statements, the simple ones are those that end in a semicolon of their own. -/
theorem statement_of_missing {front : List Token} {semi : Token} {s : Stmt} {hanging : Bool}
    {after : Phrase} (h : Statement .nearest hanging (front ++ [semi]) s)
    (hs : s.simplePhrase? = some after) {bound : Nat}
    (hbound : (front ++ g :: rest).length < bound) :
    declaration (expression bound) (statement bound) (front ++ g :: rest) =
      ⟨.error (.missing .semicolon after), [], g :: rest⟩ := by
  obtain ⟨bound, rfl⟩ : ∃ b, bound = b + 1 := ⟨bound - 1, by omega⟩
  have hstatement : ∀ ts, ¬ Starts (Token.isKeyword .kwVar) ts →
      declaration (expression (bound + 1)) (statement (bound + 1)) ts =
        statement (bound + 1) ts :=
    fun ts hvar => take?_bind_of_not_starts hvar
  generalize hts : front ++ [semi] = ts at h
  cases h with
  | expression h =>
    obtain ⟨h, hsemi⟩ := h
    obtain ⟨rfl, -⟩ := List.append_inj' hts rfl
    cases hs
    have he := expression_of_open hg h hbound
    obtain ⟨t, tail, rfl, ht⟩ := h.head
    have hvar : ¬ Starts (Token.isKeyword .kwVar) (t :: tail ++ g :: rest) := by
      rw [List.cons_append, starts_cons, Token.isKeyword_iff]
      intro hkeyword
      simp [hkeyword, opensExpression] at ht
    rw [hstatement _ hvar, List.cons_append, statement_of_head ht]
    exact lacks_semicolon hg .expression he
  | @print keyword semicolon es e hkeyword h hsemi =>
    obtain ⟨rfl, -⟩ := List.append_inj'
      (show front ++ [semi] = (keyword :: es) ++ [semicolon] from hts) rfl
    cases hs
    have he : expression (bound + 1) (es ++ g :: rest) = ⟨.ok e, [], g :: rest⟩ :=
      expression_of_open hg h (by simp at hbound ⊢; omega)
    have hvar : ¬ Starts (Token.isKeyword .kwVar) (keyword :: es ++ g :: rest) := by
      simp [Token.isKeyword, hkeyword]
    have hprint : statement (bound + 1) (keyword :: es ++ g :: rest) =
        printStatement (expression (bound + 1)) (es ++ g :: rest) := by
      simp only [statement, List.cons_append, hkeyword]
    rw [hstatement _ hvar, hprint]
    exact lacks_semicolon hg .value he
  | forLoop _ _ hi => cases hi <;> cases hs
  | block | loop | ifThen | ifThenElse => cases hs

theorem declaration_of_missing {front : List Token} {semi : Token} {s : Stmt} {after : Phrase}
    (h : Declarations .nearest (front ++ [semi]) [s]) (hs : s.simplePhrase? = some after)
    {bound : Nat} (hbound : (front ++ g :: rest).length < bound) :
    declaration (expression bound) (statement bound) (front ++ g :: rest) =
      ⟨.error (.missing .semicolon after), [], g :: rest⟩ := by
  generalize hts : front ++ [semi] = ts at h
  cases h with
  | «variable» h hrest =>
    cases hrest
    rw [List.append_nil] at hts
    obtain ⟨hphrase, hmissing⟩ := variableDeclaration_of_missing hg (hts ▸ h) hbound
    obtain rfl : Phrase.variableDeclaration = after := Option.some.inj (hphrase.symm.trans hs)
    exact hmissing
  | statement h hrest =>
    cases hrest
    rw [List.append_nil] at hts
    exact statement_of_missing hg (hts ▸ h) hs hbound

end

/-- The declaration is left out, and reading goes on behind the recovery. -/
theorem program_of_missing {front : List Token} {semi : Token} {s : Stmt} {after : Phrase}
    (hg : g.startsStatement = true) (h : Declarations .nearest (front ++ [semi]) [s])
    (hs : s.simplePhrase? = some after) (rest : List Token) :
    program (front ++ g :: rest) =
      ⟨(program (Parser.resume (g :: rest))).outcome,
        ⟨.missing .semicolon after, g :: rest⟩ :: (program (Parser.resume (g :: rest))).errors,
        (program (Parser.resume (g :: rest))).rest⟩ := by
  obtain ⟨rounds, hrounds⟩ : ∃ rounds, (front ++ g :: rest).length ≤ rounds := ⟨_, Nat.le_refl _⟩
  have hbound : (front ++ g :: rest).length < rounds + 1 := Nat.lt_succ_of_le hrounds
  have hone := declaration_of_missing hg h hs hbound
  have hrecover : recover (declaration (expression (rounds + 1)) (statement (rounds + 1)))
      (front ++ g :: rest) =
        ⟨.ok none, [⟨.missing .semicolon after, g :: rest⟩], Parser.resume (g :: rest)⟩ := by
    simp only [recover, hone, List.nil_append]
  have hless := length_resume_lt g rest
  have hlength : (Parser.resume (g :: rest)).length < rounds := by
    simp only [List.length_append] at hrounds
    omega
  have hothers : declarations (fun _ => false) (declaration (expression (rounds + 1))
      (statement (rounds + 1))) rounds (Parser.resume (g :: rest)) =
        program (Parser.resume (g :: rest)) :=
    declarations_eq_program (Nat.lt_succ_of_lt hlength) hlength
  obtain ⟨stmts, hstmts⟩ := exists_outcome_program (Parser.resume (g :: rest))
  have hround := declarations_round (show front ++ g :: rest ≠ [] by simp) rounds
    (congrArg Reply.outcome hrecover) (by rw [hrecover, hothers]; exact hstmts)
  rw [declarations_eq_program hbound hbound, hrecover, hothers] at hround
  rw [hround, hstmts]
  rfl

end Parser

/-- The cursor in front of open tokens and others behind them. -/
theorem Cursor.ofTokens_append {front back : List Token} (hfront : ∀ t ∈ front, t.isEof = false)
    (hback : back ≠ []) : Cursor.ofTokens (front ++ back) =
      ⟨[], front ++ (Cursor.ofTokens back).ahead, (Cursor.ofTokens back).stop⟩ := by
  have hopen : ∀ t ∈ front, (!t.isEof) = true := fun t ht => by rw [hfront t ht]; rfl
  have hkind : ∀ t ∈ front, t.kind ≠ .eof := fun t ht => by simpa [Token.isEof] using hfront t ht
  rw [← Cursor.stop_append hkind hback]
  simp [Cursor.ofTokens, List.takeWhile_append_of_pos hopen]

namespace Program

open Treewalk.Parser

/-- A missing semicolon is the one error of its statement, but what is behind it is read from the
place where recovery ends, which is behind the token `g` in any case. -/
theorem missing_semicolon_drops_start {front back : List Token} {semi g : Token} {s : Stmt}
    {after : Phrase} (hfront : ∀ t ∈ front, t.isEof = false) (hsemi : semi.kind = .mark .semicolon)
    (herrors : (ofTokens (front ++ [semi])).errors = [])
    (hstmts : (ofTokens (front ++ [semi])).statements = [s])
    (hs : s.simplePhrase? = some after) (hg : g.startsStatement = true) :
    let behind := Cursor.ofTokens (g :: back)
    let resumed := ofTokens (Parser.resume behind.ahead ++ [behind.stop])
    (ofTokens (front ++ g :: back)).statements = resumed.statements ∧
      (ofTokens (front ++ g :: back)).errors =
        (.missing .semicolon after, g) :: resumed.errors := by
  intro behind resumed
  obtain ⟨k, hk, -⟩ := exists_keyword_of_startsStatement hg
  have hg' : g.isEof = false := by simp [Token.isEof, hk]
  have hsemi' : semi.isEof = false := by simp [Token.isEof, hsemi]
  have hfaces := (Tape.shows_ofTokens (g :: back))
  have hahead : behind.ahead = g :: back.takeWhile (!·.isEof) := by
    simp [behind, Cursor.ofTokens, hg']
  have hderives : Grammar.Declarations .nearest (front ++ [semi]) [s] := by
    have hopen : ∀ t ∈ front ++ [semi], t.isEof = false := by
      intro t ht
      obtain ht | ht := List.mem_append.mp ht
      · exact hfront t ht
      · exact List.mem_singleton.mp ht ▸ hsemi'
    have htake := congrArg Cursor.ahead (Cursor.ofTokens_of_open hopen)
    have h := declarations_nearest_iff.mpr ⟨herrors, hstmts⟩
    rwa [show (front ++ [semi]).takeWhile (!·.isEof) = front ++ [semi] from htake] at h
  have hresumed : ∀ t ∈ Parser.resume behind.ahead, t.isEof = false :=
    fun t ht => hfaces.ahead t ((resume_suffix _).subset ht)
  have hprogram := program_of_missing hg hderives hs (back.takeWhile (!·.isEof))
  rw [← hahead] at hprogram
  have hcursor : Cursor.ofTokens (front ++ g :: back) =
      ⟨[], front ++ behind.ahead, behind.stop⟩ :=
    Cursor.ofTokens_append hfront (List.cons_ne_nil g back)
  have hcursor' : Cursor.ofTokens (Parser.resume behind.ahead ++ [behind.stop]) =
      ⟨[], Parser.resume behind.ahead, behind.stop⟩ :=
    Cursor.ofTokens_append_cons hresumed hfaces.stop []
  simp only [resumed, ofTokens, hcursor, hcursor', hprogram, List.map_cons]
  refine ⟨trivial, ?_⟩
  rw [SyntaxError.token, hahead, List.headD_cons]

/-- `var a;` and the like. -/
theorem ofTokens_bare {keyword name semicolon : Token} (hkeyword : keyword.kind = .keyword .kwVar)
    (hname : name.kind = .identifier) (hsemi : semicolon.kind = .mark .semicolon) :
    (ofTokens [keyword, name, semicolon]).errors = [] ∧
      (ofTokens [keyword, name, semicolon]).statements = [.declare name none] := by
  apply declarations_nearest_iff.mp
  have htake : [keyword, name, semicolon].takeWhile (!·.isEof) =
      [keyword, name, semicolon] ++ [] := by
    simp [Token.isEof, hkeyword, hname, hsemi]
  rw [htake]
  exact .variable (.bare hkeyword hname hsemi) .nil

/-- `var a` without its semicolon, in front of a statement that has no error and is lost. -/
theorem print_lost_behind_declaration :
    let semicolon : Token := ⟨.mark .semicolon, ";", 1⟩
    let name : Token := ⟨.identifier, "a", 1⟩
    let unfinished : List Token := [⟨.keyword .kwVar, "var", 1⟩, name]
    let print : Token := ⟨.keyword .kwPrint, "print", 2⟩
    let behind : List Token := [⟨.keyword .kwNil, "nil", 2⟩, semicolon]
    (ofTokens (unfinished ++ [semicolon])).statements = [.declare name none] ∧
      (ofTokens (print :: behind)).errors = [] ∧
      (ofTokens (print :: behind)).statements.length = 1 ∧
      (ofTokens (unfinished ++ print :: behind)).statements = [] ∧
      (ofTokens (unfinished ++ print :: behind)).errors =
        [(.missing .semicolon .variableDeclaration, print)] := by
  intro semicolon name unfinished print behind
  have hopen : ∀ t ∈ unfinished, t.isEof = false := by simp [unfinished, name, Token.isEof]
  obtain ⟨herrors, hstmts⟩ : (ofTokens (unfinished ++ [semicolon])).errors = [] ∧
      (ofTokens (unfinished ++ [semicolon])).statements = [.declare name none] :=
    ofTokens_bare rfl rfl rfl
  have hdrops : (ofTokens (unfinished ++ print :: behind)).statements = [] ∧
      (ofTokens (unfinished ++ print :: behind)).errors =
        [(.missing .semicolon .variableDeclaration, print)] :=
    missing_semicolon_drops_start hopen rfl herrors hstmts rfl rfl
  exact ⟨hstmts, by decide +kernel, by decide +kernel, hdrops⟩

/-- A statement behind a missing semicolon is not always kept, though it has no error. -/
theorem not_next_statement_kept :
    ¬ ∀ (front back : List Token) (semi g : Token) (s : Stmt),
      (∀ t ∈ front, t.isEof = false) → semi.kind = .mark .semicolon →
        (ofTokens (front ++ [semi])).errors = [] → (ofTokens (front ++ [semi])).statements = [s] →
          s.simplePhrase?.isSome = true → g.startsStatement = true →
            (ofTokens (g :: back)).errors = [] →
              (ofTokens (front ++ g :: back)).statements = (ofTokens (g :: back)).statements := by
  intro h
  let semicolon : Token := ⟨.mark .semicolon, ";", 1⟩
  let name : Token := ⟨.identifier, "a", 1⟩
  let print : Token := ⟨.keyword .kwPrint, "print", 2⟩
  obtain ⟨herrors, hstmts⟩ :
      (ofTokens [⟨.keyword .kwVar, "var", 1⟩, name, semicolon]).errors = [] ∧
        (ofTokens [⟨.keyword .kwVar, "var", 1⟩, name, semicolon]).statements =
          [.declare name none] :=
    ofTokens_bare rfl rfl rfl
  have hkept := h [⟨.keyword .kwVar, "var", 1⟩, name] [⟨.keyword .kwNil, "nil", 2⟩, semicolon]
    semicolon print (.declare name none) (by simp [name, Token.isEof]) rfl herrors hstmts rfl rfl
    (by decide +kernel)
  have hlength := congrArg List.length hkept
  revert hlength
  decide +kernel

end Program

end Treewalk
