import Treewalk.Proofs.Tape.Recovery

/-!
# Expressions and statements on a tape

Every parser agrees with its reader on a tape, where the bounds are above the number of tokens ahead.

* `agrees_expression`: nothing is charged to the first token of an expression, since an equals sign
  stands behind its target (`Faces.invalidTarget`).
* `agrees_statement`: nothing is charged to the first token of a statement either, since the slots of
  a block stand behind its brace.
* `exists_renders_parse`: so a whole token list is parsed within the tape and its bounds.
-/

namespace Treewalk.Tape

open Treewalk.Parser (Consumes Reads FormedStmt)

variable {n : Nat}

/-! ## Expressions -/

section

variable {nested : Reader Expr} {nested' : Parser Expr}

theorem agrees_primary (h : Agrees (n - 1) 0 nested nested') :
    Agrees n 1 (Reader.primary nested) (Parser.primary nested') := by
  intro t ts stop hfaces hlength
  rw [Reader.primary, Reader.bind_of_silent hfaces.peek]
  have hraise := agrees_raise (n := n) (d := 1) (α := Expr) .missingExpression t ts stop hfaces
    hlength
  cases ts with
  | nil =>
    have hstop : stop.kind = .eof := by simpa [Token.isEof] using hfaces.isEof_stop
    simp only [List.headD_nil, Token.literal?, hstop]
    exact hraise
  | cons u ts =>
    have hleaf : ∀ e, ∃ run, Reader.leaf e t = some run ∧
        run.Renders t (u :: ts) stop 1 ⟨.ok e, [], ts⟩ :=
      fun e => ⟨_, Reader.bind_of_silent hfaces.advance, Run.renders_self.cons⟩
    obtain ⟨kind, lexeme, line⟩ := u
    cases kind with
    | number | string | identifier => exact hleaf _
    | eof => exact hraise
    | keyword k =>
      cases k with
      | kwTrue | kwFalse | kwNil => exact hleaf _
      | _ => exact hraise
    | mark m =>
      cases m with
      | leftParen =>
        have hinner : Agrees (n - 1) 0 (do
            let inner ← nested
            Reader.expectMark .rightParen .expression
            return Expr.grouping inner) (do
            let inner ← nested'
            Parser.expectMark .rightParen .expression
            return Expr.grouping inner) :=
          h.bind fun inner => (agrees_expectMark _ _).bind fun _ => agrees_pure _
        obtain ⟨run, hrun, hrenders⟩ :=
          hinner _ ts stop hfaces.next (Nat.lt_sub_of_add_lt hlength)
        exact ⟨run, (Reader.bind_of_silent hfaces.advance).trans hrun, hrenders.cons⟩
      | _ => exact hraise

theorem agrees_unary {bound : Nat} (hbound : n ≤ bound) (h : Agrees (n - 1) 0 nested nested') :
    Agrees n 1 (Reader.unary nested bound) (Parser.unary nested') := by
  induction n generalizing bound with
  | zero => exact agrees_zero
  | succ n ih =>
    obtain ⟨bound, rfl⟩ := Nat.exists_eq_add_of_le' (Nat.le_trans (Nat.le_add_left 1 n) hbound)
    rw [Reader.unary, Parser.unary_eq]
    apply agrees_take?_bind
    · exact fun t => Token.isUnary_of_isEof
    · exact agrees_primary h
    · intro operator
      have hoperand := ih (Nat.le_of_succ_le_succ hbound) (h.mono (Nat.sub_le n 1) (Nat.le_refl 0))
      exact (hoperand.mono (Nat.le_refl n) (Nat.zero_le 1)).map _

end

section

variable {level : Level} {operand : Reader Expr} {operand' : Parser Expr}

/-- Each round takes a token. -/
theorem agrees_operations (hlevel : ∀ t : Token, t.isEof = true → level.isOperator t = false)
    (h : Agrees n 1 operand operand') {rounds rounds' : Nat} (hrounds : n ≤ rounds)
    (hrounds' : n ≤ rounds' + 1) (left : Expr) :
    Agrees n 1 (Reader.operations level operand rounds left)
      (Parser.operations level operand' rounds' left) := by
  induction n generalizing rounds rounds' left with
  | zero => exact agrees_zero
  | succ n ih =>
    obtain ⟨rounds, rfl⟩ := Nat.exists_eq_add_of_le' (Nat.le_trans (Nat.le_add_left 1 n) hrounds)
    intro t ts stop hfaces hlength
    cases ts with
    | nil =>
      have htake := hfaces.take?_nil (hlevel stop hfaces.isEof_stop)
      rw [Reader.operations, Reader.bind_of_silent htake,
        Parser.operations_of_not_starts (Parser.not_starts_nil _)]
      exact agrees_pure left t [] stop hfaces hlength
    | cons u ts =>
      obtain ⟨rounds', rfl⟩ : ∃ r, rounds' = r + 1 := ⟨rounds' - 1, by simp at hlength; omega⟩
      have hless := h.mono (Nat.le_succ n) (Nat.le_refl 1)
      refine agrees_take?_bind hlevel (agrees_pure left) (fun operator => ?_) t (u :: ts) stop
        hfaces hlength
      apply Agrees.mono (n := n) (d := 1) _ (Nat.le_refl n) (Nat.zero_le 1)
      apply hless.bind
      intro right
      exact ih hless (Nat.le_of_succ_le_succ hrounds) (Nat.le_of_succ_le_succ hrounds') _

theorem agrees_binary (h : Agrees n 1 operand operand') {rounds rounds' : Nat}
    (hrounds : n ≤ rounds) (hrounds' : n ≤ rounds' + 1) {levels : List Level}
    (hlevels : levels ⊆ Level.all) :
    Agrees n 1 (Reader.binary rounds operand levels) (Parser.binary rounds' operand' levels) := by
  induction levels with
  | nil => exact h
  | cons level tighter ih =>
    obtain ⟨hlevel, htighter⟩ := List.cons_subset.mp hlevels
    have hopen : ∀ t : Token, t.isEof = true → level.isOperator t = false :=
      fun t ht => Parser.not_isOperator hlevel (.inl (by simpa [Token.isEof] using ht))
    exact (ih htighter).bind (agrees_operations hopen (ih htighter) hrounds hrounds')

end

section

variable {nested : Reader Expr} {nested' : Parser Expr} {t : Tape} {ts : List Token}
  {u stop : Token}

/-- The target is reported at the equals sign `u`, but behind all that its value reports. -/
theorem Faces.invalidTarget (hfaces : t.Faces (u :: ts) stop) (hlength : ts.length < n)
    (h : Agrees n 0 nested nested') (left : Expr) :
    ∃ run, (nested >>= fun _ => Reader.report ⟨.invalidTarget, u, t.index⟩ >>= fun _ => pure left)
        (t.moveTo (t.index + 1)) = some run ∧
      run.Renders t (u :: ts) stop 0 ((nested' >>= fun _ =>
        Parser.report ⟨.invalidTarget, u :: ts⟩ >>= fun _ => pure left) ts) := by
  obtain ⟨run, hrun, hrenders⟩ := h _ ts stop hfaces.next hlength
  obtain ⟨hrest, htape, -, herrors, haccount⟩ := hrenders.cons (u := u) (d := 0)
  have hshift : t.index + 1 + ts.length = t.index + (u :: ts).length := by
    rw [List.length_cons]
    omega
  cases hout : (nested' ts).outcome with
  | error fault =>
    rw [hrenders.eq_of_error hout, index_moveTo, hshift] at hrun
    rw [Parser.bind_of_error hout]
    exact ⟨_, Reader.bind_of_error hrun, hrest, htape, rfl, herrors, haccount⟩
  | ok value =>
    rw [hrenders.eq_of_ok hout] at hrun
    refine ⟨_, Reader.bind_of_ok hrun rfl, ?_⟩
    rw [Parser.bind_of_ok hout]
    refine ⟨hrest, htape, rfl, ?_, ?_⟩
    · rw [Run.errors] at herrors ⊢
      rw [List.filterMap_append, herrors, List.map_append]
      simp [Event.error?, Parser.report, Error.ofSyntax, SyntaxError.token, bind, pure]
    · have hbehind := hrenders.account
      rw [index_moveTo, hshift] at hbehind
      exact hbehind.invalid (e := ⟨.invalidTarget, u, t.index⟩) hrenders.index_tape.2 rfl

/-- Behind the left side, with the index noted where the equals sign may stand. -/
theorem agrees_target (h : Agrees (n - 1) 0 nested nested') (left : Expr) :
    Agrees n 0 (do
        let index ← Reader.place
        match ← Reader.take? (Token.isMark .equal) with
        | none => return left
        | some equals =>
          let value ← nested
          match left with
          | .variable name => return .assign name value
          | _ =>
            Reader.report ⟨.invalidTarget, equals, index⟩
            return left) (do
        let place ← Parser.ahead
        match ← Parser.take? (Token.isMark .equal) with
        | none => return left
        | some _ =>
          let value ← nested'
          match left with
          | .variable name => return .assign name value
          | _ =>
            Parser.report ⟨.invalidTarget, place⟩
            return left) := by
  intro t ts stop hfaces hlength
  have hplace : ∀ g : List Token → Parser Expr, (Parser.ahead >>= g) ts = g ts ts := fun _ => rfl
  rw [Reader.bind_of_silent rfl, hplace]
  cases ts with
  | nil =>
    have hstop : stop.isMark .equal = false := Token.isMark_of_isEof hfaces.isEof_stop
    rw [Reader.bind_of_silent (hfaces.take?_nil hstop), Parser.take?_bind_of_not_starts (Parser.not_starts_nil _)]
    exact agrees_pure left t [] stop hfaces hlength
  | cons u ts =>
    have htake := hfaces.take?_cons (Token.isMark .equal)
    by_cases hu : u.isMark .equal = true
    · rw [if_pos hu] at htake
      rw [Reader.bind_of_silent htake, Parser.take?_bind_of_starts hu]
      have hlength' : ts.length < n - 1 := Nat.lt_sub_of_add_lt hlength
      cases left with
      | «variable» name =>
        have hassign : Agrees (n - 1) 0 (nested >>= fun value => pure (Expr.assign name value))
            (nested' >>= fun value => pure (Expr.assign name value)) :=
          h.bind fun value => agrees_pure _
        obtain ⟨run, hrun, hrenders⟩ := hassign _ ts stop hfaces.next hlength'
        exact ⟨run, hrun, hrenders.cons⟩
      | _ => exact hfaces.invalidTarget hlength' h _
    · rw [if_neg hu] at htake
      rw [Reader.bind_of_silent htake,
        Parser.take?_bind_of_not_starts (mt (Parser.starts_cons _ _ _).mp hu)]
      exact agrees_pure left t (u :: ts) stop hfaces hlength

theorem agrees_assignment (h : Agrees (n - 1) 0 nested nested')
    (hreads : Reads (fun _ => True) nested' (Parser.Formed fun _ => True)) {bound rounds : Nat}
    (hbound : n ≤ bound) (hrounds : n ≤ rounds + 1) :
    Agrees n 1 (Reader.assignment bound nested) (Parser.assignment rounds nested') := by
  have hleft := agrees_binary (agrees_unary hbound h) hbound hrounds (List.Subset.refl Level.all)
  have hconsumes : Consumes (Parser.binary rounds (Parser.unary nested') Level.all) :=
    Parser.consumes_binary (Parser.consumes_unary hreads) (Parser.reads_unary hreads) rounds
      Parser.wellFormed_all
  exact hleft.bind_of_room (agrees_target h) (.inr ⟨hconsumes, Nat.le_refl 1⟩)

end

theorem agrees_expression {bound bound' : Nat} (hbound : n ≤ bound) (hbound' : n ≤ bound') :
    Agrees n 1 (Reader.expression bound) (Parser.expression bound') := by
  induction bound generalizing n bound' with
  | zero =>
    obtain rfl := Nat.le_zero.mp hbound
    exact agrees_zero
  | succ bound ih =>
    cases bound' with
    | zero =>
      obtain rfl := Nat.le_zero.mp hbound'
      exact agrees_zero
    | succ bound' =>
      have hnested : Agrees (n - 1) 1 (Reader.expression bound) (Parser.expression bound') :=
        ih (Nat.sub_le_of_le_add hbound) (Nat.sub_le_of_le_add hbound')
      rw [Reader.expression, Parser.expression]
      exact agrees_assignment (hnested.mono (Nat.le_refl _) (Nat.zero_le 1))
        (Parser.reads_expression bound') hbound hbound'

/-! ## Statements -/

section

variable {d : Nat} {expr : Reader Expr} {expr' : Parser Expr} {stmt : Reader Stmt}
  {stmt' : Parser Stmt} (he : Agrees n d expr expr')

include he

theorem agrees_expressionStatement :
    Agrees n d (Reader.expressionStatement expr) (Parser.expressionStatement expr') :=
  he.bind fun _ => (agrees_expectMark _ _).bind fun _ => agrees_pure _

theorem agrees_printStatement :
    Agrees n d (Reader.printStatement expr) (Parser.printStatement expr') :=
  he.bind fun _ => (agrees_expectMark _ _).bind fun _ => agrees_pure _

theorem agrees_variableDeclaration :
    Agrees n d (Reader.variableDeclaration expr) (Parser.variableDeclaration expr') := by
  apply (agrees_expect _ _).bind
  · intro name
    have hend : ∀ (m e : Nat) (initializer : Option Expr), Agrees m e (do
        Reader.expectMark .semicolon .variableDeclaration
        return Stmt.declare name initializer) (do
        Parser.expectMark .semicolon .variableDeclaration
        return Stmt.declare name initializer) :=
      fun m e initializer => (agrees_expectMark _ _).bind fun _ => agrees_pure _
    apply agrees_eat_bind fun t => Token.isMark_of_isEof
    · exact (agrees_pure none).bind (hend n d)
    · exact fun equal => ((he.mono (Nat.sub_le n 1) (Nat.sub_le d 1)).map some).bind (hend _ _)
  · exact fun t ht => by simp_all [Token.isEof]

theorem agrees_ifStatement (hs : Agrees n d stmt stmt') :
    Agrees n d (Reader.ifStatement expr stmt) (Parser.ifStatement expr' stmt') := by
  apply (agrees_expectMark _ _).bind
  intro _
  apply he.bind
  intro condition
  apply (agrees_expectMark _ _).bind
  intro _
  apply hs.bind
  intro yes
  apply agrees_eat_bind fun t => Token.isKeyword_of_isEof
  · exact agrees_pure _
  · exact fun otherwise => (hs.mono (Nat.sub_le n 1) (Nat.sub_le d 1)).bind fun no => agrees_pure _

theorem agrees_whileStatement (hs : Agrees n d stmt stmt') :
    Agrees n d (Reader.whileStatement expr stmt) (Parser.whileStatement expr' stmt') := by
  apply (agrees_expectMark _ _).bind
  intro _
  apply he.bind
  intro condition
  apply (agrees_expectMark _ _).bind
  intro _
  exact hs.bind fun body => agrees_pure _

theorem agrees_forInitializer :
    Agrees n d (Reader.forInitializer expr) (Parser.forInitializer expr') := by
  apply agrees_eat_bind fun t => Token.isMark_of_isEof
  · apply agrees_eat_bind fun t => Token.isKeyword_of_isEof
    · exact (agrees_expressionStatement he).map _
    · exact fun keyword =>
        (agrees_variableDeclaration (he.mono (Nat.sub_le n 1) (Nat.sub_le d 1))).map _
  · exact fun semicolon => agrees_pure _

theorem agrees_forClause (close : Mark) :
    Agrees n d (Reader.forClause expr close) (Parser.forClause close expr') := by
  apply (agrees_check close).bind
  intro closed
  cases closed with
  | true => exact agrees_pure _
  | false => exact he.map _

theorem agrees_forStatement (hs : Agrees n d stmt stmt') :
    Agrees n d (Reader.forStatement expr stmt) (Parser.forStatement expr' stmt') := by
  apply (agrees_expectMark _ _).bind
  intro _
  apply (agrees_forInitializer he).bind
  intro initializer
  apply (agrees_forClause he .semicolon).bind
  intro condition
  apply (agrees_expectMark _ _).bind
  intro _
  apply (agrees_forClause he .rightParen).bind
  intro increment
  apply (agrees_expectMark _ _).bind
  intro _
  exact hs.bind fun body => agrees_pure _

end

section

variable {expr : Reader Expr} {expr' : Parser Expr} {stmt : Reader Stmt} {stmt' : Parser Stmt}

/-- A declaration takes a token before its first slot. -/
theorem agrees_declaration (he : Agrees (n - 1) 0 expr expr') (hs : Agrees n 1 stmt stmt') :
    Agrees n 1 (Reader.declaration expr stmt) (Parser.declaration expr' stmt') := by
  apply agrees_eat_bind fun t => Token.isKeyword_of_isEof
  · exact hs
  · exact fun keyword => agrees_variableDeclaration he

theorem agrees_block (hone : Agrees n 1 (Reader.declaration expr stmt)
      (Parser.declaration expr' stmt')) (hconsumes : Consumes (Parser.declaration expr' stmt'))
    (hreads : Reads (fun _ => True) (Parser.declaration expr' stmt') (FormedStmt fun _ => True))
    {bound bound' : Nat} (hbound : n ≤ bound) (hbound' : n ≤ bound') :
    Agrees n 0 (Reader.block bound expr stmt) (Parser.block bound' expr' stmt') := by
  apply (agrees_declarations hone hconsumes hreads (Token.isMark .rightBrace) hbound hbound').bind
  exact fun body => (agrees_expectMark _ _).bind fun _ => agrees_pure _

end

/-- The statements that open with a token of their own, tried one after another. -/
theorem statement_in_turn (bound : Nat) :
    Parser.statement (bound + 1) = (do
      let expr := Parser.expression (bound + 1)
      let stmt := Parser.statement bound
      match ← Parser.take? (Token.isKeyword .kwFor) with
      | some _ => Parser.forStatement expr stmt
      | none =>
        match ← Parser.take? (Token.isKeyword .kwIf) with
        | some _ => Parser.ifStatement expr stmt
        | none =>
          match ← Parser.take? (Token.isKeyword .kwPrint) with
          | some _ => Parser.printStatement expr
          | none =>
            match ← Parser.take? (Token.isKeyword .kwWhile) with
            | some _ => Parser.whileStatement expr stmt
            | none =>
              match ← Parser.take? (Token.isMark .leftBrace) with
              | some _ => Parser.block bound expr stmt
              | none => Parser.expressionStatement expr) := by
  have htake : ∀ (wanted : Token → Bool) (f : Option Token → Parser Stmt) t ts,
      (Parser.take? wanted >>= f) (t :: ts) =
        if wanted t then f (some t) ts else f none (t :: ts) := by
    intro wanted f t ts
    by_cases ht : wanted t = true
    · rw [Parser.take?_bind_of_starts ht, if_pos ht]
    · rw [Parser.take?_bind_of_not_starts (mt (Parser.starts_cons _ _ _).mp ht), if_neg ht]
  funext ts
  cases ts with
  | nil => rfl
  | cons t ts =>
    simp only [htake]
    rw [Parser.statement]
    dsimp only
    split <;> simp_all [Token.isKeyword, Token.isMark]

theorem agrees_statement {bound bound' : Nat} (hbound : n ≤ bound) (hbound' : n ≤ bound') :
    Agrees n 1 (Reader.statement bound) (Parser.statement bound') := by
  induction bound generalizing n bound' with
  | zero =>
    obtain rfl := Nat.le_zero.mp hbound
    exact agrees_zero
  | succ bound ih =>
    cases bound' with
    | zero =>
      obtain rfl := Nat.le_zero.mp hbound'
      exact agrees_zero
    | succ bound' =>
      have he : Agrees n 1 (Reader.expression (bound + 1)) (Parser.expression (bound' + 1)) :=
        agrees_expression hbound hbound'
      have hs : Agrees (n - 1) 1 (Reader.statement bound) (Parser.statement bound') :=
        ih (Nat.sub_le_of_le_add hbound) (Nat.sub_le_of_le_add hbound')
      have he' := he.mono (Nat.sub_le n 1) (Nat.zero_le 1)
      have hs' := hs.mono (Nat.le_refl _) (Nat.zero_le 1)
      have hblock : Agrees (n - 1) 0
          (Reader.block bound (Reader.expression (bound + 1)) (Reader.statement bound))
          (Parser.block bound' (Parser.expression (bound' + 1)) (Parser.statement bound')) :=
        agrees_block (agrees_declaration (he'.mono (Nat.sub_le _ 1) (Nat.le_refl 0)) hs)
          (Parser.consumes_declaration (Parser.reads_expression _) (Parser.consumes_statement _))
          (Parser.reads_declaration (Parser.reads_expression _) (Parser.reads_statement _))
          (Nat.sub_le_of_le_add hbound) (Nat.sub_le_of_le_add hbound')
      rw [Reader.statement, statement_in_turn]
      apply agrees_eat_bind fun t => Token.isKeyword_of_isEof
      rotate_left
      · exact fun keyword => agrees_forStatement he' hs'
      apply agrees_eat_bind fun t => Token.isKeyword_of_isEof
      rotate_left
      · exact fun keyword => agrees_ifStatement he' hs'
      apply agrees_eat_bind fun t => Token.isKeyword_of_isEof
      rotate_left
      · exact fun keyword => agrees_printStatement he'
      apply agrees_eat_bind fun t => Token.isKeyword_of_isEof
      rotate_left
      · exact fun keyword => agrees_whileStatement he' hs'
      apply agrees_eat_bind fun t => Token.isMark_of_isEof
      · exact agrees_expressionStatement he
      · exact fun brace => hblock

theorem agrees_program (bound : Nat) : Agrees bound 0 (Reader.program bound) Parser.program := by
  have he : Agrees bound 1 (Reader.expression bound) (Parser.expression bound) :=
    agrees_expression (Nat.le_refl bound) (Nat.le_refl bound)
  have hs : Agrees bound 1 (Reader.statement bound) (Parser.statement bound) :=
    agrees_statement (Nat.le_refl bound) (Nat.le_refl bound)
  have hone := agrees_declaration (he.mono (Nat.sub_le bound 1) (Nat.zero_le 1)) hs
  intro t ts stop hfaces hlength
  rw [← Parser.declarations_eq_program hlength hlength]
  exact agrees_declarations hone
    (Parser.consumes_declaration (Parser.reads_expression _) (Parser.consumes_statement _))
    (Parser.reads_declaration (Parser.reads_expression _) (Parser.reads_statement _))
    (fun _ => false) (Nat.le_refl bound) (Nat.le_refl bound) t ts stop hfaces hlength

/-- Whatever the tokens are, they are parsed without a look beyond the tape, and no bound is used
up. -/
theorem exists_renders_parse (tokens : List Token) :
    ∃ run, Reader.parse tokens = some run ∧
      run.Renders (ofTokens tokens) (Cursor.ofTokens tokens).ahead (Cursor.ofTokens tokens).stop 0
        (Parser.program (Cursor.ofTokens tokens).ahead) := by
  have hshows := shows_ofTokens tokens
  apply agrees_program _ (ofTokens tokens) _ _ ⟨_, hshows, rfl, rfl⟩
  obtain ⟨behind, htokens⟩ := hshows.tokens
  rw [htokens]
  simp
  omega

end Treewalk.Tape
