import Treewalk.Proofs.Parser.Yields

/-!
# Where a parser fails

An error is fatal unless it is an invalid target. `Fails p ts e` says that `e` is the first fatal
error of the parser `p` on the tokens `ts`, whether `p` gave up over it or some part of `p` did and
recovered. A run that does not fail yields a value under `Rules.relaxed`, as far as it has one.

* As for `Yields`, each way to build a parser has one lemma (`fails_bind`, `fails_expect`, ...).
* `fails_recover`: recovery comes behind the first fatal error, so it does not change that error.
* `primary_eq`, `unary_eq`, `statement_succ`: the parsers that look at the next token by
  themselves are choices by `take?`.
-/

namespace Treewalk

open Grammar

def SyntaxError.isFatal (e : SyntaxError) : Bool :=
  e.fault ≠ .invalidTarget

theorem SyntaxError.isFatal_iff {e : SyntaxError} :
    e.isFatal = true ↔ ¬ Rules.relaxed.Tolerates e := by
  simp [isFatal, Rules.Tolerates, Rules.relaxed]

/-- All errors of a run, with the one that it gave up over at the end. -/
def Reply.reported {α : Type} (r : Reply α) : List SyntaxError :=
  match r.outcome with
  | .ok _ => r.errors
  | .error fault => r.errors ++ [⟨fault, r.rest⟩]

namespace Parser

variable {α β : Type} {p : Parser α} {ts rest : List Token} {e : SyntaxError}

def Fails (p : Parser α) (ts : List Token) (e : SyntaxError) : Prop :=
  (p ts).reported.find? SyntaxError.isFatal = some e

theorem yields_relaxed_iff {a : α} :
    Yields .relaxed p ts a rest ↔ (p ts).outcome = .ok a ∧ (p ts).rest = rest ∧
      (p ts).errors.find? SyntaxError.isFatal = none := by
  simp only [Yields, List.find?_eq_none, SyntaxError.isFatal_iff, Classical.not_not]

theorem Yields.not_fails {a : α} (h : Yields .relaxed p ts a rest) : ¬ Fails p ts e := by
  obtain ⟨hout, -, hnone⟩ := yields_relaxed_iff.mp h
  simp [Fails, Reply.reported, hout, hnone]

/-! ## Building blocks -/

theorem fails_pure {a : α} : ¬ Fails (pure a) ts e := by
  simp [Fails, Reply.reported, pure]

theorem fails_fail {fault : SyntaxFault} (h : fault ≠ .invalidTarget) :
    Fails (fail fault : Parser α) ts e ↔ ⟨fault, ts⟩ = e := by
  simp [Fails, Reply.reported, fail, SyntaxError.isFatal, h]

theorem fails_bind {f : α → Parser β} :
    Fails (p >>= f) ts e ↔
      Fails p ts e ∨ ∃ a mid, Yields .relaxed p ts a mid ∧ Fails (f a) mid e := by
  simp only [yields_relaxed_iff]
  cases hout : (p ts).outcome with
  | error fault => simp [Fails, Reply.reported, bind, hout]
  | ok a =>
    have hreported : ((p >>= f) ts).reported =
        (p ts).errors ++ (f a (p ts).rest).reported := by
      simp only [Reply.reported, bind, hout]
      split <;> simp
    have hfirst : (p ts).reported = (p ts).errors := by simp only [Reply.reported, hout]
    simp only [Fails, hreported, hfirst, List.find?_append, Except.ok.injEq]
    cases (p ts).errors.find? SyntaxError.isFatal with
    | none =>
      constructor
      · exact fun h => .inr ⟨a, _, ⟨rfl, rfl, rfl⟩, h⟩
      · rintro (h | ⟨_, _, ⟨rfl, rfl, -⟩, h⟩)
        · cases h
        · exact h
    | some e' =>
      constructor
      · exact .inl
      · rintro (h | ⟨_, _, ⟨-, -, h⟩, -⟩)
        · exact h
        · cases h

theorem fails_map {f : α → β} : Fails (f <$> p) ts e ↔ Fails p ts e := by
  change Fails (p >>= fun a => pure (f a)) ts e ↔ _
  simp [fails_bind, fails_pure]

theorem fails_report {place : List Token} : ¬ Fails (report ⟨.invalidTarget, place⟩) ts e := by
  simp [Fails, Reply.reported, report, SyntaxError.isFatal]

theorem fails_ahead : ¬ Fails ahead ts e := by
  simp [Fails, Reply.reported, ahead]

theorem fails_ahead_bind {f : List Token → Parser β} :
    Fails (ahead >>= f) ts e ↔ Fails (f ts) ts e := by
  simp [fails_bind, fails_ahead, yields_ahead, and_assoc]

theorem fails_take? {wanted : Token → Bool} : ¬ Fails (take? wanted) ts e := by
  cases ts with
  | nil => simp [Fails, Reply.reported, take?]
  | cons t ts => by_cases h : wanted t = true <;> simp [Fails, Reply.reported, take?, h]

theorem fails_expect {wanted : Token → Bool} {fault : SyntaxFault} (h : fault ≠ .invalidTarget) :
    Fails (expect wanted fault) ts e ↔ ¬ Starts wanted ts ∧ ⟨fault, ts⟩ = e := by
  cases ts with
  | nil => simp [Fails, Reply.reported, expect, SyntaxError.isFatal, h]
  | cons t ts =>
    by_cases hw : wanted t = true <;>
      simp [Fails, Reply.reported, expect, SyntaxError.isFatal, h, hw]

theorem fails_isAt {m : Mark} : ¬ Fails (isAt m) ts e := by
  cases ts <;> simp [Fails, Reply.reported, isAt]

/-! ## Recovery -/

theorem fails_recover : Fails (recover p) ts e ↔ Fails p ts e := by
  simp only [Fails, Reply.reported, recover]
  cases (p ts).outcome <;> simp

/-- Without a failure, a round of the loop is a declaration and the rounds behind it. -/
theorem yields_declarations_round {g : Rules} {closes : Token → Bool} {one : Parser Stmt}
    {bound : Nat} {stmts : List Stmt} :
    Yields g (one >>= fun s => List.cons s <$> declarations closes one bound) ts stmts rest ↔
      ∃ s mid others, Yields g one ts s mid ∧
        Yields g (declarations closes one bound) mid others rest ∧ stmts = s :: others := by
  simp only [yields_bind, yields_map]
  constructor
  · rintro ⟨s, mid, hs, others, hothers, rfl⟩
    exact ⟨s, mid, others, hs, hothers, rfl⟩
  · rintro ⟨s, mid, others, hs, hothers, rfl⟩
    exact ⟨s, mid, hs, others, hothers, rfl⟩

theorem fails_declarations_succ {P : Token → Prop} {Q : Stmt → Prop} {closes : Token → Bool}
    {one : Parser Stmt} (hone : Reads P one Q) (hts : ∀ t ∈ ts, P t) {bound : Nat} :
    Fails (declarations closes one (bound + 1)) ts e ↔
      ts ≠ [] ∧ ¬ Starts closes ts ∧
        Fails (one >>= fun s => List.cons s <$> declarations closes one bound) ts e := by
  cases ts with
  | nil => simp [Fails, Reply.reported, declarations, pure]
  | cons t ts =>
    by_cases hc : closes t = true
    · simp [Fails, Reply.reported, declarations, pure, hc]
    · have hread : Fails (declarations closes one (bound + 1)) (t :: ts) e ↔
          Fails (recover one >>= fun first => do
            let others ← declarations closes one bound
            return first.toList ++ others) (t :: ts) e := by
        simp only [Fails, declarations, if_neg hc]
      simp only [hread, fails_bind, fails_map, fails_pure, fails_recover,
        yields_recover hone hts, starts_cons, hc]
      constructor
      · rintro (h | ⟨_, mid, ⟨s, rfl, hs⟩, h⟩)
        · exact ⟨by simp, by simp, .inl h⟩
        · exact ⟨by simp, by simp, .inr ⟨s, mid, hs, by simpa using h⟩⟩
      · rintro ⟨-, -, h | ⟨s, mid, hs, h⟩⟩
        · exact .inl h
        · exact .inr ⟨some s, mid, ⟨s, rfl, hs⟩, by simpa using h⟩

theorem fails_program :
    Fails program ts e ↔
      Fails (declarations (fun _ => false)
        (declaration (expression (ts.length + 1)) (statement (ts.length + 1)))
        (ts.length + 1)) ts e := by
  simp only [Fails, program]

/-! ## Choices by the next token -/

def opensPrimary (t : Token) : Bool :=
  (literalValue? t.kind).isSome || t.kind = .identifier || t.isMark .leftParen

/-- A primary expression behind its first token. -/
def primaryBehind (nested : Parser Expr) (t : Token) : Parser Expr :=
  match literalValue? t.kind with
  | some value => pure (.literal value)
  | none =>
    if t.kind = .identifier then pure (.variable t)
    else do
      let inner ← nested
      expectMark .rightParen .expression
      return .grouping inner

theorem primary_eq (nested : Parser Expr) :
    primary nested = take? opensPrimary >>= fun
      | none => fail .missingExpression
      | some t => primaryBehind nested t := by
  funext ts
  cases ts with
  | nil => rfl
  | cons t ts =>
    obtain ⟨kind, lexeme, line⟩ := t
    cases kind with
    | mark m => cases m <;> rfl
    | keyword k => cases k <;> rfl
    | identifier | number | string | eof => rfl

theorem unary_eq (nested : Parser Expr) :
    unary nested = take? Token.isUnary >>= fun
      | none => primary nested
      | some t => Expr.unary t <$> unary nested := by
  funext ts
  cases ts with
  | nil => rfl
  | cons t ts =>
    by_cases h : t.isUnary = true
    · simp only [unary, h, take?, bind, if_true, Functor.map, Reply.map]
      cases (unary nested ts).outcome <;> simp [Except.map, Function.comp]
    · simp [unary, h, take?, bind]

def opensCompound (t : Token) : Bool :=
  match t.kind with
  | .keyword .kwFor | .keyword .kwIf | .keyword .kwPrint | .keyword .kwWhile => true
  | .mark .leftBrace => true
  | _ => false

/-- A statement behind the token that says which it is. -/
def compoundBehind (bound : Nat) (expr : Parser Expr) (stmt : Parser Stmt) (t : Token) :
    Parser Stmt :=
  match t.kind with
  | .keyword .kwFor => forStatement expr stmt
  | .keyword .kwIf => ifStatement expr stmt
  | .keyword .kwPrint => printStatement expr
  | .keyword .kwWhile => whileStatement expr stmt
  | _ => block bound expr stmt

theorem statement_succ (bound : Nat) :
    statement (bound + 1) = take? opensCompound >>= fun
      | none => expressionStatement (expression (bound + 1))
      | some t => compoundBehind bound (expression (bound + 1)) (statement bound) t := by
  funext ts
  cases ts with
  | nil => rfl
  | cons t ts =>
    obtain ⟨kind, lexeme, line⟩ := t
    cases kind with
    | mark m => cases m <;> rfl
    | keyword k => cases k <;> rfl
    | identifier | number | string | eof => rfl

end Parser

end Treewalk
