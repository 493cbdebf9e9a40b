import Treewalk.Parser.Fault

/-!
# Parsers

A parser reads from the front of a token list that holds no closing token. Its reply is a
value or a fault, the errors that it reported without giving up, and the tokens left. A fault
stands where the tokens left begin.
-/

namespace Treewalk

structure Reply (α : Type) where
  outcome : Except SyntaxFault α
  errors : List SyntaxError
  rest : List Token

/-- The same reply with its value mapped. -/
def Reply.map {α β : Type} (f : α → β) (r : Reply α) : Reply β :=
  ⟨r.outcome.map f, r.errors, r.rest⟩

def Parser (α : Type) : Type :=
  List Token → Reply α

namespace Parser

variable {α : Type}

instance : Monad Parser where
  pure a ts := ⟨.ok a, [], ts⟩
  bind p f ts :=
    let r := p ts
    match r.outcome with
    | .error fault => ⟨.error fault, r.errors, r.rest⟩
    | .ok a =>
      let r' := f a r.rest
      ⟨r'.outcome, r.errors ++ r'.errors, r'.rest⟩

/-- Gives up at the next token. -/
def fail (fault : SyntaxFault) : Parser α :=
  fun ts => ⟨.error fault, [], ts⟩

/-- Reports an error and goes on. -/
def report (e : SyntaxError) : Parser Unit :=
  fun ts => ⟨.ok (), [e], ts⟩

/-- The tokens ahead. -/
def ahead : Parser (List Token) :=
  fun ts => ⟨.ok ts, [], ts⟩

/-- Takes the next token if it is as wanted. -/
def take? (wanted : Token → Bool) : Parser (Option Token)
  | [] => ⟨.ok none, [], []⟩
  | t :: ts => if wanted t then ⟨.ok (some t), [], ts⟩ else ⟨.ok none, [], t :: ts⟩

/-- Takes the next token, which has to be as wanted. -/
def expect (wanted : Token → Bool) (fault : SyntaxFault) : Parser Token
  | [] => ⟨.error fault, [], []⟩
  | t :: ts => if wanted t then ⟨.ok t, [], ts⟩ else ⟨.error fault, [], t :: ts⟩

/-- Takes a mark, which has to stand behind `after`. -/
def expectMark (m : Mark) (after : Phrase) : Parser Unit := do
  let _ ← expect (Token.isMark m) (.missing m after)

/-- Whether the next token is a certain mark. -/
def isAt (m : Mark) : Parser Bool
  | [] => ⟨.ok false, [], []⟩
  | t :: ts => ⟨.ok (t.isMark m), [], t :: ts⟩

/-! ## Recovery -/

/-- Drops tokens, `last` being the latest dropped, up to just behind a semicolon or up to a
token that starts a statement. -/
def dropUntilStart (last : Token) : List Token → List Token
  | [] => []
  | t :: ts =>
    if last.isMark .semicolon || t.startsStatement then t :: ts else dropUntilStart t ts

/-- Where to go on after a fault: at least one token is dropped, if there is one. -/
def resume : List Token → List Token
  | [] => []
  | t :: ts => dropUntilStart t ts

/-- Turns a fault into a reported error, and goes on behind it without a value. -/
def recover (p : Parser α) : Parser (Option α) :=
  fun ts =>
    let r := p ts
    match r.outcome with
    | .ok a => ⟨.ok (some a), r.errors, r.rest⟩
    | .error fault => ⟨.ok none, r.errors ++ [⟨fault, r.rest⟩], resume r.rest⟩

/-- Recovery leaves no fault. -/
theorem exists_outcome_recover (p : Parser α) (ts : List Token) :
    ∃ a, (recover p ts).outcome = .ok a := by
  simp only [recover]
  split <;> exact ⟨_, rfl⟩

/-- Dropping tokens keeps the end of the list. -/
theorem dropUntilStart_suffix (last : Token) (ts : List Token) :
    dropUntilStart last ts <:+ ts := by
  induction ts generalizing last with
  | nil => exact List.suffix_refl _
  | cons t ts ih =>
    unfold dropUntilStart
    split
    · exact List.suffix_refl _
    · exact (ih t).trans (List.suffix_cons t ts)

/-- Going on after a fault drops at least one token. -/
theorem length_resume_lt (t : Token) (ts : List Token) :
    (resume (t :: ts)).length < (t :: ts).length :=
  Nat.lt_succ_of_le (dropUntilStart_suffix t ts).length_le

end Parser

end Treewalk
