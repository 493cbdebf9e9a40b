import Treewalk.Parser.Statement
import Treewalk.Proofs.Tape

/-!
# Parsing from a tape

The parser as a program that moves along a tape. It looks at tokens by their index only, its loops
and recursions take a bound, and there is no run where an index is out of range or a bound is used
up. Recovery drops tokens one by one.

A run keeps an account of what happens on the way: each slot for a declaration that was opened, with
the indices between which it lies and what it adds to the statements gathered before it, and each
invalid target. An error stands at an index.

Main definition: `Tape.Reader.parse`.
-/

namespace Treewalk.Tape

/-- A fault, with the token at which it was found and the index of that token. -/
structure Error where
  fault : SyntaxFault
  token : Token
  index : Nat

/-- A slot for a declaration, from `start` up to `stop`. -/
structure Slot where
  start : Nat
  stop : Nat
  /-- The statements gathered in front of the slot, and those gathered behind it. -/
  before : List Stmt
  after : List Stmt
  /-- The error that the slot was given up over. -/
  error : Option Error

inductive Event
  /-- A slot was left. -/
  | slot (s : Slot)
  /-- An invalid target was reported, at the equals sign. -/
  | invalid (e : Error)

structure Run (α : Type) where
  outcome : Except Error α
  events : List Event
  tape : Tape

def Event.error? : Event → Option Error
  | slot s => s.error
  | invalid e => some e

def Event.slot? : Event → Option Slot
  | slot s => some s
  | invalid _ => none

namespace Run

variable {α : Type}

/-- All errors reported, in the order in which they were. -/
def errors (run : Run α) : List Error :=
  run.events.filterMap Event.error?

/-- All slots opened, in the order in which they were left. -/
def slots (run : Run α) : List Slot :=
  run.events.filterMap Event.slot?

end Run

/-- There is no run where an index is out of range or a bound is used up. -/
def Reader (α : Type) : Type :=
  Tape → Option (Run α)

namespace Reader

variable {α : Type}

instance : Monad Reader where
  pure a t := some ⟨.ok a, [], t⟩
  bind q f t :=
    match q t with
    | none => none
    | some ⟨.error e, events, t⟩ => some ⟨.error e, events, t⟩
    | some ⟨.ok a, events, t⟩ =>
      (f a t).map fun later => { later with events := events ++ later.events }

/-! ## Moving along the tape -/

def usedUp : Reader α :=
  fun _ => none

def peek : Reader Token :=
  fun t => t.peek?.map fun token => ⟨.ok token, [], t⟩

def previous : Reader Token :=
  fun t => t.previous?.map fun token => ⟨.ok token, [], t⟩

def atEnd : Reader Bool :=
  fun t => t.isAtEnd?.map fun atEnd => ⟨.ok atEnd, [], t⟩

def advance : Reader Token :=
  fun t => t.advance?.map fun (token, t) => ⟨.ok token, [], t⟩

def place : Reader Nat :=
  fun t => some ⟨.ok t.index, [], t⟩

/-- Gives up at the next token. -/
def raise (fault : SyntaxFault) : Reader α :=
  fun t => t.peek?.map fun token => ⟨.error ⟨fault, token, t.index⟩, [], t⟩

def report (e : Error) : Reader Unit :=
  fun t => some ⟨.ok (), [.invalid e], t⟩

def check (wanted : Token → Bool) : Reader Bool := do
  return wanted (← peek)

/-- Takes the next token if it is as wanted. -/
def eat (wanted : Token → Bool) : Reader Bool := do
  if ← check wanted then
    let _ ← advance
    return true
  else return false

/-- The same, with the token taken. -/
def take? (wanted : Token → Bool) : Reader (Option Token) := do
  if ← eat wanted then some <$> previous else return none

def expect (wanted : Token → Bool) (fault : SyntaxFault) : Reader Token := do
  if ← check wanted then advance else raise fault

def expectMark (m : Mark) (after : Phrase) : Reader Unit := do
  let _ ← expect (Token.isMark m) (.missing m after)

/-! ## Expressions -/

/-- An expression of one token. -/
def leaf (e : Expr) : Reader Expr := do
  let _ ← advance
  return e

def primary (nested : Reader Expr) : Reader Expr := do
  let token ← peek
  match token.literal? with
  | some value => leaf (.literal value)
  | none =>
    match token.kind with
    | .keyword .kwTrue => leaf (.literal (.bool true))
    | .keyword .kwFalse => leaf (.literal (.bool false))
    | .keyword .kwNil => leaf (.literal .nil)
    | .identifier => leaf (.variable token)
    | .mark .leftParen =>
      let _ ← advance
      let inner ← nested
      expectMark .rightParen .expression
      return .grouping inner
    | _ => raise .missingExpression

def unary (nested : Reader Expr) : Nat → Reader Expr
  | 0 => usedUp
  | bound + 1 => do
    match ← take? Token.isUnary with
    | none => primary nested
    | some operator =>
      let operand ← unary nested bound
      return .unary operator operand

def operations (level : Level) (operand : Reader Expr) : Nat → Expr → Reader Expr
  | 0, _ => usedUp
  | bound + 1, left => do
    match ← take? level.isOperator with
    | none => return left
    | some operator =>
      let right ← operand
      operations level operand bound (level.node left operator right)

def binary (bound : Nat) (operand : Reader Expr) : List Level → Reader Expr
  | [] => operand
  | level :: tighter => do
    let left ← binary bound operand tighter
    operations level (binary bound operand tighter) bound left

def assignment (bound : Nat) (nested : Reader Expr) : Reader Expr := do
  let left ← binary bound (unary nested bound) Level.all
  let index ← place
  match ← take? (Token.isMark .equal) with
  | none => return left
  | some equals =>
    let value ← nested
    match left with
    | .variable name => return .assign name value
    | _ =>
      report ⟨.invalidTarget, equals, index⟩
      return left

def expression : Nat → Reader Expr
  | 0 => usedUp
  | bound + 1 => assignment (bound + 1) (expression bound)

/-! ## Statements -/

section

variable (expr : Reader Expr) (stmt : Reader Stmt)

def expressionStatement : Reader Stmt := do
  let e ← expr
  expectMark .semicolon .expression
  return .expression e

def printStatement : Reader Stmt := do
  let e ← expr
  expectMark .semicolon .value
  return .print e

def variableDeclaration : Reader Stmt := do
  let name ← expect (fun t => t.kind = .identifier) .missingName
  let initializer ←
    if ← eat (Token.isMark .equal) then some <$> expr else pure none
  expectMark .semicolon .variableDeclaration
  return .declare name initializer

def ifStatement : Reader Stmt := do
  expectMark .leftParen .ifWord
  let condition ← expr
  expectMark .rightParen .ifCondition
  let yes ← stmt
  if ← eat (Token.isKeyword .kwElse) then return .ifThenElse condition yes (← stmt)
  else return .ifThen condition yes

def whileStatement : Reader Stmt := do
  expectMark .leftParen .whileWord
  let condition ← expr
  expectMark .rightParen .condition
  return .loop condition (← stmt)

def forInitializer : Reader (Option Stmt) := do
  if ← eat (Token.isMark .semicolon) then return none
  else do
    if ← eat (Token.isKeyword .kwVar) then some <$> variableDeclaration expr
    else some <$> expressionStatement expr

def forClause (close : Mark) : Reader (Option Expr) := do
  if ← check (Token.isMark close) then return none else some <$> expr

def forStatement : Reader Stmt := do
  expectMark .leftParen .forWord
  let initializer ← forInitializer expr
  let condition ← forClause expr .semicolon
  expectMark .semicolon .loopCondition
  let increment ← forClause expr .rightParen
  expectMark .rightParen .forClauses
  let body ← stmt
  return Parser.forLoop initializer condition increment body

def declaration : Reader Stmt := do
  if ← eat (Token.isKeyword .kwVar) then variableDeclaration expr else stmt

end

/-! ## Slots -/

/-- Drops tokens up to just behind a semicolon or up to a token that starts a statement. -/
def dropUntilStart : Nat → Reader Unit
  | 0 => usedUp
  | bound + 1 => do
    if ← atEnd then return ()
    else do
      if (← previous).isMark .semicolon then return ()
      else do
        if (← peek).startsStatement then return ()
        else do
          let _ ← advance
          dropUntilStart bound

def resume (bound : Nat) : Reader Unit := do
  let _ ← advance
  dropUntilStart bound

/-- Reads one declaration behind the statements gathered before it, or recovers from it. -/
def slot (bound : Nat) (one : Reader Stmt) (before : List Stmt) : Reader (List Stmt) := fun t =>
  match one t with
  | none => none
  | some ⟨.ok s, events, t'⟩ =>
    let left : Slot := ⟨t.index, t'.index, before, before ++ [s], none⟩
    some ⟨.ok left.after, events ++ [.slot left], t'⟩
  | some ⟨.error e, events, t'⟩ =>
    (resume bound t').map fun resumed =>
      let left : Slot := ⟨t.index, resumed.tape.index, before, before, some e⟩
      ⟨.ok left.after, events ++ [.slot left], resumed.tape⟩

/-- Slot after slot, up to a token that closes them or to the end. -/
def declarations (closes : Token → Bool) (one : Reader Stmt) :
    Nat → List Stmt → Reader (List Stmt)
  | 0, _ => usedUp
  | bound + 1, gathered => do
    if ← check closes then return gathered
    else do
      if ← atEnd then return gathered
      else do
        let gathered ← slot (bound + 1) one gathered
        declarations closes one bound gathered

def block (bound : Nat) (expr : Reader Expr) (stmt : Reader Stmt) : Reader Stmt := do
  let body ← declarations (Token.isMark .rightBrace) (declaration expr stmt) bound []
  expectMark .rightBrace .block
  return .block body

def statement : Nat → Reader Stmt
  | 0 => usedUp
  | bound + 1 => do
    let expr := expression (bound + 1)
    let stmt := statement bound
    if ← eat (Token.isKeyword .kwFor) then forStatement expr stmt
    else do
      if ← eat (Token.isKeyword .kwIf) then ifStatement expr stmt
      else do
        if ← eat (Token.isKeyword .kwPrint) then printStatement expr
        else do
          if ← eat (Token.isKeyword .kwWhile) then whileStatement expr stmt
          else do
            if ← eat (Token.isMark .leftBrace) then block bound expr stmt
            else expressionStatement expr

/-- All declarations up to the first closing token. -/
def program (bound : Nat) : Reader (List Stmt) :=
  declarations (fun _ => false) (declaration (expression bound) (statement bound)) bound []

/-- Parses a token list, with the number of tokens on the tape as the bound. -/
def parse (tokens : List Token) : Option (Run (List Stmt)) :=
  program (ofTokens tokens).tokens.length (ofTokens tokens)

end Reader

end Treewalk.Tape
