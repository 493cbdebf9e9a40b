import Treewalk.Parser.Expression
import Treewalk.Token.Cursor

/-!
# Parsing statements

A program is a list of declarations. A declaration with a fault is reported, left out of the
result, and parsing resumes behind it; this holds within blocks too. There is no tree for
`for`: it is a loop, inside a block where it has an initializer.

Main definition: `Program.ofTokens`.
-/

namespace Treewalk

namespace Parser

/-! ## Single statements

`expr` reads an expression and `stmt` a nested statement. -/

def expressionStatement (expr : Parser Expr) : Parser Stmt := do
  let e ← expr
  expectMark .semicolon .expression
  return .expression e

def printStatement (expr : Parser Expr) : Parser Stmt := do
  let e ← expr
  expectMark .semicolon .value
  return .print e

/-- The rest of a declaration of a variable, behind its keyword. -/
def variableDeclaration (expr : Parser Expr) : Parser Stmt := do
  let name ← expect (fun t => t.kind = .identifier) .missingName
  let initializer ←
    match ← take? (Token.isMark .equal) with
    | none => pure none
    | some _ => some <$> expr
  expectMark .semicolon .variableDeclaration
  return .declare name initializer

def ifStatement (expr : Parser Expr) (stmt : Parser Stmt) : Parser Stmt := do
  expectMark .leftParen .ifWord
  let condition ← expr
  expectMark .rightParen .ifCondition
  let yes ← stmt
  match ← take? (Token.isKeyword .kwElse) with
  | none => return .ifThen condition yes
  | some _ => return .ifThenElse condition yes (← stmt)

def whileStatement (expr : Parser Expr) (stmt : Parser Stmt) : Parser Stmt := do
  expectMark .leftParen .whileWord
  let condition ← expr
  expectMark .rightParen .condition
  return .loop condition (← stmt)

/-- The loop that a `for` stands for. -/
def forLoop (initializer : Option Stmt) (condition increment : Option Expr) (body : Stmt) :
    Stmt :=
  let body :=
    match increment with
    | none => body
    | some e => .block [body, .expression e]
  let loop := .loop (condition.getD (.literal (.bool true))) body
  match initializer with
  | none => loop
  | some first => .block [first, loop]

def forInitializer (expr : Parser Expr) : Parser (Option Stmt) := do
  match ← take? (Token.isMark .semicolon) with
  | some _ => return none
  | none =>
    match ← take? (Token.isKeyword .kwVar) with
    | some _ => some <$> variableDeclaration expr
    | none => some <$> expressionStatement expr

/-- An expression, unless the mark that closes the clause comes first. -/
def forClause (close : Mark) (expr : Parser Expr) : Parser (Option Expr) := do
  if ← isAt close then return none
  else some <$> expr

def forStatement (expr : Parser Expr) (stmt : Parser Stmt) : Parser Stmt := do
  expectMark .leftParen .forWord
  let initializer ← forInitializer expr
  let condition ← forClause .semicolon expr
  expectMark .semicolon .loopCondition
  let increment ← forClause .rightParen expr
  expectMark .rightParen .forClauses
  let body ← stmt
  return forLoop initializer condition increment body

/-! ## Declarations -/

/-- A declaration of a variable or a statement. -/
def declaration (expr : Parser Expr) (stmt : Parser Stmt) : Parser Stmt := do
  match ← take? (Token.isKeyword .kwVar) with
  | some _ => variableDeclaration expr
  | none => stmt

/-- Declarations up to a token that closes them or to the end, at most `bound` of them; those
with a fault are left out. -/
def declarations (closes : Token → Bool) (one : Parser Stmt) : Nat → Parser (List Stmt)
  | 0 => pure []
  | bound + 1 => fun ts =>
    match ts with
    | [] => (pure [] : Parser _) []
    | t :: _ =>
      if closes t then (pure [] : Parser _) ts
      else
        (do
          let first ← recover one
          let others ← declarations closes one bound
          return first.toList ++ others : Parser _) ts

/-- Faults are left out, so a list of declarations is read in any case. -/
theorem exists_outcome_declarations (closes : Token → Bool) (one : Parser Stmt) (bound : Nat)
    (ts : List Token) : ∃ stmts, (declarations closes one bound ts).outcome = .ok stmts := by
  induction bound generalizing ts with
  | zero => exact ⟨[], rfl⟩
  | succ bound ih =>
    match ts with
    | [] => exact ⟨[], rfl⟩
    | t :: ts =>
      unfold declarations
      by_cases h : closes t
      · exact ⟨[], by simp [h, pure]⟩
      · obtain ⟨first, hf⟩ := exists_outcome_recover one (t :: ts)
        obtain ⟨others, ho⟩ := ih (recover one (t :: ts)).rest
        exact ⟨first.toList ++ others, by simp [h, bind, pure, hf, ho]⟩

/-- The rest of a block, behind its opening brace. -/
def block (bound : Nat) (expr : Parser Expr) (stmt : Parser Stmt) : Parser Stmt := do
  let body ← declarations (Token.isMark .rightBrace) (declaration expr stmt) bound
  expectMark .rightBrace .block
  return .block body

/-- A statement, for token lists shorter than the bound. -/
def statement : Nat → Parser Stmt
  | 0 => fail .missingExpression
  | bound + 1 => fun ts =>
    let expr := expression (bound + 1)
    let stmt := statement bound
    match ts with
    | [] => expressionStatement expr []
    | t :: rest =>
      match t.kind with
      | .keyword .kwFor => forStatement expr stmt rest
      | .keyword .kwIf => ifStatement expr stmt rest
      | .keyword .kwPrint => printStatement expr rest
      | .keyword .kwWhile => whileStatement expr stmt rest
      | .mark .leftBrace => block bound expr stmt rest
      | _ => expressionStatement expr (t :: rest)

/-- All declarations of a token list without a closing token. -/
def program (ts : List Token) : Reply (List Stmt) :=
  let bound := ts.length + 1
  declarations (fun _ => false) (declaration (expression bound) (statement bound)) bound ts

end Parser

/-- A parsed token list: the statements without a fault, and the errors in the order in
which they were reported, each with its token. -/
structure Program where
  statements : List Stmt
  errors : List (SyntaxFault × Token)

namespace Program

/-- Parses the tokens up to the first closing one. -/
def ofTokens (tokens : List Token) : Program :=
  let cursor := Cursor.ofTokens tokens
  let reply := Parser.program cursor.ahead
  { statements := reply.outcome.toOption.getD []
    errors := reply.errors.map fun e => (e.fault, e.token cursor.stop) }

end Program

end Treewalk
