import Treewalk.Tree

/-!
# The grammar of programs

The grammar says which token lists are programs, and which trees they have. A derivation is
written `Expression g tier ts e`, `Statement g hanging ts s` or `Declarations g ts stmts`: the
tokens `ts` are a phrase of that sort, with the tree behind them.

    program     = declaration*
    declaration = 'var' IDENT ('=' expression)? ';' | statement
    statement   = for | if | print | while | '{' declaration* '}' | expression ';'
    expression  = IDENT '=' expression | or
    unary       = ('!' | '-') unary | primary
    primary     = NUMBER | STRING | 'true' | 'false' | 'nil' | IDENT | '(' expression ')'

Between `or` and `unary` stand the binary tiers, each of which is
`tier = tier operator tighter | tighter`, so that operations group to the left. Nothing is
ambiguous but an `else` behind two or more `if`s. The second argument of `Statement` says whether
a statement is *hanging*: whether it ends in an `if` that an `else` behind it could join.

`Rules` holds the two choices that are made differently below.

* `Rules.plain`: the grammar as it is written above. An `else` may join any `if`.
* `Rules.nearest`: an `else` joins the nearest `if`, so that no hanging statement stands before
  an `else`.
* `Rules.relaxed`: `expression = or ('=' expression)?`, where a left side that is no name stands
  for the whole.
-/

namespace Treewalk.Grammar

/-- The choices that a grammar leaves open. -/
structure Rules where
  /-- Whether something other than a name may stand before an equals sign. -/
  anyTarget : Prop
  /-- Whether an `else` may stand behind a statement that could have taken it. -/
  anyElse : Prop

namespace Rules

def plain : Rules := ⟨False, True⟩

def nearest : Rules := ⟨False, False⟩

def relaxed : Rules := ⟨True, True⟩

end Rules

/-! ## Expressions -/

/-- The sorts of expressions, the loosest first. -/
inductive Tier
  | assignment | or | and | equality | comparison | term | factor | unary | primary
  deriving DecidableEq

namespace Tier

/-- The operators that join two operands on a tier; only the binary tiers have any. -/
def operators : Tier → List TokenKind
  | or => [.keyword .kwOr]
  | and => [.keyword .kwAnd]
  | equality => [.mark .bangEqual, .mark .equalEqual]
  | comparison => [.mark .greater, .mark .greaterEqual, .mark .less, .mark .lessEqual]
  | term => [.mark .minus, .mark .plus]
  | factor => [.mark .slash, .mark .star]
  | assignment | unary | primary => []

/-- The next tier that binds tighter. None binds tighter than `primary`. -/
def tighter : Tier → Tier
  | assignment => or
  | or => and
  | and => equality
  | equality => comparison
  | comparison => term
  | term => factor
  | factor => unary
  | unary | primary => primary

/-- The node that an operation of a tier builds. -/
def node : Tier → Expr → Token → Expr → Expr
  | or | and => .logical
  | _ => .binary

end Tier

/-- The operators that stand before their operand. -/
def prefixOperators : List TokenKind := [.mark .bang, .mark .minus]

/-- The value of a token that is a literal. -/
def literalValue? : TokenKind → Option Value
  | .number x => some (.number x)
  | .string s => some (.string s)
  | .keyword .kwTrue => some (.bool true)
  | .keyword .kwFalse => some (.bool false)
  | .keyword .kwNil => some .nil
  | _ => none

inductive Expression (g : Rules) : Tier → List Token → Expr → Prop
  /-- `IDENT '=' expression` -/
  | assign {name equal : Token} {value : List Token} {e : Expr}
      (hname : name.kind = .identifier) (hequal : equal.kind = .mark .equal)
      (hvalue : Expression g .assignment value e) :
      Expression g .assignment (name :: equal :: value) (.assign name e)
  /-- Another left side stands for the whole, where the rules admit one. -/
  | invalid {equal : Token} {target value : List Token} {l e : Expr}
      (hg : g.anyTarget) (htarget : Expression g .or target l)
      (hl : ∀ name, l ≠ .variable name) (hequal : equal.kind = .mark .equal)
      (hvalue : Expression g .assignment value e) :
      Expression g .assignment (target ++ equal :: value) l
  /-- `tier operator tighter` -/
  | operation {tier : Tier} {left right : List Token} {operator : Token} {l r : Expr}
      (hleft : Expression g tier left l) (hop : operator.kind ∈ tier.operators)
      (hright : Expression g tier.tighter right r) :
      Expression g tier (left ++ operator :: right) (tier.node l operator r)
  | ofTighter {tier : Tier} {ts : List Token} {e : Expr}
      (h : Expression g tier.tighter ts e) : Expression g tier ts e
  /-- `('!' | '-') unary` -/
  | unary {operator : Token} {ts : List Token} {e : Expr}
      (hop : operator.kind ∈ prefixOperators) (h : Expression g .unary ts e) :
      Expression g .unary (operator :: ts) (.unary operator e)
  | literal {t : Token} {value : Value} (h : literalValue? t.kind = some value) :
      Expression g .primary [t] (.literal value)
  | variable {t : Token} (h : t.kind = .identifier) : Expression g .primary [t] (.variable t)
  /-- `'(' expression ')'` -/
  | grouping {opening closing : Token} {ts : List Token} {e : Expr}
      (hopen : opening.kind = .mark .leftParen) (h : Expression g .assignment ts e)
      (hclose : closing.kind = .mark .rightParen) :
      Expression g .primary (opening :: (ts ++ [closing])) (.grouping e)

/-! ## Simple statements -/

/-- `expression ';'` -/
inductive ExpressionStatement (g : Rules) : List Token → Stmt → Prop
  | intro {ts : List Token} {e : Expr} {semicolon : Token}
      (h : Expression g .assignment ts e) (hs : semicolon.kind = .mark .semicolon) :
      ExpressionStatement g (ts ++ [semicolon]) (.expression e)

/-- `'var' IDENT ('=' expression)? ';'` -/
inductive VariableDeclaration (g : Rules) : List Token → Stmt → Prop
  | bare {keyword name semicolon : Token}
      (hk : keyword.kind = .keyword .kwVar) (hname : name.kind = .identifier)
      (hs : semicolon.kind = .mark .semicolon) :
      VariableDeclaration g [keyword, name, semicolon] (.declare name none)
  | withValue {keyword name equal semicolon : Token} {ts : List Token} {e : Expr}
      (hk : keyword.kind = .keyword .kwVar) (hname : name.kind = .identifier)
      (hequal : equal.kind = .mark .equal) (h : Expression g .assignment ts e)
      (hs : semicolon.kind = .mark .semicolon) :
      VariableDeclaration g (keyword :: name :: equal :: (ts ++ [semicolon]))
        (.declare name (some e))

/-! ## The clauses of `for`

There is no tree for `for`. Each clause says what it makes of the tree that it adds to. -/

/-- The condition, which is `true` where it is left out. -/
inductive Condition (g : Rules) : List Token → Expr → Prop
  | always : Condition g [] (.literal (.bool true))
  | given {ts : List Token} {e : Expr} (h : Expression g .assignment ts e) : Condition g ts e

/-- The increment makes a block of the body and itself. -/
inductive Increment (g : Rules) : List Token → Stmt → Stmt → Prop
  | absent {body : Stmt} : Increment g [] body body
  | given {ts : List Token} {e : Expr} {body : Stmt} (h : Expression g .assignment ts e) :
      Increment g ts body (.block [body, .expression e])

/-- The initializer makes a block of itself and the loop. -/
inductive Initializer (g : Rules) : List Token → Stmt → Stmt → Prop
  | absent {semicolon : Token} {loop : Stmt} (h : semicolon.kind = .mark .semicolon) :
      Initializer g [semicolon] loop loop
  | variable {ts : List Token} {first loop : Stmt} (h : VariableDeclaration g ts first) :
      Initializer g ts loop (.block [first, loop])
  | expression {ts : List Token} {first loop : Stmt} (h : ExpressionStatement g ts first) :
      Initializer g ts loop (.block [first, loop])

/-! ## Statements and programs -/

mutual

inductive Statement (g : Rules) : Bool → List Token → Stmt → Prop
  | expression {ts : List Token} {s : Stmt} (h : ExpressionStatement g ts s) :
      Statement g false ts s
  /-- `'print' expression ';'` -/
  | print {keyword semicolon : Token} {ts : List Token} {e : Expr}
      (hk : keyword.kind = .keyword .kwPrint) (h : Expression g .assignment ts e)
      (hs : semicolon.kind = .mark .semicolon) :
      Statement g false (keyword :: (ts ++ [semicolon])) (.print e)
  /-- `'{' declaration* '}'` -/
  | block {opening closing : Token} {ts : List Token} {body : List Stmt}
      (hopen : opening.kind = .mark .leftBrace) (h : Declarations g ts body)
      (hclose : closing.kind = .mark .rightBrace) :
      Statement g false (opening :: (ts ++ [closing])) (.block body)
  /-- `'while' '(' expression ')' statement` -/
  | loop {keyword opening closing : Token} {cs bs : List Token} {c : Expr} {body : Stmt}
      {hanging : Bool} (hk : keyword.kind = .keyword .kwWhile)
      (hopen : opening.kind = .mark .leftParen) (hc : Expression g .assignment cs c)
      (hclose : closing.kind = .mark .rightParen) (hbody : Statement g hanging bs body) :
      Statement g hanging (keyword :: opening :: (cs ++ closing :: bs)) (.loop c body)
  /-- `'for' '(' initializer condition ';' increment ')' statement` -/
  | forLoop {keyword opening semicolon closing : Token} {is cs ns bs : List Token} {c : Expr}
      {body round whole : Stmt} {hanging : Bool} (hk : keyword.kind = .keyword .kwFor)
      (hopen : opening.kind = .mark .leftParen) (hi : Initializer g is (.loop c round) whole)
      (hc : Condition g cs c) (hs : semicolon.kind = .mark .semicolon)
      (hn : Increment g ns body round) (hclose : closing.kind = .mark .rightParen)
      (hbody : Statement g hanging bs body) :
      Statement g hanging
        (keyword :: opening :: (is ++ (cs ++ semicolon :: (ns ++ closing :: bs)))) whole
  /-- `'if' '(' expression ')' statement` -/
  | ifThen {keyword opening closing : Token} {cs ys : List Token} {c : Expr} {yes : Stmt}
      {hanging : Bool} (hk : keyword.kind = .keyword .kwIf)
      (hopen : opening.kind = .mark .leftParen) (hc : Expression g .assignment cs c)
      (hclose : closing.kind = .mark .rightParen) (hyes : Statement g hanging ys yes) :
      Statement g true (keyword :: opening :: (cs ++ closing :: ys)) (.ifThen c yes)
  /-- `'if' '(' expression ')' statement 'else' statement` -/
  | ifThenElse {keyword opening closing otherwise : Token} {cs ys ns : List Token} {c : Expr}
      {yes no : Stmt} {hangingYes hanging : Bool} (hk : keyword.kind = .keyword .kwIf)
      (hopen : opening.kind = .mark .leftParen) (hc : Expression g .assignment cs c)
      (hclose : closing.kind = .mark .rightParen) (hyes : Statement g hangingYes ys yes)
      (hg : hangingYes = true → g.anyElse) (helse : otherwise.kind = .keyword .kwElse)
      (hno : Statement g hanging ns no) :
      Statement g hanging (keyword :: opening :: (cs ++ closing :: (ys ++ otherwise :: ns)))
        (.ifThenElse c yes no)

/-- `declaration*` -/
inductive Declarations (g : Rules) : List Token → List Stmt → Prop
  | nil : Declarations g [] []
  | variable {ts rest : List Token} {s : Stmt} {stmts : List Stmt}
      (h : VariableDeclaration g ts s) (hrest : Declarations g rest stmts) :
      Declarations g (ts ++ rest) (s :: stmts)
  | statement {ts rest : List Token} {s : Stmt} {stmts : List Stmt} {hanging : Bool}
      (h : Statement g hanging ts s) (hrest : Declarations g rest stmts) :
      Declarations g (ts ++ rest) (s :: stmts)

end

/-- A token list is a sentence if it is a program for some tree. -/
def Sentence (g : Rules) (ts : List Token) : Prop :=
  ∃ stmts, Declarations g ts stmts

end Treewalk.Grammar
