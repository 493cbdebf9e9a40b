import Treewalk.Machine
import Treewalk.Tree

/-!
# The tokens of a tree

A tree holds tokens in four roles: as a binary, a logical or a unary operator, and as a name.
`Stmt.Every P s` says that each token in `s` stands in relation `P` with its role, at every
depth. `Role.kinds` lists the kinds that fit a role; `Role.Fits` is membership in it.

`Stmt.map f` puts `f t` in the place of each token `t`. Trees that differ in nothing but the lines
of their tokens have the same `Stmt.map Token.unplaced`.
-/

namespace Treewalk

inductive Role
  | operator (position : Position)
  | name
  deriving DecidableEq

namespace Role

/-- The kinds of token that fit a role. -/
def kinds : Role → List TokenKind
  | operator .binary =>
    [.mark .bangEqual, .mark .equalEqual, .mark .greater, .mark .greaterEqual, .mark .less,
      .mark .lessEqual, .mark .plus, .mark .minus, .mark .star, .mark .slash]
  | operator .logical => [.keyword .kwAnd, .keyword .kwOr]
  | operator .unary => [.mark .bang, .mark .minus]
  | name => [.identifier]

def Fits (role : Role) (t : Token) : Prop :=
  t.kind ∈ role.kinds

instance (role : Role) (t : Token) : Decidable (role.Fits t) :=
  inferInstanceAs (Decidable (_ ∈ _))

end Role

/-! ## Classes of tokens as lists of kinds -/

namespace Token

theorem isMark_iff {m : Mark} {t : Token} : t.isMark m = true ↔ t.kind = .mark m :=
  decide_eq_true_iff

theorem isKeyword_iff {k : Keyword} {t : Token} : t.isKeyword k = true ↔ t.kind = .keyword k :=
  decide_eq_true_iff

theorem isEquality_iff {t : Token} :
    t.isEquality = true ↔ t.kind ∈ [.mark .bangEqual, .mark .equalEqual] := by
  unfold isEquality
  split <;> simp_all

theorem isComparison_iff {t : Token} :
    t.isComparison = true ↔
      t.kind ∈ [.mark .greater, .mark .greaterEqual, .mark .less, .mark .lessEqual] := by
  unfold isComparison
  split <;> simp_all

theorem isTerm_iff {t : Token} :
    t.isTerm = true ↔ t.kind ∈ [.mark .minus, .mark .plus] := by
  unfold isTerm
  split <;> simp_all

theorem isFactor_iff {t : Token} :
    t.isFactor = true ↔ t.kind ∈ [.mark .slash, .mark .star] := by
  unfold isFactor
  split <;> simp_all

theorem isUnary_iff {t : Token} :
    t.isUnary = true ↔ t.kind ∈ [.mark .bang, .mark .minus] := by
  unfold isUnary
  split <;> simp_all

end Token

/-! ## A relation between tokens and their roles -/

section

variable {P Q : Role → Token → Prop}

namespace Expr

def Every (P : Role → Token → Prop) : Expr → Prop
  | assign name value => P .name name ∧ value.Every P
  | binary left operator right => P (.operator .binary) operator ∧ left.Every P ∧ right.Every P
  | grouping inner => inner.Every P
  | literal _ => True
  | logical left operator right =>
    P (.operator .logical) operator ∧ left.Every P ∧ right.Every P
  | unary operator operand => P (.operator .unary) operator ∧ operand.Every P
  | .variable name => P .name name

theorem Every.imp (hPQ : ∀ role t, P role t → Q role t) {e : Expr} (h : e.Every P) :
    e.Every Q := by
  induction e with
  | literal => trivial
  | grouping _ ih => exact ih h
  | «variable» => exact hPQ _ _ h
  | assign _ _ ih | unary _ _ ih => exact ⟨hPQ _ _ h.1, ih h.2⟩
  | binary _ _ _ ihLeft ihRight | logical _ _ _ ihLeft ihRight =>
    exact ⟨hPQ _ _ h.1, ihLeft h.2.1, ihRight h.2.2⟩

theorem every_of_forall (h : ∀ role t, P role t) (e : Expr) : e.Every P := by
  induction e with
  | literal => trivial
  | grouping _ ih => exact ih
  | «variable» => exact h _ _
  | assign _ _ ih | unary _ _ ih => exact ⟨h _ _, ih⟩
  | binary _ _ _ ihLeft ihRight | logical _ _ _ ihLeft ihRight =>
    exact ⟨h _ _, ihLeft, ihRight⟩

end Expr

namespace Stmt

mutual

def Every (P : Role → Token → Prop) : Stmt → Prop
  | block body => EveryOf P body
  | expression e | print e => e.Every P
  | ifThen condition yes => condition.Every P ∧ yes.Every P
  | ifThenElse condition yes no => condition.Every P ∧ yes.Every P ∧ no.Every P
  | declare name none => P .name name
  | declare name (some e) => P .name name ∧ e.Every P
  | loop condition body => condition.Every P ∧ body.Every P

/-- `Every` of each statement in a list. -/
def EveryOf (P : Role → Token → Prop) : List Stmt → Prop
  | [] => True
  | s :: rest => s.Every P ∧ EveryOf P rest

end

theorem everyOf_iff {stmts : List Stmt} : EveryOf P stmts ↔ ∀ s ∈ stmts, s.Every P := by
  induction stmts with
  | nil => simp [EveryOf]
  | cons s rest ih => simp [EveryOf, ih]

mutual

theorem Every.imp (hPQ : ∀ role t, P role t → Q role t) : ∀ {s : Stmt}, s.Every P → s.Every Q
  | .block _, h => EveryOf.imp hPQ h
  | .expression _, h | .print _, h => Expr.Every.imp hPQ h
  | .ifThen _ _, h => ⟨h.1.imp hPQ, Every.imp hPQ h.2⟩
  | .ifThenElse _ _ _, h => ⟨h.1.imp hPQ, Every.imp hPQ h.2.1, Every.imp hPQ h.2.2⟩
  | .declare _ none, h => hPQ _ _ h
  | .declare _ (some _), h => ⟨hPQ _ _ h.1, h.2.imp hPQ⟩
  | .loop _ _, h => ⟨h.1.imp hPQ, Every.imp hPQ h.2⟩

theorem EveryOf.imp (hPQ : ∀ role t, P role t → Q role t) :
    ∀ {stmts : List Stmt}, EveryOf P stmts → EveryOf Q stmts
  | [], _ => trivial
  | _ :: _, h => ⟨Every.imp hPQ h.1, EveryOf.imp hPQ h.2⟩

end

mutual

theorem every_of_forall (h : ∀ role t, P role t) : ∀ s : Stmt, s.Every P
  | .block body => everyOf_of_forall h body
  | .expression e | .print e => Expr.every_of_forall h e
  | .ifThen c yes => ⟨c.every_of_forall h, every_of_forall h yes⟩
  | .ifThenElse c yes no => ⟨c.every_of_forall h, every_of_forall h yes, every_of_forall h no⟩
  | .declare _ none => h _ _
  | .declare _ (some e) => ⟨h _ _, e.every_of_forall h⟩
  | .loop c body => ⟨c.every_of_forall h, every_of_forall h body⟩

theorem everyOf_of_forall (h : ∀ role t, P role t) : ∀ stmts : List Stmt, EveryOf P stmts
  | [] => trivial
  | s :: rest => ⟨every_of_forall h s, everyOf_of_forall h rest⟩

end

end Stmt

end

/-! ## Other tokens in the same tree -/

/-- The token without its place in a text. -/
def Token.unplaced (t : Token) : Token :=
  { t with line := 0 }

theorem Token.unplaced_eq_iff {t u : Token} :
    t.unplaced = u.unplaced ↔ t.kind = u.kind ∧ t.lexeme = u.lexeme := by
  simp [unplaced]

namespace Expr

def map (f : Token → Token) : Expr → Expr
  | assign name value => assign (f name) (value.map f)
  | binary left operator right => binary (left.map f) (f operator) (right.map f)
  | grouping inner => grouping (inner.map f)
  | literal value => literal value
  | logical left operator right => logical (left.map f) (f operator) (right.map f)
  | unary operator operand => unary (f operator) (operand.map f)
  | .variable name => .variable (f name)

theorem map_id (e : Expr) : e.map id = e := by
  induction e <;> simp_all [map]

end Expr

namespace Stmt

mutual

def map (f : Token → Token) : Stmt → Stmt
  | block body => block (mapAll f body)
  | expression e => expression (e.map f)
  | ifThen condition yes => ifThen (condition.map f) (yes.map f)
  | ifThenElse condition yes no => ifThenElse (condition.map f) (yes.map f) (no.map f)
  | print e => print (e.map f)
  | declare name initializer => declare (f name) (initializer.map (Expr.map f))
  | loop condition body => loop (condition.map f) (body.map f)

def mapAll (f : Token → Token) : List Stmt → List Stmt
  | [] => []
  | s :: rest => s.map f :: mapAll f rest

end

theorem mapAll_eq_map (f : Token → Token) (stmts : List Stmt) :
    mapAll f stmts = stmts.map (Stmt.map f) := by
  induction stmts with
  | nil => rfl
  | cons s rest ih => rw [mapAll, ih, List.map_cons]

mutual

theorem map_id : ∀ s : Stmt, s.map id = s
  | .block body => by rw [map, mapAll_id body]
  | .expression e | .print e => by rw [map, e.map_id]
  | .ifThen c yes => by rw [map, c.map_id, map_id yes]
  | .ifThenElse c yes no => by rw [map, c.map_id, map_id yes, map_id no]
  | .declare name none => rfl
  | .declare name (some e) => by rw [map, Option.map_some, e.map_id, id_eq]
  | .loop c body => by rw [map, c.map_id, map_id body]

theorem mapAll_id : ∀ stmts : List Stmt, mapAll id stmts = stmts
  | [] => rfl
  | s :: rest => by rw [mapAll, map_id s, mapAll_id rest]

end

end Stmt

end Treewalk
