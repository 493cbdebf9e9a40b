import Mathlib
import Treewalk.Proofs.Number.Text
import Treewalk.Proofs.Parser.Reads
import Treewalk.Proofs.Tree.Form
import Treewalk.Session

/-!
# Trees can be read back

`Expr.ofForm` and `Stmt.ofForm` read trees from forms. A word in a form is scanned again, and what
it is scanned to is a literal or a name; a head of a form says with the count of forms behind it
which tree it is, since no operator is spelled as the heads of other trees are, and the names that
are spelled so are no heads. From the form of a tree the same tree is read, up to the lines of its
tokens (`Expr.ofForm_form`, `Stmt.ofForm_form`), as long as each token is spelled as it is scanned
and no literal is a string, or a number that is not finite.

With what `Form` says of texts, this gives the main statement: two sources whose trees are printed
alike have the same trees (`printTrees_unambiguous`).
-/

namespace Treewalk

/-! ## Spelling -/

/-- The token that letters are scanned to. -/
def Token.spelled (letters : String) : Token :=
  (tokensOf (pieces letters.toList)).headD (Token.eof 0)

namespace Token.IsWhole

variable {t u : Token}

theorem tokensOf_lexeme (ht : t.IsWhole) : tokensOf (pieces t.lexeme.toList) = [t.unplaced] := by
  have hblank : ∀ c ∈ ([] : List Char).head?, isBlank c = true := by simp
  have hspells := (ht.spells hblank spells_nil).1
  rwa [List.append_nil] at hspells

theorem spelled_lexeme (ht : t.IsWhole) : Token.spelled t.lexeme = t.unplaced := by
  rw [Token.spelled, ht.tokensOf_lexeme]
  rfl

theorem kind_eq_of_lexeme_eq (ht : t.IsWhole) (hu : u.IsWhole) (h : t.lexeme = u.lexeme) :
    t.kind = u.kind := by
  have hspelled := ht.spelled_lexeme
  rw [h, hu.spelled_lexeme] at hspelled
  exact (Token.unplaced_eq_iff.mp hspelled).1.symm

end Token.IsWhole

/-- A token that was scanned, in a role that its kind fits. -/
def Token.Proper (role : Role) (t : Token) : Prop :=
  t.IsWhole ∧ role.Fits t

theorem isDelimiter_eq_false_of_isWordChar {c : Char} (h : isWordChar c = true) :
    isDelimiter c = false := by
  refine Bool.eq_false_iff.mpr fun hdelimiter => ?_
  simp only [isDelimiter, Bool.or_eq_true, decide_eq_true_eq] at hdelimiter
  rcases hdelimiter with ((rfl | rfl) | rfl) | rfl <;> cases h

theorem isWord_text_of_mem_kinds {role : Role} {m : Mark} (h : .mark m ∈ role.kinds) :
    IsWord m.text := by
  revert h
  rcases role with ⟨_ | _ | _⟩ | _ <;> cases m <;>
    simp [Role.kinds, IsWord, Mark.text, Mark.chars, isDelimiter]

theorem Token.Proper.isWord {role : Role} {t : Token} (h : t.Proper role) : IsWord t.lexeme := by
  obtain ⟨⟨p, hp, hkind, hlexeme⟩, hfits⟩ := h
  rw [hlexeme, IsWord, String.toList_ofList]
  generalize hk : t.kind = kind at hkind
  rw [Role.Fits, hk] at hfits
  cases denotes_iff.mpr hkind with
  | mark m => simpa [IsWord, Mark.text, Piece.text] using isWord_text_of_mem_kinds hfits
  | keyword | identifier =>
    obtain ⟨c, cs, rfl, hc, hcs⟩ := hp
    have hletter : isWordChar c = true := Bool.or_eq_true_iff.mpr (.inl hc)
    refine ⟨List.cons_ne_nil c cs, fun d hd => ?_⟩
    rcases List.mem_cons.mp hd with rfl | hd
    · exact isDelimiter_eq_false_of_isWordChar hletter
    · exact isDelimiter_eq_false_of_isWordChar (hcs d hd)
  | _ =>
    rcases role with ⟨_ | _ | _⟩ | _ <;> simp [Role.kinds] at hfits

/-! ## Literals -/

namespace Value

/-- The value can be read back from its text. -/
def isLegible : Value → Bool
  | string _ => false
  | number x => x.isFinite
  | bool _ | nil => true

end Value

namespace Expr

def literals : Expr → List Value
  | assign _ value => value.literals
  | binary left _ right | logical left _ right => left.literals ++ right.literals
  | grouping inner => inner.literals
  | literal value => [value]
  | unary _ operand => operand.literals
  | .variable _ => []

end Expr

namespace Stmt

mutual

def literals : Stmt → List Value
  | block body => literalsOf body
  | expression e | print e => e.literals
  | ifThen condition yes => condition.literals ++ yes.literals
  | ifThenElse condition yes no => condition.literals ++ yes.literals ++ no.literals
  | declare _ none => []
  | declare _ (some e) => e.literals
  | loop condition body => condition.literals ++ body.literals

def literalsOf : List Stmt → List Value
  | [] => []
  | s :: rest => s.literals ++ literalsOf rest

end

end Stmt

/-! ## Trees read from forms -/

/-- The word that a form is, or its head. -/
def Form.first : Form → String
  | word letters => letters
  | node head _ => head

namespace Expr

/-- The literal or name that a word is scanned to. A minus belongs to the number behind it. -/
def ofWord (letters : String) : Expr :=
  match tokensOf (pieces letters.toList) with
  | [t] =>
    match t.kind with
    | .number x => literal (.number x)
    | .keyword .kwTrue => literal (.bool true)
    | .keyword .kwFalse => literal (.bool false)
    | .keyword .kwNil => literal .nil
    | _ => .variable t
  | [_, t] =>
    match t.kind with
    | .number x => literal (.number (-x))
    | _ => .variable t
  | _ => literal .nil

def ofForm : Form → Expr
  | .word letters => ofWord letters
  | .node "group" [f] => grouping (ofForm f)
  | .node "=" [f, g] => assign (Token.spelled f.first) (ofForm g)
  | .node head [f] => unary (Token.spelled head) (ofForm f)
  | .node head [f, g] =>
    if (Token.spelled head).kind ∈ (Role.operator .logical).kinds then
      logical (ofForm f) (Token.spelled head) (ofForm g)
    else binary (ofForm f) (Token.spelled head) (ofForm g)
  | .node _ _ => literal .nil

variable {e : Expr}

theorem ofWord_lexeme {t : Token} (h : t.Proper .name) :
    ofWord t.lexeme = .variable t.unplaced := by
  have hkind : t.unplaced.kind = .identifier := List.mem_singleton.mp h.2
  simp only [ofWord, h.1.tokensOf_lexeme, hkind]

theorem ofWord_text_number {x : Number} (h : x.isFinite = true) :
    ofWord x.text = literal (.number x) := by
  have htext := Number.toList_text h
  have htoken := Number.token?_shortest h 0
  cases hsign : x.isNegative with
  | false =>
    rw [hsign, if_neg Bool.false_ne_true] at htext
    rw [Number.ofMagnitude_magnitude hsign] at htoken
    have htokens : tokensOf (pieces x.text.toList) =
        [⟨.number x, String.ofList x.shortest.digits, 0⟩] := by
      rw [htext, Decimal.pieces_digits, tokensOf, List.filterMap_cons, htoken, List.filterMap_nil]
    simp only [ofWord, htokens]
  | true =>
    rw [hsign, if_pos rfl] at htext
    rw [← Number.neg_eq_ofMagnitude hsign] at htoken
    have hminus : (Piece.mark .minus).token? 0 = some ⟨.mark .minus, "-", 0⟩ := rfl
    have htokens : tokensOf (pieces x.text.toList) =
        [⟨.mark .minus, "-", 0⟩, ⟨.number (-x), String.ofList x.shortest.digits, 0⟩] := by
      rw [htext, Decimal.pieces_minus_digits, tokensOf, List.filterMap_cons, hminus,
        List.filterMap_cons, htoken, List.filterMap_nil]
    simp only [ofWord, htokens, Number.neg_neg]

theorem ofWord_text {v : Value} (h : v.isLegible = true) : ofWord v.text = literal v := by
  cases v with
  | string => cases h
  | nil => decide +kernel
  | bool b => cases b <;> decide +kernel
  | number x => exact ofWord_text_number h

theorem isWord_text {v : Value} (h : v.isLegible = true) : IsWord v.text := by
  cases v with
  | string => cases h
  | nil => simp [IsWord, Value.text, isDelimiter]
  | bool b => cases b <;> simp [IsWord, Value.text, isDelimiter]
  | number x =>
    have hdigits : ∀ c ∈ x.shortest.digits, isDelimiter c = false := by
      intro c hc
      rcases x.shortest.isDigit_or_eq_of_mem_digits hc with hdigit | rfl
      · exact isDelimiter_eq_false_of_isWordChar (Bool.or_eq_true_iff.mpr (.inr hdigit))
      · rfl
    obtain ⟨c, rest, hcons, -⟩ := x.shortest.exists_digits_eq_cons
    rw [Value.text, IsWord, Number.toList_text h]
    cases x.isNegative with
    | false => exact ⟨by simp [hcons], hdigits⟩
    | true => exact ⟨List.cons_ne_nil _ _, List.forall_mem_cons.mpr ⟨rfl, hdigits⟩⟩

/-- No operator is spelled as the head of another tree. -/
theorem lexeme_ne_of_proper {position : Position} {t : Token}
    (h : t.Proper (.operator position)) : t.lexeme ≠ "=" ∧ t.lexeme ≠ "group" := by
  have hequal : Token.IsWhole ⟨.mark .equal, "=", 0⟩ := ⟨.mark .equal, trivial, rfl, rfl⟩
  have hgroup : Token.IsWhole ⟨.identifier, "group", 0⟩ := by
    refine ⟨.word ['g', 'r', 'o', 'u', 'p'], ⟨'g', ['r', 'o', 'u', 'p'], rfl, rfl, ?_⟩, ?_, rfl⟩
    · simp [isWordChar, isLetter]
    · decide +kernel
  obtain ⟨hwhole, hfits⟩ := h
  rw [Role.Fits] at hfits
  constructor
  · intro hlexeme
    rw [hwhole.kind_eq_of_lexeme_eq hequal hlexeme] at hfits
    cases position <;> simp [Role.kinds] at hfits
  · intro hlexeme
    rw [hwhole.kind_eq_of_lexeme_eq hgroup hlexeme] at hfits
    cases position <;> simp [Role.kinds] at hfits

theorem ofForm_form (h : e.Every fun role t => t.Proper role)
    (hliterals : ∀ v ∈ e.literals, v.isLegible = true) :
    ofForm e.form = e.map Token.unplaced := by
  induction e with
  | literal value => exact ofWord_text (hliterals value (List.mem_singleton_self value))
  | «variable» name => exact ofWord_lexeme h
  | grouping inner ih => simp only [form, ofForm, ih h hliterals, map]
  | assign name value ih =>
    simp only [form, ofForm, Form.first, h.1.1.spelled_lexeme, ih h.2 hliterals, map]
  | unary operator operand ih =>
    have hne := (lexeme_ne_of_proper h.1).2
    simp only [form, ofForm, h.1.1.spelled_lexeme, ih h.2 hliterals, map]
  | binary left operator right ihLeft ihRight =>
    obtain ⟨hop, hleft, hright⟩ := h
    obtain ⟨hleftLiterals, hrightLiterals⟩ := List.forall_mem_append.mp hliterals
    have hne := (lexeme_ne_of_proper hop).1
    have hdisjoint : ∀ k ∈ (Role.operator .binary).kinds, k ∉ (Role.operator .logical).kinds := by
      simp [Role.kinds]
    have hbinary := hdisjoint operator.unplaced.kind hop.2
    simp only [form, ofForm, hop.1.spelled_lexeme, ihLeft hleft hleftLiterals,
      ihRight hright hrightLiterals, if_neg hbinary, map]
  | logical left operator right ihLeft ihRight =>
    obtain ⟨hop, hleft, hright⟩ := h
    obtain ⟨hleftLiterals, hrightLiterals⟩ := List.forall_mem_append.mp hliterals
    have hne := (lexeme_ne_of_proper hop).1
    have hlogical : operator.unplaced.kind ∈ (Role.operator .logical).kinds := hop.2
    simp only [form, ofForm, hop.1.spelled_lexeme, ihLeft hleft hleftLiterals,
      ihRight hright hrightLiterals, if_pos hlogical, map]

theorem plain_form (h : e.Every fun role t => t.Proper role)
    (hliterals : ∀ v ∈ e.literals, v.isLegible = true) : e.form.Plain := by
  induction e with
  | literal value => exact isWord_text (hliterals value (List.mem_singleton_self value))
  | «variable» name => exact h.isWord
  | grouping inner ih => exact ⟨by simp [IsWord, isDelimiter], ih h hliterals, trivial⟩
  | assign name value ih =>
    exact ⟨by simp [IsWord, isDelimiter], h.1.isWord, ih h.2 hliterals, trivial⟩
  | unary operator operand ih => exact ⟨h.1.isWord, ih h.2 hliterals, trivial⟩
  | binary left operator right ihLeft ihRight | logical left operator right ihLeft ihRight =>
    obtain ⟨hop, hleft, hright⟩ := h
    obtain ⟨hleftLiterals, hrightLiterals⟩ := List.forall_mem_append.mp hliterals
    exact ⟨hop.isWord, ihLeft hleft hleftLiterals, ihRight hright hrightLiterals, trivial⟩

end Expr

namespace Stmt

mutual

def ofForm : Form → Stmt
  | .node "block" body => block (ofForms body)
  | .node ";" [e] => expression (Expr.ofForm e)
  | .node "if" [condition, yes] => ifThen (Expr.ofForm condition) (ofForm yes)
  | .node "if-else" [condition, yes, no] =>
    ifThenElse (Expr.ofForm condition) (ofForm yes) (ofForm no)
  | .node "print" [e] => print (Expr.ofForm e)
  | .node "var" [name] => declare (Token.spelled name.first) none
  | .node "var" [name, _, e] => declare (Token.spelled name.first) (some (Expr.ofForm e))
  | .node "while" [condition, body] => loop (Expr.ofForm condition) (ofForm body)
  | _ => block []

def ofForms : List Form → List Stmt
  | [] => []
  | f :: rest => ofForm f :: ofForms rest

end

mutual

theorem ofForm_form : ∀ {s : Stmt}, (s.Every fun role t => t.Proper role) →
    (∀ v ∈ s.literals, v.isLegible = true) → ofForm s.form = s.map Token.unplaced
  | .block body, h, hliterals => by
    simp only [form, ofForm, ofForms_formsOf h hliterals, map]
  | .expression e, h, hliterals | .print e, h, hliterals => by
    simp only [form, ofForm, Expr.ofForm_form h hliterals, map]
  | .ifThen c yes, h, hliterals => by
    obtain ⟨hc, hyes⟩ := List.forall_mem_append.mp hliterals
    simp only [form, ofForm, Expr.ofForm_form h.1 hc, ofForm_form h.2 hyes, map]
  | .ifThenElse c yes no, h, hliterals => by
    obtain ⟨hboth, hno⟩ := List.forall_mem_append.mp hliterals
    obtain ⟨hc, hyes⟩ := List.forall_mem_append.mp hboth
    simp only [form, ofForm, Expr.ofForm_form h.1 hc, ofForm_form h.2.1 hyes,
      ofForm_form h.2.2 hno, map]
  | .declare name none, h, _ => by
    simp only [form, ofForm, Form.first, Token.IsWhole.spelled_lexeme h.1, map, Option.map_none]
  | .declare name (some e), h, hliterals => by
    simp only [form, ofForm, Form.first, h.1.1.spelled_lexeme, Expr.ofForm_form h.2 hliterals, map,
      Option.map_some]
  | .loop c body, h, hliterals => by
    obtain ⟨hc, hbody⟩ := List.forall_mem_append.mp hliterals
    simp only [form, ofForm, Expr.ofForm_form h.1 hc, ofForm_form h.2 hbody, map]

theorem ofForms_formsOf : ∀ {stmts : List Stmt}, (EveryOf (fun role t => t.Proper role) stmts) →
    (∀ v ∈ literalsOf stmts, v.isLegible = true) →
    ofForms (formsOf stmts) = mapAll Token.unplaced stmts
  | [], _, _ => rfl
  | s :: rest, h, hliterals => by
    obtain ⟨hs, hrest⟩ := List.forall_mem_append.mp hliterals
    simp only [formsOf, ofForms, ofForm_form h.1 hs, ofForms_formsOf h.2 hrest, mapAll]

end

mutual

theorem plain_form : ∀ {s : Stmt}, (s.Every fun role t => t.Proper role) →
    (∀ v ∈ s.literals, v.isLegible = true) → s.form.Plain
  | .block body, h, hliterals => ⟨by simp [IsWord, isDelimiter], plainAll_formsOf h hliterals⟩
  | .expression e, h, hliterals | .print e, h, hliterals =>
    ⟨by simp [IsWord, isDelimiter], Expr.plain_form h hliterals, trivial⟩
  | .ifThen c yes, h, hliterals => by
    obtain ⟨hc, hyes⟩ := List.forall_mem_append.mp hliterals
    exact ⟨by simp [IsWord, isDelimiter], c.plain_form h.1 hc, plain_form h.2 hyes, trivial⟩
  | .ifThenElse c yes no, h, hliterals => by
    obtain ⟨hboth, hno⟩ := List.forall_mem_append.mp hliterals
    obtain ⟨hc, hyes⟩ := List.forall_mem_append.mp hboth
    exact ⟨by simp [IsWord, isDelimiter], c.plain_form h.1 hc, plain_form h.2.1 hyes,
      plain_form h.2.2 hno, trivial⟩
  | .declare name none, h, _ =>
    ⟨by simp [IsWord, isDelimiter], Token.Proper.isWord h, trivial⟩
  | .declare name (some e), h, hliterals =>
    ⟨by simp [IsWord, isDelimiter], h.1.isWord, by simp [Form.Plain, IsWord, isDelimiter],
      Expr.plain_form h.2 hliterals, trivial⟩
  | .loop c body, h, hliterals => by
    obtain ⟨hc, hbody⟩ := List.forall_mem_append.mp hliterals
    exact ⟨by simp [IsWord, isDelimiter], c.plain_form h.1 hc, plain_form h.2 hbody, trivial⟩

theorem plainAll_formsOf : ∀ {stmts : List Stmt}, (EveryOf (fun role t => t.Proper role) stmts) →
    (∀ v ∈ literalsOf stmts, v.isLegible = true) → Form.PlainAll (formsOf stmts)
  | [], _, _ => trivial
  | s :: rest, h, hliterals => by
    obtain ⟨hs, hrest⟩ := List.forall_mem_append.mp hliterals
    exact ⟨plain_form h.1 hs, plainAll_formsOf h.2 hrest⟩

end

end Stmt

/-! ## Sources with the same printed trees -/

/-- What the parser makes of a source holds scanned tokens in their roles. -/
theorem statements_proper (source : String) :
    Stmt.EveryOf (fun role t => t.Proper role)
      (Program.ofTokens (scan source).tokens).statements := by
  refine Stmt.everyOf_iff.mpr fun s hs => ?_
  refine (Program.statements_every _ s hs).imp fun role t ht => ?_
  obtain ⟨hmem, hfits⟩ := ht
  rw [tokens_scan] at hmem
  refine ⟨isWhole_of_mem ((List.mem_append.mp hmem).resolve_right fun hstop => ?_), hfits⟩
  rw [List.mem_singleton.mp hstop, Role.Fits] at hfits
  rcases role with ⟨_ | _ | _⟩ | _ <;> simp [Role.kinds, Token.eof] at hfits

/-- Two sources without string literals whose numbers are finite have the same trees, up to the
lines of their tokens, if these are printed as the same text. -/
theorem printTrees_unambiguous {σ τ : Type} [Sink σ] [Sink τ] {s : Session σ} {t : Session τ}
    {a b : String}
    (ha : ∀ v ∈ Stmt.literalsOf (Program.ofTokens (scan a).tokens).statements, v.isLegible = true)
    (hb : ∀ v ∈ Stmt.literalsOf (Program.ofTokens (scan b).tokens).statements, v.isLegible = true)
    (h : (s.printTrees a).1 = (t.printTrees b).1) :
    (Program.ofTokens (scan a).tokens).statements.map (Stmt.map Token.unplaced) =
      (Program.ofTokens (scan b).tokens).statements.map (Stmt.map Token.unplaced) := by
  have htext : (Stmt.linesText (Program.ofTokens (scan a).tokens).statements).toList =
      (Stmt.linesText (Program.ofTokens (scan b).tokens).statements).toList :=
    congrArg String.toList h
  rw [Stmt.toList_linesText, Stmt.toList_linesText] at htext
  have hforms := Form.eq_of_lines_eq (Stmt.plainAll_formsOf (statements_proper a) ha)
    (Stmt.plainAll_formsOf (statements_proper b) hb) htext
  rw [← Stmt.mapAll_eq_map, ← Stmt.mapAll_eq_map, ← Stmt.ofForms_formsOf (statements_proper a) ha,
    ← Stmt.ofForms_formsOf (statements_proper b) hb, hforms]

/-- Neither the line of a token nor the spelling of a number is printed. -/
theorem if_on_two_lines_printed_alike :
    ((Session.initial : Session Buffered).printTrees "if (a) b = -1;").1 =
        "(if a (; (= b (- 1))))\n" ∧
      (Program.ofTokens (scan "if (a) b = -1;").tokens).statements.map (Stmt.map Token.unplaced) =
        (Program.ofTokens (scan "if (a) // then\nb = -1.0;").tokens).statements.map
          (Stmt.map Token.unplaced) := by
  have hfirst : ((Session.initial : Session Buffered).printTrees "if (a) b = -1;").1 =
      "(if a (; (= b (- 1))))\n" := by
    decide +kernel
  have hsecond : ((Session.initial : Session Buffered).printTrees "if (a) // then\nb = -1.0;").1 =
      "(if a (; (= b (- 1))))\n" := by
    decide +kernel
  refine ⟨hfirst, ?_⟩
  exact printTrees_unambiguous (by decide +kernel) (by decide +kernel)
    (hfirst.trans hsecond.symm)

end Treewalk
