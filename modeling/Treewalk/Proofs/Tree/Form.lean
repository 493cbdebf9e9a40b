import Mathlib
import Treewalk.Proofs.Token.LongestMatch
import Treewalk.Tree.Printer

/-!
# Forms

All trees are written in one way: as a word, or in parentheses as a head with further forms behind
it, one blank before each. `Expr.form` and `Stmt.form` give the form of a tree, and `toList_text`
that the text of the tree is the text of its form.

Where words are without blanks and parentheses, the text of a form shows where the form ends, so
that there is no second one with the same text, whatever comes behind
(`Form.eq_of_chars_append_eq`, `Form.eq_of_lines_eq`).
-/

namespace Treewalk

inductive Form
  | word (letters : String)
  | node (head : String) (args : List Form)

/-- The characters that stand around words. -/
def isDelimiter (c : Char) : Bool :=
  c = ' ' || c = '(' || c = ')' || c = '\n'

/-- A word can be told from what is around it. -/
def IsWord (letters : String) : Prop :=
  letters.toList ≠ [] ∧ ∀ c ∈ letters.toList, isDelimiter c = false

/-- A word that stands before such a text is over there. -/
def Delimits (rest : List Char) : Prop :=
  ∀ c ∈ rest.head?, isDelimiter c = true

theorem delimits_cons {c : Char} {rest : List Char} (h : isDelimiter c = true) :
    Delimits (c :: rest) := by
  simpa [Delimits] using h

theorem IsWord.eq_of_append_eq {a b : String} {rest rest' : List Char} (ha : IsWord a)
    (hb : IsWord b) (hrest : Delimits rest) (hrest' : Delimits rest')
    (h : a.toList ++ rest = b.toList ++ rest') : a = b ∧ rest = rest' := by
  have hword : ∀ {w : String}, IsWord w → ∀ c ∈ w.toList, (!isDelimiter c) = true :=
    fun hw c hc => by rw [hw.2 c hc]; rfl
  have hstop : ∀ {cs : List Char}, Delimits cs → ∀ c ∈ cs.head?, (!isDelimiter c) = false :=
    fun hcs c hc => by rw [hcs c hc]; rfl
  have hletters := congrArg (List.takeWhile fun c => !isDelimiter c) h
  rw [takeWhile_of_stop (hword ha) (hstop hrest),
    takeWhile_of_stop (hword hb) (hstop hrest')] at hletters
  rw [hletters] at h
  exact ⟨String.toList_inj.mp hletters, List.append_cancel_left h⟩

namespace Form

mutual

def chars : Form → List Char
  | word letters => letters.toList
  | node head args => '(' :: (head.toList ++ (charsOf args ++ [')']))

/-- Each form with a blank before it. -/
def charsOf : List Form → List Char
  | [] => []
  | f :: rest => ' ' :: (f.chars ++ charsOf rest)

end

mutual

/-- All words and heads of a form are words. -/
def Plain : Form → Prop
  | word letters => IsWord letters
  | node head args => IsWord head ∧ PlainAll args

def PlainAll : List Form → Prop
  | [] => True
  | f :: rest => f.Plain ∧ PlainAll rest

end

theorem delimits_charsOf (args : List Form) (rest : List Char) :
    Delimits (charsOf args ++ ')' :: rest) := by
  cases args with
  | nil => exact delimits_cons rfl
  | cons => exact delimits_cons rfl

theorem word_append_ne {letters : String} (h : IsWord letters) (rest rest' : List Char) :
    letters.toList ++ rest ≠ '(' :: rest' := by
  intro heq
  obtain ⟨c, cs, hletters⟩ := List.exists_cons_of_ne_nil h.1
  have hc := h.2 c (by simp [hletters])
  rw [hletters, List.cons_append] at heq
  rw [(List.cons.inj heq).1] at hc
  cases hc

mutual

theorem eq_of_chars_append_eq : ∀ {f g : Form} {rest rest' : List Char}, f.Plain → g.Plain →
    Delimits rest → Delimits rest' → f.chars ++ rest = g.chars ++ rest' → f = g ∧ rest = rest'
  | word a, word b, rest, rest', ha, hb, hrest, hrest', h => by
    obtain ⟨rfl, rfl⟩ := IsWord.eq_of_append_eq ha hb hrest hrest' h
    exact ⟨rfl, rfl⟩
  | word a, node _ _, rest, rest', ha, _, _, _, h => by
    rw [chars, chars, List.cons_append] at h
    exact absurd h (word_append_ne ha _ _)
  | node _ _, word b, rest, rest', _, hb, _, _, h => by
    rw [chars, chars, List.cons_append] at h
    exact absurd h.symm (word_append_ne hb _ _)
  | node head args, node head' args', rest, rest', ⟨hhead, hargs⟩, ⟨hhead', hargs'⟩, _, _, h => by
    simp only [chars, List.cons_append, List.append_assoc, List.nil_append] at h
    obtain ⟨rfl, htail⟩ := hhead.eq_of_append_eq hhead' (delimits_charsOf _ _)
      (delimits_charsOf _ _) (List.cons.inj h).2
    obtain ⟨rfl, rfl⟩ := eq_of_charsOf_append_eq hargs hargs' htail
    exact ⟨rfl, rfl⟩

theorem eq_of_charsOf_append_eq : ∀ {fs gs : List Form} {rest rest' : List Char}, PlainAll fs →
    PlainAll gs → charsOf fs ++ ')' :: rest = charsOf gs ++ ')' :: rest' →
    fs = gs ∧ rest = rest'
  | [], [], _, _, _, _, h => ⟨rfl, (List.cons.inj h).2⟩
  | [], _ :: _, _, _, _, _, h => absurd (List.cons.inj h).1 (by decide)
  | _ :: _, [], _, _, _, _, h => absurd (List.cons.inj h).1 (by decide)
  | f :: fs, g :: gs, rest, rest', ⟨hf, hfs⟩, ⟨hg, hgs⟩, h => by
    simp only [charsOf, List.cons_append, List.append_assoc] at h
    obtain ⟨rfl, htail⟩ := eq_of_chars_append_eq hf hg (delimits_charsOf _ _)
      (delimits_charsOf _ _) (List.cons.inj h).2
    obtain ⟨rfl, rfl⟩ := eq_of_charsOf_append_eq hfs hgs htail
    exact ⟨rfl, rfl⟩

end

/-- Forms on a line each are told from other such forms. -/
theorem eq_of_lines_eq {fs gs : List Form} (hfs : PlainAll fs) (hgs : PlainAll gs)
    (h : fs.flatMap (fun f => f.chars ++ ['\n']) = gs.flatMap fun g => g.chars ++ ['\n']) :
    fs = gs := by
  induction fs generalizing gs with
  | nil =>
    cases gs with
    | nil => rfl
    | cons => simp at h
  | cons f fs ih =>
    cases gs with
    | nil => simp at h
    | cons g gs =>
      simp only [List.flatMap_cons, List.append_assoc] at h
      obtain ⟨rfl, htail⟩ := eq_of_chars_append_eq hfs.1 hgs.1 (delimits_cons rfl)
        (delimits_cons rfl) h
      rw [ih hfs.2 hgs.2 (List.cons.inj htail).2]

end Form

/-! ## The forms of trees -/

namespace Expr

def form : Expr → Form
  | assign name value => .node "=" [.word name.lexeme, value.form]
  | binary left operator right | logical left operator right =>
    .node operator.lexeme [left.form, right.form]
  | grouping inner => .node "group" [inner.form]
  | literal value => .word value.text
  | unary operator operand => .node operator.lexeme [operand.form]
  | .variable name => .word name.lexeme

theorem toList_text (e : Expr) : e.text.toList = e.form.chars := by
  induction e <;> simp_all [text, form, Form.chars, Form.charsOf]

end Expr

namespace Stmt

mutual

def form : Stmt → Form
  | block body => .node "block" (formsOf body)
  | expression e => .node ";" [e.form]
  | ifThen condition yes => .node "if" [condition.form, yes.form]
  | ifThenElse condition yes no => .node "if-else" [condition.form, yes.form, no.form]
  | print e => .node "print" [e.form]
  | declare name none => .node "var" [.word name.lexeme]
  | declare name (some e) => .node "var" [.word name.lexeme, .word "=", e.form]
  | loop condition body => .node "while" [condition.form, body.form]

def formsOf : List Stmt → List Form
  | [] => []
  | s :: rest => s.form :: formsOf rest

end

mutual

theorem toList_text : ∀ s : Stmt, s.text.toList = s.form.chars
  | block body => by simp [text, form, Form.chars, toList_spacedText body]
  | expression e | print e => by
    simp [text, form, Form.chars, Form.charsOf, e.toList_text]
  | ifThen c yes => by
    simp [text, form, Form.chars, Form.charsOf, c.toList_text, toList_text yes]
  | ifThenElse c yes no => by
    simp [text, form, Form.chars, Form.charsOf, c.toList_text, toList_text yes, toList_text no]
  | declare name none => by simp [text, form, Form.chars, Form.charsOf]
  | declare name (some e) => by
    simp [text, form, Form.chars, Form.charsOf, e.toList_text]
  | loop c body => by
    simp [text, form, Form.chars, Form.charsOf, c.toList_text, toList_text body]

theorem toList_spacedText : ∀ stmts : List Stmt,
    (spacedText stmts).toList = Form.charsOf (formsOf stmts)
  | [] => rfl
  | s :: rest => by
    simp [spacedText, formsOf, Form.charsOf, toList_text s, toList_spacedText rest]

end

theorem toList_linesText (stmts : List Stmt) :
    (linesText stmts).toList = (formsOf stmts).flatMap fun f => f.chars ++ ['\n'] := by
  induction stmts with
  | nil => rfl
  | cons s rest ih =>
    rw [linesText] at ih ⊢
    simp [ih, toList_text, formsOf]

end Stmt

end Treewalk
