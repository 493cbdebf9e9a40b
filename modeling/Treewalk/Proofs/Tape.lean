import Mathlib.Data.List.TakeWhile
import Treewalk.Token.Cursor

/-!
# Tapes

A tape is a token list together with an index into it. Its operations look tokens up by their index,
and give nothing where the list has no such index. A list that does not end with a closing token
gets one, but closing tokens may also stand further in front.

* `Tape.Shows t c`: the tape shows what the cursor `c` stands for.
* `Tape.shows_ofTokens`, `Tape.Shows.answer`: from the start on, every operation finds its tokens
  and gives what the cursor gives. So the index never leaves the list (`Tape.answers_ofTokens`).
-/

namespace Treewalk

/-! ## The first closing token -/

section

variable {front : List Token} (hfront : ∀ t ∈ front, t.isEof = false)

include hfront

theorem Cursor.ofTokens_append_cons {stop : Token} (hstop : stop.isEof = true)
    (behind : List Token) : Cursor.ofTokens (front ++ stop :: behind) = ⟨[], front, stop⟩ := by
  have hopen : ∀ t ∈ front, (!t.isEof) = true := fun t ht => by rw [hfront t ht]; rfl
  have hnone : front.find? Token.isEof = none :=
    List.find?_eq_none.mpr fun t ht => by rw [hfront t ht]; exact Bool.false_ne_true
  simp [Cursor.ofTokens, List.takeWhile_append_of_pos hopen, hstop, hnone]

theorem Cursor.ofTokens_of_open :
    Cursor.ofTokens front = ⟨[], front, Token.eof (Cursor.lastLine front)⟩ := by
  have htake : front.takeWhile (!·.isEof) = front :=
    List.takeWhile_eq_self_iff.mpr fun t ht => by rw [hfront t ht]; rfl
  have hnone : front.find? Token.isEof = none :=
    List.find?_eq_none.mpr fun t ht => by rw [hfront t ht]; exact Bool.false_ne_true
  simp [Cursor.ofTokens, htake, hnone]

end

/-! ## Tapes -/

structure Tape where
  tokens : List Token
  index : Nat

namespace Tape

/-- A tape in front of its first token. -/
def ofTokens (tokens : List Token) : Tape where
  tokens :=
    if tokens.getLast?.any Token.isEof then tokens
    else tokens ++ [Token.eof (Cursor.lastLine tokens)]
  index := 0

/-- The token that would be passed next. -/
def peek? (t : Tape) : Option Token :=
  t.tokens[t.index]?

/-- The token passed last, or the first one where none has been passed. -/
def previous? (t : Tape) : Option Token :=
  t.tokens[t.index - 1]?

def isAtEnd? (t : Tape) : Option Bool :=
  t.peek?.map Token.isEof

def moveTo (t : Tape) (index : Nat) : Tape :=
  { t with index }

/-- Passes one token, or none at the end, and gives the token passed last. -/
def advance? (t : Tape) : Option (Token × Tape) := do
  let atEnd ← t.isAtEnd?
  let t := if atEnd then t else t.moveTo (t.index + 1)
  let token ← t.previous?
  return (token, t)

@[simp] theorem tokens_moveTo (t : Tape) (index : Nat) : (t.moveTo index).tokens = t.tokens := rfl

@[simp] theorem index_moveTo (t : Tape) (index : Nat) : (t.moveTo index).index = index := rfl

@[simp] theorem moveTo_index (t : Tape) : t.moveTo t.index = t := rfl

@[simp] theorem moveTo_moveTo (t : Tape) (i j : Nat) : (t.moveTo i).moveTo j = t.moveTo j := rfl

end Tape

/-! ## Operations in sequence -/

inductive CursorOperation
  | peek | previous | advance | isAtEnd

def Cursor.answer (c : Cursor) : CursorOperation → (Token ⊕ Bool) × Cursor
  | .peek => (.inl c.peek, c)
  | .previous => (.inl c.previous, c)
  | .advance => (.inl c.advance.previous, c.advance)
  | .isAtEnd => (.inr c.isAtEnd, c)

def Cursor.answers (c : Cursor) : List CursorOperation → List (Token ⊕ Bool)
  | [] => []
  | operation :: operations =>
    (c.answer operation).1 :: (c.answer operation).2.answers operations

namespace Tape

def answer? (t : Tape) : CursorOperation → Option ((Token ⊕ Bool) × Tape)
  | .peek => t.peek?.map fun token => (.inl token, t)
  | .previous => t.previous?.map fun token => (.inl token, t)
  | .advance => t.advance?.map fun (token, t) => (.inl token, t)
  | .isAtEnd => t.isAtEnd?.map fun atEnd => (.inr atEnd, t)

def answers? (t : Tape) : List CursorOperation → Option (List (Token ⊕ Bool))
  | [] => some []
  | operation :: operations => do
    let (answer, t) ← t.answer? operation
    let others ← t.answers? operations
    return answer :: others

/-! ## A tape shows a cursor -/

structure Shows (t : Tape) (c : Cursor) : Prop where
  tokens : ∃ behind, t.tokens = c.passed.reverse ++ (c.ahead ++ c.stop :: behind)
  index : t.index = c.passed.length
  ahead : ∀ token ∈ c.ahead, token.isEof = false
  stop : c.stop.isEof = true

/-- The closing token that the cursor stops at is the first one on the tape. -/
theorem shows_ofTokens (tokens : List Token) : (ofTokens tokens).Shows (Cursor.ofTokens tokens) := by
  cases hfind : tokens.find? Token.isEof with
  | none =>
    have hopen : ∀ token ∈ tokens, token.isEof = false := by
      simpa using List.find?_eq_none.mp hfind
    have hlast : tokens.getLast?.any Token.isEof = false := by
      cases hget : tokens.getLast? with
      | none => rfl
      | some token => exact hopen token (List.mem_of_getLast? hget)
    rw [Cursor.ofTokens_of_open hopen]
    exact ⟨⟨[], by simp [ofTokens, hlast]⟩, rfl, hopen, rfl⟩
  | some stop =>
    obtain ⟨hstop, front, behind, rfl, hfront⟩ := List.find?_eq_some_iff_append.mp hfind
    have hopen : ∀ token ∈ front, token.isEof = false := by simpa using hfront
    rw [Cursor.ofTokens_append_cons hopen hstop]
    refine ⟨?_, rfl, hopen, hstop⟩
    unfold ofTokens
    split
    · exact ⟨behind, by simp⟩
    · exact ⟨behind ++ [Token.eof (Cursor.lastLine (front ++ stop :: behind))], by simp⟩

section

variable {t : Tape} {c : Cursor} (h : t.Shows c)

include h

theorem Shows.peek? : t.peek? = some c.peek := by
  obtain ⟨behind, htokens⟩ := h.tokens
  rw [Tape.peek?, htokens, h.index, List.getElem?_append_right (by simp), List.length_reverse,
    Nat.sub_self, Cursor.peek]
  cases c.ahead <;> rfl

theorem Shows.previous? : t.previous? = some c.previous := by
  obtain ⟨behind, htokens⟩ := h.tokens
  cases hpassed : c.passed with
  | nil =>
    have hindex : t.index = 0 := by rw [h.index, hpassed, List.length_nil]
    have hpeek := h.peek?
    rw [Tape.peek?, hindex] at hpeek
    rw [Tape.previous?, hindex, Cursor.previous, hpassed]
    exact hpeek
  | cons token passed =>
    rw [Tape.previous?, htokens, h.index, hpassed, Cursor.previous, hpassed]
    simp

theorem Shows.isAtEnd? : t.isAtEnd? = some c.isAtEnd := by
  rw [Tape.isAtEnd?, h.peek?]
  rfl

theorem Shows.moveTo_advance : (t.moveTo c.advance.passed.length).Shows c.advance := by
  obtain ⟨behind, htokens⟩ := h.tokens
  cases hahead : c.ahead with
  | nil =>
    have hadvance : c.advance = c := by rw [Cursor.advance, hahead]
    rw [hadvance, ← h.index, moveTo_index]
    exact h
  | cons token ahead =>
    rw [Cursor.advance, hahead]
    refine ⟨⟨behind, ?_⟩, rfl, ?_, h.stop⟩
    · simp [htokens, hahead]
    · exact fun u hu => h.ahead u (by simp [hahead, hu])

theorem Shows.advance? :
    t.advance? = some (c.advance.previous, t.moveTo c.advance.passed.length) := by
  have hmove : (if c.isAtEnd then t else t.moveTo (t.index + 1)) =
      t.moveTo c.advance.passed.length := by
    cases hahead : c.ahead with
    | nil =>
      have hatEnd : c.isAtEnd = true := by simp [Cursor.isAtEnd, Cursor.peek, hahead, h.stop]
      rw [hatEnd, if_pos rfl, Cursor.advance, hahead, ← h.index, moveTo_index]
    | cons token ahead =>
      have hopen := h.ahead token (by simp [hahead])
      have hatEnd : c.isAtEnd = false := by simp [Cursor.isAtEnd, Cursor.peek, hahead, hopen]
      rw [hatEnd, if_neg Bool.false_ne_true, Cursor.advance, hahead, h.index, List.length_cons]
  simp only [Tape.advance?, h.isAtEnd?, Option.bind_eq_bind, Option.bind_some, hmove,
    h.moveTo_advance.previous?]
  rfl

theorem Shows.answer (operation : CursorOperation) :
    ∃ t', t.answer? operation = some ((c.answer operation).1, t') ∧
      t'.Shows (c.answer operation).2 := by
  cases operation with
  | peek => exact ⟨t, by simp [answer?, Cursor.answer, h.peek?], h⟩
  | previous => exact ⟨t, by simp [answer?, Cursor.answer, h.previous?], h⟩
  | advance => exact ⟨_, by simp [answer?, Cursor.answer, h.advance?], h.moveTo_advance⟩
  | isAtEnd => exact ⟨t, by simp [answer?, Cursor.answer, h.isAtEnd?], h⟩

end

theorem Shows.answers {t : Tape} {c : Cursor} (h : t.Shows c) (operations : List CursorOperation) :
    t.answers? operations = some (c.answers operations) := by
  induction operations generalizing t c with
  | nil => rfl
  | cons operation operations ih =>
    obtain ⟨t', hanswer, h'⟩ := h.answer operation
    simp only [answers?, hanswer, Option.bind_eq_bind, Option.bind_some, ih h']
    rfl

/-- No sequence of operations looks beyond the tokens. -/
theorem answers_ofTokens (tokens : List Token) (operations : List CursorOperation) :
    (ofTokens tokens).answers? operations = some ((Cursor.ofTokens tokens).answers operations) :=
  (shows_ofTokens tokens).answers operations

end Tape

end Treewalk
