import Treewalk.Token

/-!
# Pieces

A text is cut from left to right, without gap or overlap, into pieces: blanks, comments,
strings, numbers, words, marks, and what is none of these. Each piece is the longest that
can start where it does, and `Piece.text` gives back the characters it covers.

Main definition: `pieces`.
-/

namespace Treewalk

inductive Piece
  /-- One space, tab, return or newline. -/
  | blank (c : Char)
  /-- Two slashes and `body`, up to the end of the line. -/
  | comment (body : List Char)
  /-- `body` between quotes; it may hold newlines. -/
  | string (body : List Char)
  /-- A quote that is never closed, and all that follows it. -/
  | unterminated (body : List Char)
  /-- Digits; a fraction that is not empty stands behind a point. -/
  | number (whole fraction : List Char)
  | word (letters : List Char)
  | mark (m : Mark)
  /-- A character that begins no piece of another form. -/
  | stray (c : Char)
  deriving DecidableEq

namespace Piece

def text : Piece → List Char
  | blank c => [c]
  | comment body => '/' :: '/' :: body
  | string body => '"' :: (body ++ ['"'])
  | unterminated body => '"' :: body
  | number whole [] => whole
  | number whole (d :: ds) => whole ++ '.' :: d :: ds
  | word letters => letters
  | mark m => m.chars
  | stray c => [c]

end Piece

/-! ## Character classes, all within ASCII -/

def isBlank (c : Char) : Bool :=
  c = ' ' || c = '\t' || c = '\r' || c = '\n'

/-- The first character of a word is such a letter. -/
def isLetter (c : Char) : Bool :=
  c.isAlpha || c = '_'

/-- The further characters of a word. -/
def isWordChar (c : Char) : Bool :=
  isLetter c || c.isDigit

/-! ## Cutting one piece off -/

/-- The rest of a string piece, behind its opening quote. -/
def cutString (cs : List Char) : Piece × List Char :=
  match cs.dropWhile (· != '"') with
  | [] => (.unterminated cs, [])
  | _ :: rest => (.string (cs.takeWhile (· != '"')), rest)

/-- A number piece. The point belongs to it only where a digit follows the point. -/
def cutNumber (cs : List Char) : Piece × List Char :=
  let whole := cs.takeWhile Char.isDigit
  match cs.dropWhile Char.isDigit with
  | '.' :: d :: rest =>
    if d.isDigit then
      (.number whole (d :: rest.takeWhile Char.isDigit), rest.dropWhile Char.isDigit)
    else (.number whole [], '.' :: d :: rest)
  | rest => (.number whole [], rest)

/-- A mark of one character, or a stray character. -/
def cutSingle (c : Char) (cs : List Char) : Piece × List Char :=
  match Mark.ofChar? c with
  | some m => (.mark m, cs)
  | none => (.stray c, cs)

/-- A comment, a mark of two characters where the text has one, else a single character. -/
def cutMark (c : Char) (cs : List Char) : Piece × List Char :=
  match c, cs with
  | '/', '/' :: rest => (.comment (rest.takeWhile (· != '\n')), rest.dropWhile (· != '\n'))
  | c, '=' :: rest =>
    match Mark.withEqual? c with
    | some m => (.mark m, rest)
    | none => cutSingle c ('=' :: rest)
  | c, cs => cutSingle c cs

/-- The piece that starts with `c`, and the text behind it. -/
def cut (c : Char) (cs : List Char) : Piece × List Char :=
  if isBlank c then (.blank c, cs)
  else if c = '"' then cutString cs
  else if c.isDigit then cutNumber (c :: cs)
  else if isLetter c then (.word (c :: cs.takeWhile isWordChar), cs.dropWhile isWordChar)
  else cutMark c cs

/-! ## Nothing is lost, and something is cut off -/

theorem text_append_cutString (cs : List Char) :
    (cutString cs).1.text ++ (cutString cs).2 = '"' :: cs := by
  have split := cs.takeWhile_append_dropWhile (p := (· != '"'))
  unfold cutString
  split
  · simp [Piece.text]
  · rename_i q rest h
    have hq : q = '"' := by
      have := List.head?_dropWhile_not (· != '"') cs
      simpa [h] using this
    rw [h, hq] at split
    simpa [Piece.text] using split

theorem text_append_cutNumber (cs : List Char) :
    (cutNumber cs).1.text ++ (cutNumber cs).2 = cs := by
  have split := cs.takeWhile_append_dropWhile (p := Char.isDigit)
  unfold cutNumber
  split
  · rename_i d rest h
    rw [h] at split
    split
    · simp [Piece.text, List.takeWhile_append_dropWhile, split]
    · simp [Piece.text, split]
  · simp [Piece.text, split]

theorem text_append_cutSingle (c : Char) (cs : List Char) :
    (cutSingle c cs).1.text ++ (cutSingle c cs).2 = c :: cs := by
  unfold cutSingle
  split
  · rename_i m h
    unfold Mark.ofChar? at h
    split at h <;> cases h <;> rfl
  · rfl

theorem text_append_cutMark (c : Char) (cs : List Char) :
    (cutMark c cs).1.text ++ (cutMark c cs).2 = c :: cs := by
  unfold cutMark
  split
  · simp [Piece.text, List.takeWhile_append_dropWhile]
  · split
    · rename_i m h
      unfold Mark.withEqual? at h
      split at h <;> cases h <;> rfl
    · exact text_append_cutSingle _ _
  · exact text_append_cutSingle _ _

/-- A piece and the text behind it make up the text. -/
theorem text_append_cut (c : Char) (cs : List Char) :
    (cut c cs).1.text ++ (cut c cs).2 = c :: cs := by
  unfold cut
  split
  · rfl
  split
  · rename_i h
    rw [text_append_cutString, h]
  split
  · exact text_append_cutNumber _
  split
  · simp [Piece.text, List.takeWhile_append_dropWhile]
  · exact text_append_cutMark _ _

theorem length_cutString_le (cs : List Char) : (cutString cs).2.length ≤ cs.length := by
  unfold cutString
  split
  · simp
  · rename_i h
    have := (cs.dropWhile_suffix (· != '"')).length_le
    simp only [h, List.length_cons] at this
    exact Nat.le_of_succ_le this

theorem length_cutNumber_lt {c : Char} (cs : List Char) (hc : c.isDigit) :
    (cutNumber (c :: cs)).2.length ≤ cs.length := by
  have le := (cs.dropWhile_suffix Char.isDigit).length_le
  have same : (c :: cs).dropWhile Char.isDigit = cs.dropWhile Char.isDigit := by
    simp [hc]
  unfold cutNumber
  split
  · rename_i d rest h
    rw [same] at h
    rw [h] at le
    split
    · have := (rest.dropWhile_suffix Char.isDigit).length_le
      simp only [List.length_cons] at le
      simp only
      omega
    · exact le
  · simpa [same] using le

theorem length_cutSingle (c : Char) (cs : List Char) :
    (cutSingle c cs).2.length = cs.length := by
  unfold cutSingle
  split <;> rfl

theorem length_cutMark_le (c : Char) (cs : List Char) :
    (cutMark c cs).2.length ≤ cs.length := by
  unfold cutMark
  split
  · rename_i rest
    have := (rest.dropWhile_suffix (· != '\n')).length_le
    simp only [List.length_cons]
    omega
  · split
    · simp
    · simp [length_cutSingle]
  · simp [length_cutSingle]

/-- A piece takes at least the character it starts with. -/
theorem length_cut_le (c : Char) (cs : List Char) : (cut c cs).2.length ≤ cs.length := by
  unfold cut
  split
  · exact Nat.le_refl _
  split
  · exact length_cutString_le _
  split
  · rename_i h
    exact length_cutNumber_lt _ h
  split
  · exact (cs.dropWhile_suffix isWordChar).length_le
  · exact length_cutMark_le _ _

/-! ## Cutting a whole text -/

/-- The pieces of a text, in order. -/
def pieces : List Char → List Piece
  | [] => []
  | c :: cs =>
    let r := cut c cs
    r.1 :: pieces r.2
termination_by cs => cs.length
decreasing_by exact Nat.lt_succ_of_le (length_cut_le c cs)

theorem pieces_cons (c : Char) (cs : List Char) :
    pieces (c :: cs) = (cut c cs).1 :: pieces (cut c cs).2 := by
  rw [pieces]

/-- The pieces cover the text. -/
theorem flatMap_text_pieces (cs : List Char) : (pieces cs).flatMap Piece.text = cs := by
  fun_induction pieces cs with
  | case1 => rfl
  | case2 c cs r ih => simp [ih, r, text_append_cut]

end Treewalk
