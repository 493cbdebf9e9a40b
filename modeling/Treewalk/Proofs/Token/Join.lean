import Mathlib.Data.List.Forall2
import Treewalk.Token.Scan

/-!
# Texts joined by a newline

No piece goes on behind a newline but a string that is still open. So the pieces of two texts joined
by a newline are those of the first and those of the second (`pieces_join`), and their tokens differ
from the tokens of each in nothing but the lines of the second, which are raised (`scan_join`).

* `exists_line_eq` bounds the lines of tokens by the newlines of the text, so that raising them
  does not wrap around (`toNat_add_linesBefore`).
* `scan_distributes`: the scan of joined texts, with the lines counted as natural numbers.
-/

namespace Treewalk

/-! ## Pieces -/

section

variable {p : Char → Bool} {x : Char} {rest : List Char}

theorem takeWhile_append_cons (hx : p x = false) (cs : List Char) :
    (cs ++ x :: rest).takeWhile p = cs.takeWhile p := by
  induction cs with
  | nil => simp [hx]
  | cons c cs ih =>
    by_cases hc : p c = true
    · simp [hc, ih]
    · simp [hc]

theorem dropWhile_append_cons (hx : p x = false) (cs : List Char) :
    (cs ++ x :: rest).dropWhile p = cs.dropWhile p ++ x :: rest := by
  induction cs with
  | nil => simp [hx]
  | cons c cs ih =>
    by_cases hc : p c = true
    · simp [hc, ih]
    · simp [hc]

/-- The same up to a character that is there already. -/
theorem takeWhile_append_of_dropWhile (rest : List Char) {cs tail : List Char}
    (h : cs.dropWhile p = x :: tail) :
    (cs ++ rest).takeWhile p = cs.takeWhile p ∧ (cs ++ rest).dropWhile p = x :: tail ++ rest := by
  induction cs with
  | nil => cases h
  | cons c cs ih =>
    by_cases hc : p c = true
    · rw [List.dropWhile_cons_of_pos hc] at h
      simp [hc, ih h]
    · rw [List.dropWhile_cons_of_neg hc] at h
      simp [hc, ← h]

end

/-- The piece that a text begins with, with more text behind a newline. -/
def Survives (cutting : List Char → Piece × List Char) (cs : List Char) : Prop :=
  ∀ rest, cutting (cs ++ '\n' :: rest) = ((cutting cs).1, (cutting cs).2 ++ '\n' :: rest)

theorem survives_cutString {cs : List Char} (h : ∀ body, (cutString cs).1 ≠ .unterminated body) :
    Survives cutString cs := by
  intro rest
  cases hdrop : cs.dropWhile (· != '"') with
  | nil => exact absurd (by rw [cutString, hdrop]) (h cs)
  | cons q tail =>
    obtain ⟨htake, hdrop'⟩ := takeWhile_append_of_dropWhile ('\n' :: rest) hdrop
    simp only [cutString, hdrop, hdrop', htake, List.cons_append]

theorem survives_cutNumber (cs : List Char) : Survives cutNumber cs := by
  intro rest
  have hdigit : Char.isDigit '\n' = false := by decide
  simp only [cutNumber, takeWhile_append_cons hdigit, dropWhile_append_cons hdigit]
  cases cs.dropWhile Char.isDigit with
  | nil => rfl
  | cons c tail =>
    by_cases hc : c = '.'
    · subst hc
      cases tail with
      | nil => rfl
      | cons d tail =>
        simp only [List.cons_append, takeWhile_append_cons hdigit, dropWhile_append_cons hdigit]
        split <;> rfl
    · simp [hc]

theorem survives_cutSingle (c : Char) (cs : List Char) : Survives (cutSingle c) cs := by
  intro rest
  unfold cutSingle
  split <;> rfl

theorem cutMark_equal (c : Char) (cs : List Char) :
    cutMark c ('=' :: cs) =
      match Mark.withEqual? c with
      | some m => (.mark m, cs)
      | none => cutSingle c ('=' :: cs) := by
  unfold cutMark
  split
  case h_1 hcs => simp at hcs
  case h_2 hcs =>
    obtain ⟨-, rfl⟩ := List.cons.inj hcs
    rfl
  case h_3 hequal _ => exact (hequal cs rfl).elim

theorem cutMark_eq_cutSingle {c : Char} {cs : List Char}
    (hcomment : c = '/' → cs.head? ≠ some '/') (hequal : cs.head? ≠ some '=') :
    cutMark c cs = cutSingle c cs := by
  unfold cutMark
  split
  case h_1 => exact (hcomment rfl rfl).elim
  case h_2 => exact (hequal rfl).elim
  case h_3 => rfl

theorem survives_cutMark (c : Char) (cs : List Char) : Survives (cutMark c) cs := by
  intro rest
  by_cases hcomment : c = '/' ∧ cs.head? = some '/'
  · obtain ⟨rfl, hhead⟩ := hcomment
    obtain ⟨tail, rfl⟩ := List.head?_eq_some_iff.mp hhead
    simp only [cutMark, List.cons_append,
      takeWhile_append_cons (p := (· != '\n')) (x := '\n') (by decide),
      dropWhile_append_cons (p := (· != '\n')) (x := '\n') (by decide)]
  by_cases hequal : cs.head? = some '='
  · obtain ⟨tail, rfl⟩ := List.head?_eq_some_iff.mp hequal
    rw [List.cons_append, cutMark_equal, cutMark_equal]
    cases Mark.withEqual? c with
    | some m => rfl
    | none => exact survives_cutSingle c ('=' :: tail) rest
  · have hjoined : (cs ++ '\n' :: rest).head? = some '\n' ∨
        (cs ++ '\n' :: rest).head? = cs.head? := by
      cases cs with
      | nil => exact .inl rfl
      | cons d tail => exact .inr rfl
    rw [cutMark_eq_cutSingle (fun hc hhead => hcomment ⟨hc, hhead⟩) hequal,
      cutMark_eq_cutSingle (fun hc hhead => ?_) fun hhead => ?_]
    · exact survives_cutSingle c cs rest
    · rcases hjoined with h | h <;> rw [h] at hhead
      · simp at hhead
      · exact hcomment ⟨hc, hhead⟩
    · rcases hjoined with h | h <;> rw [h] at hhead
      · simp at hhead
      · exact hequal hhead

theorem survives_cut {c : Char} {cs : List Char}
    (h : ∀ body, (cut c cs).1 ≠ .unterminated body) : Survives (cut c) cs := by
  intro rest
  have hword : isWordChar '\n' = false := by decide
  unfold cut at h ⊢
  split
  · rfl
  split
  · rename_i hblank hquote
    rw [if_neg hblank, if_pos hquote] at h
    exact survives_cutString h rest
  split
  · exact survives_cutNumber (c :: cs) rest
  split
  · rw [takeWhile_append_cons hword, dropWhile_append_cons hword]
  · exact survives_cutMark c cs rest

theorem pieces_join {as : List Char} (h : ∀ body, .unterminated body ∉ pieces as)
    (bs : List Char) : pieces (as ++ '\n' :: bs) = pieces as ++ .blank '\n' :: pieces bs := by
  fun_induction pieces as with
  | case1 => exact pieces_cons '\n' bs
  | case2 c cs r ih =>
    have hcut := survives_cut (fun body hbody => h body (hbody ▸ List.mem_cons_self)) bs
    rw [List.cons_append, pieces_cons, hcut,
      ih fun body hbody => h body (List.mem_cons_of_mem _ hbody), List.cons_append]

/-! ## Lines -/

theorem lineAfter_append (line : UInt32) (as bs : List Char) :
    lineAfter line (as ++ bs) = lineAfter (lineAfter line as) bs := by
  rw [lineAfter, lineAfter, lineAfter, List.count_append, UInt32.ofNat_add, UInt32.add_assoc]

theorem lineAfter_add (line raised : UInt32) (cs : List Char) :
    lineAfter (line + raised) cs = lineAfter line cs + raised := by
  rw [lineAfter, lineAfter, UInt32.add_assoc, UInt32.add_comm raised, ← UInt32.add_assoc]

theorem lineReached_cons (line : UInt32) (p : Piece × UInt32) (placed : List (Piece × UInt32)) :
    lineReached line (p :: placed) = lineReached p.2 placed := by
  rw [lineReached, lineReached, List.getLast?_cons]
  cases placed.getLast? <;> rfl

/-- Carried on from piece to piece, the line is that of the whole text. -/
theorem lineReached_withLines (line : UInt32) (ps : List Piece) :
    lineReached line (withLines line ps) = lineAfter line (ps.flatMap Piece.text) := by
  induction ps generalizing line with
  | nil => simp [lineReached, withLines, lineAfter]
  | cons p ps ih =>
    rw [withLines, lineReached_cons, ih, List.flatMap_cons, lineAfter_append]

theorem withLines_append (line : UInt32) (ps qs : List Piece) :
    withLines line (ps ++ qs) =
      withLines line ps ++ withLines (lineAfter line (ps.flatMap Piece.text)) qs := by
  induction ps generalizing line with
  | nil => simp [withLines, lineAfter]
  | cons p ps ih =>
    rw [List.cons_append, withLines, withLines, ih, List.flatMap_cons, lineAfter_append,
      List.cons_append]

theorem withLines_add (line raised : UInt32) (ps : List Piece) :
    withLines (line + raised) ps = (withLines line ps).map fun (p, n) => (p, n + raised) := by
  induction ps generalizing line with
  | nil => rfl
  | cons p ps ih => rw [withLines, withLines, lineAfter_add, ih, List.map_cons]

theorem exists_mem_withLines {p : Piece} {ps : List Piece} (h : p ∈ ps) (line : UInt32) :
    ∃ n, (p, n) ∈ withLines line ps := by
  induction ps generalizing line with
  | nil => cases h
  | cons q ps ih =>
    rcases List.mem_cons.mp h with rfl | h
    · exact ⟨_, List.mem_cons_self⟩
    · obtain ⟨n, hn⟩ := ih h (lineAfter line q.text)
      exact ⟨n, List.mem_cons_of_mem _ hn⟩

/-- Each line is reached behind a part of the newlines. -/
theorem exists_line_eq_of_mem {line : UInt32} {ps : List Piece} {placed : Piece × UInt32}
    (h : placed ∈ withLines line ps) :
    ∃ n ≤ (ps.flatMap Piece.text).count '\n', placed.2 = line + UInt32.ofNat n := by
  induction ps generalizing line with
  | nil => cases h
  | cons p ps ih =>
    rw [List.flatMap_cons, List.count_append]
    rcases List.mem_cons.mp h with rfl | h
    · exact ⟨_, Nat.le_add_right _ _, rfl⟩
    · obtain ⟨n, hn, hline⟩ := ih h
      refine ⟨p.text.count '\n' + n, Nat.add_le_add_left hn _, ?_⟩
      rw [hline, lineAfter, UInt32.ofNat_add, UInt32.add_assoc]

/-! ## Tokens -/

/-- The same token some lines further down. -/
def Token.raise (raised : UInt32) (t : Token) : Token :=
  { t with line := t.line + raised }

def LexicalError.raise (raised : UInt32) (e : LexicalError) : LexicalError :=
  { e with line := e.line + raised }

/-- The tokens of a text, without the closing one. -/
def innerTokens (source : String) : List Token :=
  (withLines 1 (pieces source.toList)).filterMap fun (p, line) => p.token? line

/-- How far a text is moved down by a text before it and a newline. -/
def linesBefore (a : String) : UInt32 :=
  UInt32.ofNat (a.toList.count '\n' + 1)

theorem tokens_scan (source : String) :
    (scan source).tokens = innerTokens source ++ [Token.eof (lineAfter 1 source.toList)] := by
  rw [scan, lineReached_withLines, flatMap_text_pieces]
  rfl

theorem Piece.token?_add (p : Piece) (line raised : UInt32) :
    p.token? (line + raised) = (p.token? line).map (Token.raise raised) := by
  unfold Piece.token?
  cases p.kind? <;> rfl

theorem Piece.error?_add (p : Piece) (line raised : UInt32) :
    p.error? (line + raised) = (p.error? line).map (LexicalError.raise raised) := by
  unfold Piece.error?
  cases p.fault? <;> rfl

theorem toList_join (a b : String) : (a ++ "\n" ++ b).toList = a.toList ++ '\n' :: b.toList := by
  simp

/-- The pieces of joined texts with their lines. -/
theorem withLines_join {a : String} (h : ∀ e ∈ (scan a).errors, e.fault ≠ .unterminatedString)
    (b : String) :
    withLines 1 (pieces (a ++ "\n" ++ b).toList) =
      withLines 1 (pieces a.toList) ++ (.blank '\n', 1 + linesBefore a) ::
        (withLines 1 (pieces b.toList)).map fun (p, n) => (p, n + linesBefore a) := by
  have hclosed : ∀ body, .unterminated body ∉ pieces a.toList := by
    intro body hbody
    obtain ⟨n, hn⟩ := exists_mem_withLines hbody 1
    exact h ⟨.unterminatedString, n⟩ (List.mem_filterMap.mpr ⟨_, hn, rfl⟩) rfl
  have hline : lineAfter (lineAfter 1 a.toList) (Piece.blank '\n').text = 1 + linesBefore a := by
    rw [← lineAfter_append, lineAfter, linesBefore, List.count_append]
    rfl
  rw [toList_join, pieces_join hclosed, withLines_append, flatMap_text_pieces, withLines, hline,
    withLines_add]

/-- What is made of the pieces of joined texts, where nothing is made of the newline. -/
theorem filterMap_join {α : Type} {g : Piece → UInt32 → Option α} {f : α → α} {a : String}
    (h : ∀ e ∈ (scan a).errors, e.fault ≠ .unterminatedString)
    (hblank : ∀ line, g (.blank '\n') line = none)
    (hg : ∀ p line, g p (line + linesBefore a) = (g p line).map f) (b : String) :
    (withLines 1 (pieces (a ++ "\n" ++ b).toList)).filterMap (fun (p, line) => g p line) =
      (withLines 1 (pieces a.toList)).filterMap (fun (p, line) => g p line) ++
        ((withLines 1 (pieces b.toList)).filterMap fun (p, line) => g p line).map f := by
  simp only [withLines_join h, List.filterMap_append, List.filterMap_cons, hblank,
    List.filterMap_map, List.map_filterMap]
  congr 2
  funext ⟨p, line⟩
  exact hg p line

theorem innerTokens_join {a : String} (h : ∀ e ∈ (scan a).errors, e.fault ≠ .unterminatedString)
    (b : String) :
    innerTokens (a ++ "\n" ++ b) =
      innerTokens a ++ (innerTokens b).map (Token.raise (linesBefore a)) :=
  filterMap_join h (fun _ => rfl) (fun p line => p.token?_add line _) b

/-- The scan of joined texts. -/
theorem scan_join {a : String} (h : ∀ e ∈ (scan a).errors, e.fault ≠ .unterminatedString)
    (b : String) :
    (scan (a ++ "\n" ++ b)).tokens =
        innerTokens a ++ (scan b).tokens.map (Token.raise (linesBefore a)) ∧
      (scan (a ++ "\n" ++ b)).errors =
        (scan a).errors ++ (scan b).errors.map (LexicalError.raise (linesBefore a)) := by
  constructor
  · have heof : lineAfter 1 (a ++ "\n" ++ b).toList =
        lineAfter 1 b.toList + linesBefore a := by
      rw [toList_join, lineAfter, lineAfter, linesBefore, UInt32.add_assoc, ← UInt32.ofNat_add,
        List.count_append, List.count_cons_self]
      congr 2
      omega
    rw [tokens_scan, tokens_scan, innerTokens_join h, List.map_append, List.append_assoc, heof]
    rfl
  · exact filterMap_join h (fun _ => rfl) (fun p line => p.error?_add line _) b

theorem kind?_ne_eof (p : Piece) : p.kind? ≠ some .eof := by
  cases p with
  | word letters =>
    simp only [Piece.kind?, TokenKind.ofWord]
    split <;> simp
  | _ => simp [Piece.kind?]

/-- The tokens before the closing one. -/
theorem takeWhile_tokens_scan (source : String) :
    (scan source).tokens.takeWhile (!·.isEof) = innerTokens source := by
  have hinner : ∀ t ∈ innerTokens source, (!t.isEof) = true := by
    intro t ht
    obtain ⟨⟨p, line⟩, -, htoken⟩ := List.mem_filterMap.mp ht
    obtain ⟨kind, hkind, rfl⟩ := Option.map_eq_some_iff.mp htoken
    have hne : kind ≠ .eof := fun h => kind?_ne_eof p (h ▸ hkind)
    simpa [Token.isEof] using hne
  rw [tokens_scan, List.takeWhile_append_of_pos hinner]
  exact List.append_nil _

theorem exists_line_eq {source : String} {t : Token} (h : t ∈ innerTokens source) :
    ∃ n ≤ source.toList.count '\n', t.line = 1 + UInt32.ofNat n := by
  obtain ⟨⟨p, line⟩, hplaced, htoken⟩ := List.mem_filterMap.mp h
  obtain ⟨n, hn, hline⟩ := exists_line_eq_of_mem hplaced
  rw [flatMap_text_pieces] at hn
  refine ⟨n, hn, ?_⟩
  obtain ⟨kind, -, rfl⟩ := Option.map_eq_some_iff.mp htoken
  exact hline

theorem exists_line_eq_of_error {source : String} {e : LexicalError}
    (h : e ∈ (scan source).errors) :
    ∃ n ≤ source.toList.count '\n', e.line = 1 + UInt32.ofNat n := by
  obtain ⟨⟨p, line⟩, hplaced, herror⟩ := List.mem_filterMap.mp h
  obtain ⟨n, hn, hline⟩ := exists_line_eq_of_mem hplaced
  rw [flatMap_text_pieces] at hn
  refine ⟨n, hn, ?_⟩
  obtain ⟨fault, -, rfl⟩ := Option.map_eq_some_iff.mp herror
  exact hline

/-- Lines are raised without wrapping around where they can all be counted. -/
theorem toNat_add_linesBefore {a b : String}
    (h : (a ++ "\n" ++ b).toList.count '\n' < UInt32.size - 1) {line : UInt32}
    (hline : ∃ n ≤ b.toList.count '\n', line = 1 + UInt32.ofNat n) :
    (line + linesBefore a).toNat = line.toNat + (a.toList.count '\n' + 1) := by
  obtain ⟨n, hn, rfl⟩ := hline
  rw [toList_join, List.count_append, List.count_cons_self] at h
  simp only [linesBefore, UInt32.toNat_add, UInt32.toNat_ofNat', UInt32.reduceToNat,
    UInt32.size] at h ⊢
  omega

theorem toNat_line_raise {a b : String}
    (h : (a ++ "\n" ++ b).toList.count '\n' < UInt32.size - 1)
    {t : Token} (ht : t ∈ innerTokens b) :
    (t.line + linesBefore a).toNat = t.line.toNat + (a.toList.count '\n' + 1) :=
  toNat_add_linesBefore h (exists_line_eq ht)

/-! ## The scan as a homomorphism -/

/-- The token `u` is `t` so many lines further down. -/
def Token.IsBelow (lines : Nat) (t u : Token) : Prop :=
  u.kind = t.kind ∧ u.lexeme = t.lexeme ∧ u.line.toNat = t.line.toNat + lines

def LexicalError.IsBelow (lines : Nat) (e f : LexicalError) : Prop :=
  f.fault = e.fault ∧ f.line.toNat = e.line.toNat + lines

/-- A text whose strings are all closed can be scanned by itself: behind it and a newline, any
other text is scanned as it is alone, with all its lines further down by those of the first text.
The closing token of the first text is dropped. -/
theorem scan_distributes {a b : String}
    (hclosed : ∀ e ∈ (scan a).errors, e.fault ≠ .unterminatedString)
    (hlines : (a ++ "\n" ++ b).toList.count '\n' < UInt32.size - 1) :
    ∃ (inner below : List Token) (stop : Token) (errorsBelow : List LexicalError),
      (scan a).tokens = inner ++ [stop] ∧ stop.kind = .eof ∧
      (scan (a ++ "\n" ++ b)).tokens = inner ++ below ∧
      (scan (a ++ "\n" ++ b)).errors = (scan a).errors ++ errorsBelow ∧
      (scan b).tokens.Forall₂ (Token.IsBelow (a.toList.count '\n' + 1)) below ∧
      (scan b).errors.Forall₂ (LexicalError.IsBelow (a.toList.count '\n' + 1)) errorsBelow := by
  obtain ⟨htokens, herrors⟩ := scan_join hclosed b
  refine ⟨innerTokens a, _, _, _, tokens_scan a, rfl, htokens, herrors, ?_, ?_⟩
  · rw [List.forall₂_map_right_iff, List.forall₂_same]
    intro t ht
    refine ⟨rfl, rfl, toNat_add_linesBefore hlines ?_⟩
    rw [tokens_scan] at ht
    rcases List.mem_append.mp ht with ht | ht
    · exact exists_line_eq ht
    · rw [List.mem_singleton.mp ht]
      exact ⟨_, Nat.le_refl _, rfl⟩
  · rw [List.forall₂_map_right_iff, List.forall₂_same]
    intro e he
    exact ⟨rfl, toNat_add_linesBefore hlines (exists_line_eq_of_error he)⟩

/-- The comment at the seam ends there, and the stray character stands on the line behind it. -/
theorem stray_character_on_line_three :
    ∃ e, (scan ("1. //" ++ "\n" ++ "=\n@")).errors = [e] ∧
      e.fault = .unexpectedCharacter ∧ e.line.toNat = 3 := by
  have herrors : (scan "1. //").errors = [] := by decide +kernel
  have herrors' : (scan "=\n@").errors = [⟨.unexpectedCharacter, 2⟩] := by decide +kernel
  obtain ⟨_, _, _, _, -, -, -, herrorsJoin, -, hbelow⟩ :=
    scan_distributes (a := "1. //") (b := "=\n@") (by simp [herrors]) (by decide +kernel)
  rw [herrors'] at hbelow
  obtain ⟨e, _, he, hnil, rfl⟩ := List.forall₂_cons_left_iff.mp hbelow
  rw [List.forall₂_nil_left_iff.mp hnil, herrors] at herrorsJoin
  exact ⟨e, herrorsJoin, he.1, he.2⟩

end Treewalk
