import Mathlib
import Treewalk.Diagnostic
import Treewalk.Proofs.Token.Join

/-!
# The longest match

`Piece.WellFormed` says what a piece of each form may hold, whatever stands around it. A piece is
the longest at the beginning of a text (`Piece.IsLongest`) if no other piece that begins there is
longer. Cutting off the longest piece again and again is what `pieces` does (`cutInto_iff`).

That a piece is the longest shows in what follows it, one or two characters ahead:
`Piece.EndsBefore` and `isLongest_iff`. Both directions go through `cut`, which is computed for each
form of piece in `cut_of_endsBefore`.

`ReadAs` are the tokens and diagnostics that pieces stand for. The main statement is that a scan
gives just those of the longest pieces (`scan_reads_longest_pieces`).
-/

namespace Treewalk

/-! ## Pieces by themselves -/

namespace Piece

def WellFormed : Piece → Prop
  | blank c => c = ' ' ∨ c = '\t' ∨ c = '\r' ∨ c = '\n'
  | comment body => '\n' ∉ body
  | string body | unterminated body => '"' ∉ body
  | number whole fraction =>
    whole ≠ [] ∧ (∀ c ∈ whole, c.isDigit = true) ∧ ∀ c ∈ fraction, c.isDigit = true
  | word letters =>
    ∃ c cs, letters = c :: cs ∧ isLetter c = true ∧ ∀ d ∈ cs, isWordChar d = true
  | mark _ => True
  | stray c =>
    isBlank c = false ∧ c ≠ '"' ∧ c.isDigit = false ∧ isLetter c = false ∧
      ∀ m : Mark, m.chars.head? ≠ some c

/-- Of the pieces that a text could begin with, none is longer. -/
structure IsLongest (p : Piece) (cs : List Char) : Prop where
  wellFormed : p.WellFormed
  begins : p.text <+: cs
  longest : ∀ q : Piece, q.WellFormed → q.text <+: cs → q.text.length ≤ p.text.length

/-- What follows does not go on with the piece. -/
def EndsBefore : Piece → List Char → Prop
  | comment _, rest => ∀ c ∈ rest.head?, c = '\n'
  | unterminated _, rest => rest = []
  | number _ [], rest =>
    (∀ c ∈ rest.head?, c.isDigit = false) ∧
      ∀ d more, rest = '.' :: d :: more → d.isDigit = false
  | number _ (_ :: _), rest => ∀ c ∈ rest.head?, c.isDigit = false
  | word _, rest => ∀ c ∈ rest.head?, isWordChar c = false
  | mark m, rest =>
    (m ∈ [.bang, .equal, .greater, .less] → rest.head? ≠ some '=') ∧
      (m = .slash → rest.head? ≠ some '/')
  | blank _, _ | string _, _ | stray _, _ => True

end Piece

open Piece

/-! ## Spans of characters -/

section

variable {p : Char → Bool} {body rest cs : List Char}

theorem takeWhile_of_stop (hbody : ∀ c ∈ body, p c = true)
    (hrest : ∀ c ∈ rest.head?, p c = false) : (body ++ rest).takeWhile p = body := by
  rw [List.takeWhile_append_of_pos hbody]
  cases rest with
  | nil => simp
  | cons c rest => simp [hrest c rfl]

theorem dropWhile_of_stop (hbody : ∀ c ∈ body, p c = true)
    (hrest : ∀ c ∈ rest.head?, p c = false) : (body ++ rest).dropWhile p = rest := by
  rw [List.dropWhile_append_of_pos hbody]
  cases rest with
  | nil => rfl
  | cons c rest => simp [hrest c rfl]

theorem stop_dropWhile (cs : List Char) : ∀ c ∈ (cs.dropWhile p).head?, p c = false := by
  intro c hc
  have hstop := List.head?_dropWhile_not p cs
  rwa [Option.mem_def.mp hc] at hstop

/-- A span is as long as any beginning of the text that could belong to it. -/
theorem length_le_takeWhile (h : body <+: cs) (hbody : ∀ c ∈ body, p c = true) :
    body.length ≤ (cs.takeWhile p).length := by
  obtain ⟨rest, rfl⟩ := h
  rw [List.takeWhile_append_of_pos hbody, List.length_append]
  exact Nat.le_add_right _ _

end

/-! ## What a character can begin -/

section

variable {c : Char}

theorem isBlank_iff : isBlank c = true ↔ c = ' ' ∨ c = '\t' ∨ c = '\r' ∨ c = '\n' := by
  simp [isBlank, or_assoc]

theorem isBlank_eq_false_of_isDigit (h : c.isDigit = true) : isBlank c = false := by
  refine Bool.eq_false_iff.mpr fun hblank => ?_
  rcases isBlank_iff.mp hblank with rfl | rfl | rfl | rfl <;> exact absurd h (by decide)

theorem isBlank_eq_false_of_isLetter (h : isLetter c = true) : isBlank c = false := by
  refine Bool.eq_false_iff.mpr fun hblank => ?_
  rcases isBlank_iff.mp hblank with rfl | rfl | rfl | rfl <;> exact absurd h (by decide)

theorem isDigit_eq_false_of_isLetter (h : isLetter c = true) : c.isDigit = false := by
  refine Bool.eq_false_iff.mpr fun hdigit => ?_
  by_cases hunderscore : c = '_'
  · subst hunderscore
    exact absurd hdigit (by decide)
  · simp only [isLetter, hunderscore, decide_false, Bool.or_false] at h
    simp only [Char.isDigit, Char.isAlpha, Char.isUpper, Char.isLower, Bool.and_eq_true,
      Bool.or_eq_true, decide_eq_true_eq, UInt32.le_iff_toNat_le, ge_iff_le] at h hdigit
    have hcodes : '9'.val.toNat = 57 ∧ 'A'.val.toNat = 65 ∧ 'a'.val.toNat = 97 := by decide
    omega

theorem cut_of_isBlank (h : isBlank c = true) (cs : List Char) : cut c cs = (.blank c, cs) := by
  rw [cut, if_pos h]

theorem cut_quote (cs : List Char) : cut '"' cs = cutString cs := rfl

theorem cut_of_isDigit (h : c.isDigit = true) (cs : List Char) :
    cut c cs = cutNumber (c :: cs) := by
  have hquote : c ≠ '"' := by
    rintro rfl
    exact absurd h (by decide)
  rw [cut, isBlank_eq_false_of_isDigit h, if_neg (by simp), if_neg hquote, if_pos h]

theorem cut_of_isLetter (h : isLetter c = true) (cs : List Char) :
    cut c cs = (.word (c :: cs.takeWhile isWordChar), cs.dropWhile isWordChar) := by
  have hquote : c ≠ '"' := by
    rintro rfl
    exact absurd h (by decide)
  rw [cut, isBlank_eq_false_of_isLetter h, if_neg (by simp), if_neg hquote,
    isDigit_eq_false_of_isLetter h, if_neg (by simp), if_pos h]

end

/-! ## Marks -/

theorem Mark.chars_of_ofChar? {c : Char} {m : Mark} (h : Mark.ofChar? c = some m) :
    m.chars = [c] := by
  unfold Mark.ofChar? at h
  split at h <;> cases h <;> rfl

theorem Mark.chars_of_withEqual? {c : Char} {m : Mark} (h : Mark.withEqual? c = some m) :
    m.chars = [c, '='] := by
  unfold Mark.withEqual? at h
  split at h <;> cases h <;> rfl

/-- A mark is its own character, or one that goes together with an equals sign. -/
theorem Mark.chars_cases (m : Mark) :
    ∃ c, cut c = cutMark c ∧
      (m.chars = [c] ∧ Mark.ofChar? c = some m ∨
        m.chars = [c, '='] ∧ Mark.withEqual? c = some m) := by
  cases m <;> exact ⟨_, rfl, by first | exact .inl ⟨rfl, rfl⟩ | exact .inr ⟨rfl, rfl⟩⟩

/-- A character that goes together with an equals sign is a mark by itself. -/
theorem Mark.exists_ofChar? {c : Char} {m : Mark} (h : Mark.withEqual? c = some m) :
    ∃ m', m' ∈ [.bang, .equal, .greater, .less] ∧ Mark.ofChar? c = some m' := by
  unfold Mark.withEqual? at h
  split at h <;> cases h <;> exact ⟨_, by decide, rfl⟩

theorem cutMark_of_stop {c : Char} {rest : List Char} (hslash : c = '/' → rest.head? ≠ some '/')
    (hequal : ∀ m, Mark.withEqual? c = some m → rest.head? ≠ some '=') :
    cutMark c rest = cutSingle c rest := by
  by_cases hhead : rest.head? = some '='
  · obtain ⟨more, rfl⟩ := List.head?_eq_some_iff.mp hhead
    cases hm : Mark.withEqual? c with
    | none => rw [cutMark_equal, hm]
    | some m => exact absurd rfl (hequal m hm)
  · exact cutMark_eq_cutSingle hslash hhead

/-! ## A piece is cut off if the text behind it does not go on with it -/

theorem cutString_of_closed {body : List Char} (h : '"' ∉ body) (rest : List Char) :
    cutString (body ++ '"' :: rest) = (.string body, rest) := by
  have hbody : ∀ c ∈ body, (c != '"') = true := fun c hc =>
    bne_iff_ne.mpr fun hquote => h (hquote ▸ hc)
  have hrest : ∀ c ∈ ('"' :: rest).head?, (c != '"') = false := by simp
  simp only [cutString, takeWhile_of_stop hbody hrest, dropWhile_of_stop hbody hrest]

theorem cutString_of_open {body : List Char} (h : '"' ∉ body) :
    cutString body = (.unterminated body, []) := by
  have hdrop : body.dropWhile (· != '"') = [] :=
    List.dropWhile_eq_nil_iff.mpr fun c hc => bne_iff_ne.mpr fun hquote => h (hquote ▸ hc)
  rw [cutString, hdrop]

theorem cutNumber_of_whole {whole rest : List Char} (hwhole : ∀ c ∈ whole, c.isDigit = true)
    (hrest : EndsBefore (.number whole []) rest) :
    cutNumber (whole ++ rest) = (.number whole [], rest) := by
  obtain ⟨hstop, hfraction⟩ := hrest
  simp only [cutNumber, takeWhile_of_stop hwhole hstop, dropWhile_of_stop hwhole hstop]
  split
  · rename_i d more
    rw [if_neg (by simp [hfraction d more rfl])]
  · rfl

theorem cutNumber_of_fraction {whole : List Char} {d : Char}
    (hwhole : ∀ c ∈ whole, c.isDigit = true) (hd : d.isDigit = true) (fraction rest : List Char) :
    cutNumber (whole ++ '.' :: d :: (fraction ++ rest)) =
      (.number whole (d :: (fraction ++ rest).takeWhile Char.isDigit),
        (fraction ++ rest).dropWhile Char.isDigit) := by
  have hpoint : ∀ c ∈ ('.' :: d :: (fraction ++ rest)).head?, c.isDigit = false := by
    intro c hc
    cases hc
    decide
  simp only [cutNumber, takeWhile_of_stop hwhole hpoint, dropWhile_of_stop hwhole hpoint, hd,
    if_true]

theorem cutMark_of_endsBefore {m : Mark} {c : Char} {rest : List Char}
    (hm : Mark.ofChar? c = some m) (hrest : EndsBefore (.mark m) rest) :
    cutMark c rest = (.mark m, rest) := by
  obtain ⟨hequal, hslash⟩ := hrest
  rw [cutMark_of_stop, cutSingle, hm]
  · rintro rfl
    cases hm
    exact hslash rfl
  · intro m' hm'
    obtain ⟨m'', hmem, hm''⟩ := Mark.exists_ofChar? hm'
    rw [hm] at hm''
    cases hm''
    exact hequal hmem

theorem cut_of_stray {c : Char} (h : (Piece.stray c).WellFormed) (rest : List Char) :
    cut c rest = (.stray c, rest) := by
  obtain ⟨hblank, hquote, hdigit, hletter, hmark⟩ := h
  have hsingle : Mark.ofChar? c = none := by
    cases hm : Mark.ofChar? c with
    | none => rfl
    | some m => exact absurd (by rw [Mark.chars_of_ofChar? hm]; rfl) (hmark m)
  have hcut : cut c rest = cutMark c rest := by
    simp [cut, hblank, hquote, hdigit, hletter]
  rw [hcut, cutMark_of_stop, cutSingle, hsingle]
  · rintro rfl
    cases hsingle
  · intro m hm
    obtain ⟨m', -, hm'⟩ := Mark.exists_ofChar? hm
    rw [hsingle] at hm'
    cases hm'

theorem cut_of_endsBefore {p : Piece} (hp : p.WellFormed) {c : Char} {cs rest : List Char}
    (hrest : p.EndsBefore rest) (h : c :: cs = p.text ++ rest) : cut c cs = (p, rest) := by
  cases p with
  | blank b =>
    cases h
    exact cut_of_isBlank (isBlank_iff.mpr hp) rest
  | comment body =>
    cases h
    have hbody : ∀ d ∈ body, (d != '\n') = true := fun d hd =>
      bne_iff_ne.mpr fun hnewline => hp (hnewline ▸ hd)
    have hstop : ∀ d ∈ rest.head?, (d != '\n') = false := fun d hd => by simp [hrest d hd]
    change cutMark '/' ('/' :: (body ++ rest)) = _
    simp only [cutMark, takeWhile_of_stop hbody hstop, dropWhile_of_stop hbody hstop]
  | string body =>
    rw [Piece.text, List.cons_append, List.append_assoc] at h
    cases h
    exact cutString_of_closed hp rest
  | unterminated body =>
    obtain rfl : rest = [] := hrest
    rw [Piece.text, List.append_nil] at h
    cases h
    exact cutString_of_open hp
  | number whole fraction =>
    obtain ⟨hne, hwhole, hfraction⟩ := hp
    obtain ⟨d, ds, rfl⟩ := List.exists_cons_of_ne_nil hne
    have hd := hwhole d List.mem_cons_self
    cases fraction with
    | nil =>
      cases h
      rw [cut_of_isDigit hd]
      exact cutNumber_of_whole hwhole hrest
    | cons f fs =>
      obtain ⟨hf, hfs⟩ := List.forall_mem_cons.mp hfraction
      simp only [Piece.text, List.append_assoc, List.cons_append] at h
      cases h
      have hcut := cutNumber_of_fraction hwhole hf fs rest
      rw [takeWhile_of_stop hfs hrest, dropWhile_of_stop hfs hrest] at hcut
      rw [cut_of_isDigit hd]
      exact hcut
  | word letters =>
    obtain ⟨d, ds, rfl, hd, hds⟩ := hp
    rw [Piece.text, List.cons_append] at h
    cases h
    rw [cut_of_isLetter hd, takeWhile_of_stop hds hrest, dropWhile_of_stop hds hrest]
  | mark m =>
    obtain ⟨d, hcut, ⟨hchars, hm⟩ | ⟨hchars, hm⟩⟩ := m.chars_cases
    · rw [Piece.text, hchars] at h
      cases h
      rw [hcut]
      exact cutMark_of_endsBefore hm hrest
    · rw [Piece.text, hchars] at h
      cases h
      change cut c ('=' :: rest) = _
      rw [hcut, cutMark_equal, hm]
  | stray b =>
    cases h
    exact cut_of_stray hp rest

/-! ## A piece that is cut off is well-formed, and the text behind it does not go on with it -/

theorem wellFormed_cutString (cs : List Char) :
    (cutString cs).1.WellFormed ∧ (cutString cs).1.EndsBefore (cutString cs).2 := by
  unfold cutString
  split
  · rename_i hdrop
    refine ⟨fun hmem => ?_, rfl⟩
    have hne := List.dropWhile_eq_nil_iff.mp hdrop '"' hmem
    simp at hne
  · refine ⟨fun hmem => ?_, trivial⟩
    have hne := List.mem_takeWhile_imp hmem
    simp at hne

theorem wellFormed_cutNumber {cs : List Char} (h : cs.takeWhile Char.isDigit ≠ []) :
    (cutNumber cs).1.WellFormed ∧ (cutNumber cs).1.EndsBefore (cutNumber cs).2 := by
  have hdigits : ∀ cs : List Char, ∀ c ∈ cs.takeWhile Char.isDigit, c.isDigit = true :=
    fun _ _ => List.mem_takeWhile_imp
  have hstop := stop_dropWhile (p := Char.isDigit) cs
  unfold cutNumber
  split
  · rename_i d rest hdrop
    split
    · rename_i hd
      refine ⟨⟨h, hdigits cs, ?_⟩, stop_dropWhile rest⟩
      exact List.forall_mem_cons.mpr ⟨hd, hdigits rest⟩
    · rename_i hd
      refine ⟨⟨h, hdigits cs, by simp⟩, ?_, ?_⟩
      · rwa [hdrop] at hstop
      · intro d' more heq
        cases heq
        exact Bool.eq_false_iff.mpr hd
  · rename_i hpoint
    refine ⟨⟨h, hdigits cs, by simp⟩, hstop, ?_⟩
    intro d more heq
    exact absurd heq (hpoint d more)

theorem wellFormed_cutMark {c : Char} {cs : List Char} (hblank : isBlank c = false)
    (hquote : c ≠ '"') (hdigit : c.isDigit = false) (hletter : isLetter c = false) :
    (cutMark c cs).1.WellFormed ∧ (cutMark c cs).1.EndsBefore (cutMark c cs).2 := by
  by_cases hcomment : c = '/' ∧ cs.head? = some '/'
  · obtain ⟨rfl, hhead⟩ := hcomment
    obtain ⟨body, rfl⟩ := List.head?_eq_some_iff.mp hhead
    refine ⟨fun hmem => ?_, fun d hd => ?_⟩
    · have hne := List.mem_takeWhile_imp hmem
      simp at hne
    · simpa using stop_dropWhile (p := (· != '\n')) body d hd
  by_cases hpair : ∃ m, Mark.withEqual? c = some m ∧ cs.head? = some '='
  · obtain ⟨m, hm, hhead⟩ := hpair
    obtain ⟨rest, rfl⟩ := List.head?_eq_some_iff.mp hhead
    rw [cutMark_equal, hm]
    refine ⟨trivial, fun hmem => ?_, fun hslash => ?_⟩
    · have hchars := Mark.chars_of_withEqual? hm
      simp only [List.mem_cons, List.not_mem_nil, or_false] at hmem
      rcases hmem with rfl | rfl | rfl | rfl <;> cases hchars
    · subst hslash
      cases Mark.chars_of_withEqual? hm
  · have hslash : c = '/' → cs.head? ≠ some '/' := fun hc hhead => hcomment ⟨hc, hhead⟩
    have hequal : ∀ m, Mark.withEqual? c = some m → cs.head? ≠ some '=' :=
      fun m hm hhead => hpair ⟨m, hm, hhead⟩
    rw [cutMark_of_stop hslash hequal]
    unfold cutSingle
    split
    · rename_i m hm
      refine ⟨trivial, fun hmem => ?_, fun hm' => ?_⟩
      · have hchars := Mark.chars_of_ofChar? hm
        simp only [List.mem_cons, List.not_mem_nil, or_false] at hmem
        rcases hmem with rfl | rfl | rfl | rfl <;> cases hchars <;> exact hequal _ rfl
      · subst hm'
        cases Mark.chars_of_ofChar? hm
        exact hslash rfl
    · rename_i hm
      refine ⟨⟨hblank, hquote, hdigit, hletter, fun m hhead => ?_⟩, trivial⟩
      obtain ⟨d, -, ⟨hchars, hd⟩ | ⟨hchars, hd⟩⟩ := m.chars_cases
      · rw [hchars] at hhead
        cases hhead
        rw [hm] at hd
        cases hd
      · rw [hchars] at hhead
        cases hhead
        obtain ⟨m', -, hm'⟩ := Mark.exists_ofChar? hd
        rw [hm] at hm'
        cases hm'

theorem wellFormed_cut (c : Char) (cs : List Char) :
    (cut c cs).1.WellFormed ∧ (cut c cs).1.EndsBefore (cut c cs).2 := by
  by_cases hblank : isBlank c = true
  · rw [cut_of_isBlank hblank]
    exact ⟨isBlank_iff.mp hblank, trivial⟩
  by_cases hquote : c = '"'
  · subst hquote
    exact wellFormed_cutString cs
  by_cases hdigit : c.isDigit = true
  · rw [cut_of_isDigit hdigit]
    exact wellFormed_cutNumber (by simp [hdigit])
  by_cases hletter : isLetter c = true
  · rw [cut_of_isLetter hletter]
    exact ⟨⟨c, _, rfl, hletter, fun _ => List.mem_takeWhile_imp⟩, stop_dropWhile cs⟩
  · have hcut : cut c cs = cutMark c cs := by
      simp [cut, hblank, hquote, hdigit, hletter]
    rw [hcut]
    exact wellFormed_cutMark (Bool.eq_false_iff.mpr hblank) hquote (Bool.eq_false_iff.mpr hdigit)
      (Bool.eq_false_iff.mpr hletter)

/-! ## A piece that is cut off is the longest -/

theorem length_text_cut_pos (c : Char) (cs : List Char) : 1 ≤ (cut c cs).1.text.length := by
  have hlength := congrArg List.length (text_append_cut c cs)
  rw [List.length_append, List.length_cons] at hlength
  have hrest := length_cut_le c cs
  omega

theorem length_takeWhile_le_cutNumber (cs : List Char) :
    (cs.takeWhile Char.isDigit).length ≤ (cutNumber cs).1.text.length := by
  unfold cutNumber
  split
  · split
    · simp [Piece.text]
    · exact Nat.le_refl _
  · exact Nat.le_refl _

/-- Both a string and one that is never closed reach beyond all that is no quote. -/
theorem length_lt_cutString {body cs : List Char} (h : body <+: cs) (hbody : '"' ∉ body) :
    body.length < (cutString cs).1.text.length := by
  have hne : ∀ c ∈ body, (c != '"') = true := fun c hc =>
    bne_iff_ne.mpr fun hquote => hbody (hquote ▸ hc)
  have hspan := length_le_takeWhile h hne
  have hall := h.length_le
  unfold cutString
  split
  · simp only [Piece.text, List.length_cons]
    omega
  · simp only [Piece.text, List.length_cons, List.length_append, List.length_nil]
    omega

theorem length_le_cut {q : Piece} (hq : q.WellFormed) {c : Char} {cs : List Char}
    (h : q.text <+: c :: cs) : q.text.length ≤ (cut c cs).1.text.length := by
  obtain ⟨rest, hrest⟩ := h
  cases q with
  | blank | stray => exact length_text_cut_pos c cs
  | comment body =>
    cases hrest
    have hbody : ∀ d ∈ body, (d != '\n') = true := fun d hd =>
      bne_iff_ne.mpr fun hnewline => hq (hnewline ▸ hd)
    have hspan := length_le_takeWhile (List.prefix_append body rest) hbody
    change _ ≤ (cutMark '/' ('/' :: (body ++ rest))).1.text.length
    simp only [cutMark, Piece.text, List.length_cons]
    omega
  | string body =>
    rw [Piece.text, List.cons_append, List.append_assoc] at hrest
    cases hrest
    rw [cut_quote, List.singleton_append, cutString_of_closed hq]
  | unterminated body =>
    cases hrest
    exact length_lt_cutString (List.prefix_append body rest) hq
  | number whole fraction =>
    obtain ⟨hne, hwhole, hfraction⟩ := hq
    obtain ⟨d, ds, rfl⟩ := List.exists_cons_of_ne_nil hne
    have hd := hwhole d List.mem_cons_self
    cases fraction with
    | nil =>
      have hspan := length_le_takeWhile (List.prefix_append (d :: ds) rest) hwhole
      cases hrest
      rw [cut_of_isDigit hd]
      exact Nat.le_trans hspan (length_takeWhile_le_cutNumber _)
    | cons f fs =>
      obtain ⟨hf, hfs⟩ := List.forall_mem_cons.mp hfraction
      have hcut := cutNumber_of_fraction hwhole hf fs rest
      have hspan := length_le_takeWhile (List.prefix_append fs rest) hfs
      simp only [Piece.text, List.append_assoc, List.cons_append] at hrest
      cases hrest
      rw [List.cons_append] at hcut
      rw [cut_of_isDigit hd, hcut]
      simp only [Piece.text, List.length_append, List.length_cons]
      omega
  | word letters =>
    obtain ⟨d, ds, rfl, hd, hds⟩ := hq
    cases hrest
    rw [cut_of_isLetter hd]
    exact Nat.succ_le_succ (length_le_takeWhile (List.prefix_append ds rest) hds)
  | mark m =>
    obtain ⟨d, hcut, ⟨hchars, -⟩ | ⟨hchars, hm⟩⟩ := m.chars_cases
    · rw [Piece.text, hchars]
      exact length_text_cut_pos c cs
    · rw [Piece.text, hchars] at hrest
      cases hrest
      change _ ≤ (cut c ('=' :: rest)).1.text.length
      rw [hcut, cutMark_equal, hm]

theorem isLongest_cut (c : Char) (cs : List Char) : (cut c cs).1.IsLongest (c :: cs) where
  wellFormed := (wellFormed_cut c cs).1
  begins := ⟨_, text_append_cut c cs⟩
  longest := fun _ hq hbegins => length_le_cut hq hbegins

/-! ## The longest piece is unique -/

theorem Piece.WellFormed.text_ne_nil {p : Piece} (hp : p.WellFormed) : p.text ≠ [] := by
  cases p with
  | number whole fraction => cases fraction <;> simp [Piece.text, hp.1]
  | word letters =>
    obtain ⟨c, cs, rfl, -⟩ := hp
    simp [Piece.text]
  | mark m => cases m <;> simp [Piece.text, Mark.chars]
  | _ => simp [Piece.text]

theorem Piece.endsBefore_nil (p : Piece) : p.EndsBefore [] := by
  cases p with
  | number whole fraction => cases fraction <;> simp [EndsBefore]
  | _ => simp [EndsBefore]

/-- A well-formed piece is known by its text. -/
theorem Piece.WellFormed.eq_of_text_eq {p q : Piece} (hp : p.WellFormed) (hq : q.WellFormed)
    (h : p.text = q.text) : p = q := by
  obtain ⟨c, cs, hcs⟩ := List.exists_cons_of_ne_nil hp.text_ne_nil
  have hcutP := cut_of_endsBefore hp p.endsBefore_nil (by rw [List.append_nil, hcs])
  have hcutQ := cut_of_endsBefore hq q.endsBefore_nil (by rw [List.append_nil, ← h, hcs])
  rw [hcutP] at hcutQ
  exact (Prod.mk.inj hcutQ).1

theorem Piece.IsLongest.unique {p q : Piece} {cs : List Char} (hp : p.IsLongest cs)
    (hq : q.IsLongest cs) : p = q := by
  have hlength := Nat.le_antisymm (hq.longest p hp.wellFormed hp.begins)
    (hp.longest q hq.wellFormed hq.begins)
  have hbegins := List.prefix_of_prefix_length_le hp.begins hq.begins (Nat.le_of_eq hlength)
  exact hp.wellFormed.eq_of_text_eq hq.wellFormed (hbegins.eq_of_length hlength)

theorem cut_of_isLongest {p : Piece} {c : Char} {cs rest : List Char}
    (hp : p.IsLongest (p.text ++ rest)) (h : c :: cs = p.text ++ rest) : cut c cs = (p, rest) := by
  have hpiece : (cut c cs).1 = p := (h ▸ isLongest_cut c cs).unique hp
  have happend := text_append_cut c cs
  rw [hpiece, h, List.append_cancel_left_eq] at happend
  exact Prod.ext hpiece happend

/-- Whether a piece is the longest shows in the text behind it. -/
theorem isLongest_iff {p : Piece} {rest : List Char} :
    p.IsLongest (p.text ++ rest) ↔ p.WellFormed ∧ p.EndsBefore rest := by
  constructor
  · intro h
    obtain ⟨c, cs, hcs⟩ := List.exists_cons_of_ne_nil h.wellFormed.text_ne_nil
    have heq : c :: (cs ++ rest) = p.text ++ rest := by rw [hcs, List.cons_append]
    have hcut := cut_of_isLongest h heq
    have hends := (wellFormed_cut c (cs ++ rest)).2
    rw [hcut] at hends
    exact ⟨h.wellFormed, hends⟩
  · rintro ⟨hp, hends⟩
    obtain ⟨c, cs, hcs⟩ := List.exists_cons_of_ne_nil hp.text_ne_nil
    have heq : c :: (cs ++ rest) = p.text ++ rest := by rw [hcs, List.cons_append]
    have hlongest := isLongest_cut c (cs ++ rest)
    rwa [cut_of_endsBefore hp hends heq, heq] at hlongest

/-! ## Whole texts -/

/-- The longest piece is cut off the text as long as there is any of it left. -/
inductive CutInto : List Char → List Piece → Prop
  | nil : CutInto [] []
  | cons {p : Piece} {rest : List Char} {ps : List Piece} (h : p.IsLongest (p.text ++ rest))
      (hrest : CutInto rest ps) : CutInto (p.text ++ rest) (p :: ps)

theorem cutInto_pieces (cs : List Char) : CutInto cs (pieces cs) := by
  fun_induction pieces cs with
  | case1 => exact .nil
  | case2 c cs r ih =>
    have happend := text_append_cut c cs
    rw [← happend]
    exact .cons (happend.symm ▸ isLongest_cut c cs) ih

theorem CutInto.eq_pieces {cs : List Char} {ps : List Piece} (h : CutInto cs ps) :
    ps = pieces cs := by
  induction h with
  | nil => rw [pieces]
  | @cons p rest ps hp _ ih =>
    obtain ⟨c, cs, hcs⟩ := List.exists_cons_of_ne_nil hp.wellFormed.text_ne_nil
    have heq : c :: (cs ++ rest) = p.text ++ rest := by rw [hcs, List.cons_append]
    have hcut := cut_of_isLongest hp heq
    rw [hcs, List.cons_append, pieces_cons, hcut, ih]

theorem cutInto_iff {cs : List Char} {ps : List Piece} : CutInto cs ps ↔ ps = pieces cs :=
  ⟨CutInto.eq_pieces, fun h => h ▸ cutInto_pieces cs⟩

theorem CutInto.flatMap_text {cs : List Char} {ps : List Piece} (h : CutInto cs ps) :
    ps.flatMap Piece.text = cs := by
  rw [h.eq_pieces, flatMap_text_pieces]

/-- What each piece of a text is, and what it is not gone on with. -/
theorem CutInto.wellFormed_of_split {cs : List Char} {ps before after : List Piece} {p : Piece}
    (h : CutInto cs ps) (hsplit : ps = before ++ p :: after) :
    p.WellFormed ∧ p.EndsBefore (after.flatMap Piece.text) := by
  induction h generalizing before with
  | nil => simp at hsplit
  | @cons q rest ps hq hrest ih =>
    cases before with
    | nil =>
      obtain ⟨rfl, rfl⟩ := List.cons.inj hsplit
      rw [hrest.flatMap_text]
      exact isLongest_iff.mp hq
    | cons _ before => exact ih (List.cons.inj hsplit).2

/-! ## Tokens and diagnostics -/

/-- The kind of token that a piece stands for. -/
inductive Denotes : Piece → TokenKind → Prop
  | string (body : List Char) : Denotes (.string body) (.string (String.ofList body))
  | number (whole fraction : List Char) :
      Denotes (.number whole fraction)
        (.number (Number.ofDecimal (Decimal.ofDigits whole fraction)))
  | keyword {letters : List Char} {k : Keyword} (h : k.text = String.ofList letters) :
      Denotes (.word letters) (.keyword k)
  | identifier {letters : List Char} (h : ∀ k : Keyword, k.text ≠ String.ofList letters) :
      Denotes (.word letters) .identifier
  | mark (m : Mark) : Denotes (.mark m) (.mark m)

theorem Keyword.ofText?_eq_some_iff {word : String} {k : Keyword} :
    Keyword.ofText? word = some k ↔ k.text = word := by
  constructor
  · intro h
    simpa using List.find?_some h
  · rintro rfl
    cases k <;> decide

theorem denotes_iff {p : Piece} {kind : TokenKind} : Denotes p kind ↔ p.kind? = some kind := by
  constructor
  · intro h
    cases h with
    | keyword hk => simp [Piece.kind?, TokenKind.ofWord, Keyword.ofText?_eq_some_iff.mpr hk]
    | @identifier letters hnone =>
      have hword : Keyword.ofText? (String.ofList letters) = none :=
        Option.eq_none_iff_forall_ne_some.mpr fun k hk =>
          hnone k (Keyword.ofText?_eq_some_iff.mp hk)
      simp [Piece.kind?, TokenKind.ofWord, hword]
    | _ => rfl
  · intro h
    cases p with
    | word letters =>
      cases hword : Keyword.ofText? (String.ofList letters) with
      | none =>
        simp only [Piece.kind?, TokenKind.ofWord, hword] at h
        cases h
        refine .identifier fun k hk => ?_
        rw [Keyword.ofText?_eq_some_iff.mpr hk] at hword
        cases hword
      | some k =>
        simp only [Piece.kind?, TokenKind.ofWord, hword] at h
        cases h
        exact .keyword (Keyword.ofText?_eq_some_iff.mp hword)
    | blank | comment | unterminated | stray => cases h
    | _ =>
      cases h
      constructor

/-- The message about a piece that is an error. -/
inductive Faults : Piece → String → Prop
  | stray (c : Char) : Faults (.stray c) "Unexpected character."
  | unterminated (body : List Char) : Faults (.unterminated body) "Unterminated string."

/-- The tokens and diagnostics of pieces, the first of which begins on `line`. -/
inductive ReadAs : UInt32 → List Piece → List Token → List Diagnostic → Prop
  | nil (line : UInt32) : ReadAs line [] [⟨.eof, "", line⟩] []
  | token {line : UInt32} {p : Piece} {kind : TokenKind} {ps : List Piece} {ts : List Token}
      {ds : List Diagnostic} (h : Denotes p kind)
      (hrest : ReadAs (lineAfter line p.text) ps ts ds) :
      ReadAs line (p :: ps) (⟨kind, String.ofList p.text, lineAfter line p.text⟩ :: ts) ds
  | fault {line : UInt32} {p : Piece} {message : String} {ps : List Piece} {ts : List Token}
      {ds : List Diagnostic} (h : Faults p message)
      (hrest : ReadAs (lineAfter line p.text) ps ts ds) :
      ReadAs line (p :: ps) ts (.source (lineAfter line p.text) "" message :: ds)
  | blank {line : UInt32} {c : Char} {ps : List Piece} {ts : List Token} {ds : List Diagnostic}
      (hrest : ReadAs (lineAfter line (Piece.blank c).text) ps ts ds) :
      ReadAs line (.blank c :: ps) ts ds
  | comment {line : UInt32} {body : List Char} {ps : List Piece} {ts : List Token}
      {ds : List Diagnostic}
      (hrest : ReadAs (lineAfter line (Piece.comment body).text) ps ts ds) :
      ReadAs line (.comment body :: ps) ts ds

/-- The tokens of pieces, with the closing one. -/
def tokensFrom (line : UInt32) (ps : List Piece) : List Token :=
  (withLines line ps).filterMap (fun (p, line) => p.token? line) ++
    [Token.eof (lineReached line (withLines line ps))]

def diagnosticsFrom (line : UInt32) (ps : List Piece) : List Diagnostic :=
  ((withLines line ps).filterMap fun (p, line) => p.error? line).map Diagnostic.ofLexicalError

section

variable {line : UInt32} {p : Piece} {ps : List Piece}

theorem tokensFrom_cons :
    tokensFrom line (p :: ps) =
      (p.token? (lineAfter line p.text)).toList ++ tokensFrom (lineAfter line p.text) ps := by
  simp only [tokensFrom, withLines, List.filterMap_cons, lineReached_cons]
  cases p.token? (lineAfter line p.text) <;> rfl

theorem diagnosticsFrom_cons :
    diagnosticsFrom line (p :: ps) =
      (p.error? (lineAfter line p.text)).toList.map Diagnostic.ofLexicalError ++
        diagnosticsFrom (lineAfter line p.text) ps := by
  simp only [diagnosticsFrom, withLines, List.filterMap_cons]
  cases p.error? (lineAfter line p.text) <;> rfl

theorem readAs_from (line : UInt32) (ps : List Piece) :
    ReadAs line ps (tokensFrom line ps) (diagnosticsFrom line ps) := by
  induction ps generalizing line with
  | nil => exact .nil line
  | cons p ps ih =>
    have hrest := ih (lineAfter line p.text)
    rw [tokensFrom_cons, diagnosticsFrom_cons]
    cases p with
    | blank c => exact .blank hrest
    | comment body => exact .comment hrest
    | stray c => exact .fault (.stray c) hrest
    | unterminated body => exact .fault (.unterminated body) hrest
    | string body => exact .token (.string body) hrest
    | number whole fraction => exact .token (.number whole fraction) hrest
    | word letters => exact .token (denotes_iff.mpr rfl) hrest
    | mark m => exact .token (.mark m) hrest

theorem ReadAs.eq_from {ts : List Token} {ds : List Diagnostic} (h : ReadAs line ps ts ds) :
    ts = tokensFrom line ps ∧ ds = diagnosticsFrom line ps := by
  induction h with
  | nil line => exact ⟨rfl, rfl⟩
  | token hkind _ ih =>
    rw [tokensFrom_cons, diagnosticsFrom_cons, Piece.token?, denotes_iff.mp hkind, ih.1, ih.2]
    cases hkind <;> exact ⟨rfl, rfl⟩
  | fault hfault _ ih =>
    rw [tokensFrom_cons, diagnosticsFrom_cons, ih.1, ih.2]
    cases hfault <;> exact ⟨rfl, rfl⟩
  | blank _ ih | comment _ ih =>
    rw [tokensFrom_cons, diagnosticsFrom_cons, ih.1, ih.2]
    exact ⟨rfl, rfl⟩

end

/-- A text is cut in one way into pieces each of which is the longest, which is to say well-formed
and not gone on with by the text behind it. A scan gives the tokens and the diagnostics that these
pieces stand for, and no others. -/
theorem scan_reads_longest_pieces (source : String) :
    ∃ ps, (∀ qs, CutInto source.toList qs ↔ qs = ps) ∧
      ps.flatMap Piece.text = source.toList ∧
      (∀ before p after, ps = before ++ p :: after →
        p.WellFormed ∧ p.EndsBefore (after.flatMap Piece.text)) ∧
      ∀ ts ds, ReadAs 1 ps ts ds ↔
        ts = (scan source).tokens ∧
          ds = (scan source).errors.map Diagnostic.ofLexicalError := by
  refine ⟨pieces source.toList, fun qs => cutInto_iff, flatMap_text_pieces _, ?_, ?_⟩
  · intro before p after hsplit
    exact (cutInto_pieces source.toList).wellFormed_of_split hsplit
  · intro ts ds
    constructor
    · exact ReadAs.eq_from
    · rintro ⟨rfl, rfl⟩
      exact readAs_from 1 _

end Treewalk
