import Mathlib
import Treewalk.Proofs.Number.Shortest
import Treewalk.Proofs.Token.Rescan

/-!
# The text of a number

The text of a finite number is that of its shortest decimal, behind a minus if the number is
negative. It is cut into one number piece, or into the minus and that piece (`pieces_digits`,
`pieces_minus_digits`), since the point in it has a digit on both sides. So scanning gives the
number back, and nothing shorter scans to it (`scan_text`).
-/

namespace Treewalk

/-! ## Texts on one line -/

theorem withLines_of_not_mem {line : UInt32} {ps : List Piece} (h : ∀ p ∈ ps, '\n' ∉ p.text) :
    withLines line ps = ps.map fun p => (p, line) := by
  induction ps with
  | nil => rfl
  | cons p ps ih =>
    obtain ⟨hp, hps⟩ := List.forall_mem_cons.mp h
    have hline : lineAfter line p.text = line := by
      simp [lineAfter, List.count_eq_zero.mpr hp]
    rw [withLines, hline, ih hps, List.map_cons]

theorem scan_of_pieces {source : String} {ps : List Piece} (hps : pieces source.toList = ps)
    (hline : '\n' ∉ source.toList) (hfault : ∀ p ∈ ps, p.fault? = none) :
    (scan source).errors = [] ∧
      (scan source).tokens = ps.filterMap (fun p => p.token? 1) ++ [Token.eof 1] := by
  subst hps
  refine ⟨errors_of_no_fault hfault, ?_⟩
  have hplaced : ∀ p ∈ pieces source.toList, '\n' ∉ p.text := by
    intro p hp hmem
    rw [← flatMap_text_pieces source.toList] at hline
    exact hline (List.mem_flatMap.mpr ⟨p, hp, hmem⟩)
  have hstop : lineAfter 1 source.toList = 1 := by
    simp [lineAfter, List.count_eq_zero.mpr hline]
  rw [tokens_scan, innerTokens, withLines_of_not_mem hplaced, List.filterMap_map, hstop]
  rfl

namespace Decimal

/-! ## The pieces of digits -/

variable (d : Decimal)

theorem wellFormed_digits : (Piece.number d.wholeDigits d.fractionDigits).WellFormed :=
  ⟨d.positional_digits.whole_ne_nil, d.positional_digits.isDigit_of_mem_whole,
    d.positional_digits.isDigit_of_mem_fraction⟩

theorem pieces_digits : pieces d.digits = [.number d.wholeDigits d.fractionDigits] := by
  have h := pieces_of_endsBefore d.wellFormed_digits (Piece.endsBefore_nil _)
  rwa [List.append_nil, ← digits_eq_text, pieces] at h

theorem exists_digits_eq_cons : ∃ c rest, d.digits = c :: rest ∧ c.isDigit = true := by
  obtain ⟨c, rest, hwhole⟩ := List.exists_cons_of_ne_nil d.positional_digits.whole_ne_nil
  have hc := d.positional_digits.isDigit_of_mem_whole c (by simp [hwhole])
  rw [digits_eq_text, hwhole]
  cases d.fractionDigits <;> exact ⟨c, _, rfl, hc⟩

theorem pieces_minus_digits :
    pieces ('-' :: d.digits) = [.mark .minus, .number d.wholeDigits d.fractionDigits] := by
  have hminus : (Piece.mark .minus).EndsBefore d.digits :=
    ⟨fun hmem => by simp at hmem, fun hslash => by cases hslash⟩
  have h := pieces_of_endsBefore (p := .mark .minus) trivial hminus
  rw [pieces_digits] at h
  exact h

theorem isDigit_or_eq_of_mem_digits {c : Char} (h : c ∈ d.digits) :
    c.isDigit = true ∨ c = '.' := by
  obtain ⟨-, hwhole, hfraction⟩ := d.wellFormed_digits
  rw [digits_eq_text] at h
  cases hcase : d.fractionDigits with
  | nil =>
    rw [hcase] at h
    exact .inl (hwhole c h)
  | cons e rest =>
    rw [hcase] at h hfraction
    rcases List.mem_append.mp h with h | h
    · exact .inl (hwhole c h)
    · exact (List.mem_cons.mp h).symm.imp_left (hfraction c)

theorem newline_not_mem_digits : '\n' ∉ d.digits := by
  intro hmem
  rcases d.isDigit_or_eq_of_mem_digits hmem with h | h <;> cases h

end Decimal

namespace Number

/-! ## The sign -/

theorem xor_two_pow {r i : Nat} (h : r < 2 ^ i) : (2 ^ i + r) ^^^ 2 ^ i = r := by
  refine Nat.eq_of_testBit_eq fun j => ?_
  rw [Nat.testBit_xor, Nat.testBit_two_pow]
  rcases Nat.lt_trichotomy j i with hlt | rfl | hgt
  · rw [Nat.testBit_two_pow_add_gt hlt]
    simp [hlt.ne']
  · rw [Nat.testBit_two_pow_add_eq, Nat.testBit_lt_two_pow h]
    simp
  · have hr : r < 2 ^ j := h.trans (Nat.pow_lt_pow_right (by decide) hgt)
    have hsum : 2 ^ i + r < 2 ^ j := by
      have hpow : 2 ^ (i + 1) ≤ 2 ^ j := Nat.pow_le_pow_right (by decide) hgt
      rw [Nat.pow_succ] at hpow
      omega
    rw [Nat.testBit_lt_two_pow hsum, Nat.testBit_lt_two_pow hr]
    simp [hgt.ne]

variable {x : Number}

theorem ofMagnitude_magnitude (h : x.isNegative = false) : ofMagnitude x.magnitude = x := by
  have hlt : x.bits.toNat < 2 ^ 63 := Nat.lt_of_not_le (of_decide_eq_false h)
  have hmagnitude : x.magnitude = x.bits.toNat := Nat.mod_eq_of_lt hlt
  rw [ofMagnitude, hmagnitude, UInt64.ofNat_toNat]

theorem neg_eq_ofMagnitude (h : x.isNegative = true) : -x = ofMagnitude x.magnitude := by
  have hle : 2 ^ 63 ≤ x.bits.toNat := of_decide_eq_true h
  have hlt : x.bits.toNat < 2 ^ 64 := x.bits.toNat_lt
  have hmagnitude : x.magnitude = x.bits.toNat - 2 ^ 63 := by
    rw [magnitude, Nat.pow_eq]
    omega
  have hsplit : x.bits.toNat = 2 ^ 63 + (x.bits.toNat - 2 ^ 63) := by omega
  have hbits : x.bits ^^^ 0x8000000000000000 = UInt64.ofNat x.magnitude := by
    refine UInt64.toNat_inj.mp ?_
    rw [UInt64.toNat_xor, UInt64.toNat_ofNat_of_lt' (Nat.lt_trans x.magnitude_lt (by decide)),
      hmagnitude]
    conv_lhs => rw [hsplit]
    exact xor_two_pow (by omega)
  exact congrArg Number.mk hbits

theorem neg_neg (x : Number) : -(-x) = x := by
  have hbits : x.bits ^^^ 0x8000000000000000 ^^^ 0x8000000000000000 = x.bits := by
    rw [UInt64.xor_assoc, UInt64.xor_self, UInt64.xor_zero]
  exact congrArg Number.mk hbits

theorem shortest_congr {y : Number} (h : x.magnitude = y.magnitude) : x.shortest = y.shortest := by
  simp only [shortest, exact, units, h]

theorem toList_text (h : x.isFinite = true) :
    x.text.toList = if x.isNegative then '-' :: x.shortest.digits else x.shortest.digits := by
  have hlt : x.magnitude < infiniteMagnitude := of_decide_eq_true h
  have hnan : x.isNaN = false := decide_eq_false (Nat.not_lt_of_lt hlt)
  have hinfinite : x.isInfinite = false := decide_eq_false hlt.ne
  simp [text, hnan, hinfinite]

/-! ## Scanning what was written -/

theorem token?_shortest (h : x.isFinite = true) (line : UInt32) :
    (Piece.number x.shortest.wholeDigits x.shortest.fractionDigits).token? line =
      some ⟨.number (ofMagnitude x.magnitude), String.ofList x.shortest.digits, line⟩ := by
  rw [Piece.token?, Piece.kind?, ofDecimal_congr x.shortest.value_ofDigits_digits,
    ofDecimal_shortest h, Decimal.digits_eq_text]
  rfl

theorem scan_digits (h : x.isFinite = true) {source : String}
    (hsource : source.toList = x.shortest.digits) :
    (scan source).errors = [] ∧
      (scan source).tokens = [⟨.number (ofMagnitude x.magnitude), source, 1⟩, Token.eof 1] := by
  have hpieces := x.shortest.pieces_digits
  have hline := x.shortest.newline_not_mem_digits
  have htoken := token?_shortest h 1
  rw [← hsource] at hpieces hline
  rw [← hsource, String.ofList_toList] at htoken
  obtain ⟨herrors, htokens⟩ := scan_of_pieces hpieces hline (by simp [Piece.fault?])
  exact ⟨herrors, by rw [htokens, List.filterMap_cons, htoken]; rfl⟩

theorem scan_minus_digits (h : x.isFinite = true) {source : String}
    (hsource : source.toList = '-' :: x.shortest.digits) :
    (scan source).errors = [] ∧
      (scan source).tokens = [⟨.mark .minus, "-", 1⟩,
        ⟨.number (ofMagnitude x.magnitude), String.ofList x.shortest.digits, 1⟩, Token.eof 1] := by
  have hpieces := x.shortest.pieces_minus_digits
  have hline : '\n' ∉ '-' :: x.shortest.digits :=
    List.not_mem_cons_of_ne_of_not_mem (by decide) x.shortest.newline_not_mem_digits
  have hminus : (Piece.mark .minus).token? 1 = some ⟨.mark .minus, "-", 1⟩ := rfl
  rw [← hsource] at hpieces hline
  obtain ⟨herrors, htokens⟩ := scan_of_pieces hpieces hline (by simp [Piece.fault?])
  refine ⟨herrors, ?_⟩
  rw [htokens, List.filterMap_cons, hminus, List.filterMap_cons, token?_shortest h 1]
  rfl

theorem exists_eq_number_of_kind? {p : Piece} (h : p.kind? = some (.number x)) :
    ∃ whole fraction, p = .number whole fraction ∧
      ofDecimal (Decimal.ofDigits whole fraction) = x := by
  cases denotes_iff.mpr h with
  | number whole fraction => exact ⟨whole, fraction, rfl, rfl⟩

/-- A numeral that scans to the number has no fewer significant digits than the text of its
shortest decimal. -/
theorem length_significantDigits_shortest_le (h : x.isFinite = true) {source : String} {t : Token}
    (ht : t ∈ (scan source).tokens) (hkind : t.kind = .number (ofMagnitude x.magnitude)) :
    (significantDigits x.shortest.digits).length ≤ (significantDigits t.lexeme.toList).length := by
  have hinner : t ∈ innerTokens source := by
    rw [tokens_scan] at ht
    refine (List.mem_append.mp ht).resolve_right fun hstop => ?_
    rw [List.mem_singleton.mp hstop] at hkind
    cases hkind
  obtain ⟨p, hp, hpkind, hlexeme⟩ := isWhole_of_mem hinner
  rw [hkind] at hpkind
  obtain ⟨whole, fraction, rfl, hreads⟩ := exists_eq_number_of_kind? hpkind
  obtain ⟨-, hwhole, hfraction⟩ := hp
  obtain ⟨-, hwhole', hfraction'⟩ := x.shortest.wellFormed_digits
  have hdigits := (length_significantDigits_le_iff hwhole hfraction).mp (Nat.le_refl _)
  rw [hlexeme, String.toList_ofList, Decimal.digits_eq_text,
    length_significantDigits_le_iff hwhole' hfraction', Decimal.value_ofDigits_digits]
  exact hasDigits_shortest h hreads hdigits

/-- The text of a finite number without a sign is positional and scans to that number, and no
numeral with fewer significant digits does. That of a number with a sign is the text of the number
without it behind a minus, and scans to the two. -/
theorem scan_text {x : Number} (h : x.isFinite = true) :
    (x.isNegative = false →
      (∃ whole fraction, Positional whole fraction ∧
        x.text.toList = whole ++ if fraction = [] then [] else '.' :: fraction) ∧
      (scan x.text).errors = [] ∧
      (scan x.text).tokens = [⟨.number x, x.text, 1⟩, Token.eof 1] ∧
      ∀ source, ∀ t ∈ (scan source).tokens, t.kind = .number x →
        (significantDigits x.text.toList).length ≤ (significantDigits t.lexeme.toList).length) ∧
    (x.isNegative = true →
      (-x).isFinite = true ∧ (-x).isNegative = false ∧ x.text = "-" ++ (-x).text ∧
      (scan x.text).errors = [] ∧
      (scan x.text).tokens =
        [⟨.mark .minus, "-", 1⟩, ⟨.number (-x), (-x).text, 1⟩, Token.eof 1]) := by
  have htext := toList_text h
  constructor
  · intro hsign
    rw [hsign, if_neg Bool.false_ne_true] at htext
    have hself := ofMagnitude_magnitude hsign
    obtain ⟨herrors, htokens⟩ := scan_digits h htext
    rw [hself] at htokens
    refine ⟨⟨_, _, x.shortest.positional_digits, ?_⟩, herrors, htokens, ?_⟩
    · rw [htext, Decimal.digits_eq_text]
      cases x.shortest.fractionDigits <;> simp [Piece.text]
    · intro source t ht hkind
      rw [← hself] at hkind
      rw [htext]
      exact length_significantDigits_shortest_le h ht hkind
  · intro hsign
    rw [hsign, if_pos rfl] at htext
    have hneg := neg_eq_ofMagnitude hsign
    have hmagnitude : (-x).magnitude = x.magnitude := by
      rw [hneg, magnitude_ofMagnitude x.magnitude_lt]
    have hfinite : (-x).isFinite = true := by
      rw [isFinite, hmagnitude]
      exact h
    have hpositive : (-x).isNegative = false := by
      rw [hneg]
      exact isNegative_ofMagnitude x.magnitude_lt
    have htext' : (-x).text.toList = x.shortest.digits := by
      rw [toList_text hfinite, hpositive, if_neg Bool.false_ne_true, shortest_congr hmagnitude]
    obtain ⟨herrors, htokens⟩ := scan_minus_digits h htext
    rw [← hneg, ← htext', String.ofList_toList] at htokens
    refine ⟨hfinite, hpositive, String.toList_inj.mp ?_, herrors, htokens⟩
    rw [htext, String.toList_append, htext']
    rfl

/-- Seventeen digits are needed for the sum of a tenth and two, and a zero keeps its sign. -/
theorem scan_text_of_sum_and_zero :
    (⟨0x3fd3333333333334⟩ : Number).isFinite = true ∧
      (⟨0x8000000000000000⟩ : Number).isFinite = true ∧
      (scan "0.30000000000000004").tokens =
        [⟨.number ⟨0x3fd3333333333334⟩, "0.30000000000000004", 1⟩, Token.eof 1] ∧
      (∀ source, ∀ t ∈ (scan source).tokens, t.kind = .number ⟨0x3fd3333333333334⟩ →
        17 ≤ (significantDigits t.lexeme.toList).length) ∧
      (scan "-0").tokens = [⟨.mark .minus, "-", 1⟩, ⟨.number ⟨0⟩, "0", 1⟩, Token.eof 1] := by
  have hsum : (⟨0x3fd3333333333334⟩ : Number).isFinite = true := by decide +kernel
  have hzero : (⟨0x8000000000000000⟩ : Number).isFinite = true := by decide +kernel
  have hsumText : (⟨0x3fd3333333333334⟩ : Number).text = "0.30000000000000004" := by
    decide +kernel
  have hzeroText : (⟨0x8000000000000000⟩ : Number).text = "-0" := by decide +kernel
  have habsText : (-⟨0x8000000000000000⟩ : Number).text = "0" := by decide +kernel
  obtain ⟨-, -, htokens, hleast⟩ := (scan_text hsum).1 (by decide +kernel)
  obtain ⟨-, -, -, -, htokens'⟩ := (scan_text hzero).2 (by decide +kernel)
  rw [hsumText] at htokens hleast
  rw [hzeroText, habsText] at htokens'
  have hdigits : (significantDigits "0.30000000000000004".toList).length = 17 := by decide +kernel
  rw [hdigits] at hleast
  exact ⟨hsum, hzero, htokens, hleast, htokens'⟩

end Number

end Treewalk
