import Treewalk.Text.Utf8

/-!
# Lossy decoding

`Lossy bytes chars` says how bytes are decoded, without a decoder: wherever the bytes of a character
come next it is read, and where those of none do, U+FFFD stands for the longest part of what comes
next that could have begun a character, or for one byte if there is no such part (`IllFormed`).

* `start_cases`: what the first byte of a character decides. A pending state awaits just those bytes
  that complete a character (`Pending.Awaits`).
* `lossy_iff`: this is how `decodeFrom` decodes.
* `decode_encode`: a text decodes to itself.
* `decode_append`: decoding starts afresh behind a byte that is a character of its own, whatever
  was pending there.
-/

namespace Treewalk.Utf8

open String (utf8EncodeChar)

/-! ## The bytes of a character -/

theorem toNat_ofNat {n : Nat} (h : n < 0xD800 ∨ 0xE000 ≤ n ∧ n < 0x110000) :
    (Char.ofNat n).toNat = n := by
  have hvalid : n.isValidChar := by
    unfold Nat.isValidChar
    omega
  rw [Char.ofNat, dif_pos hvalid]
  rfl

theorem toNat_range (c : Char) : c.toNat < 0xD800 ∨ 0xE000 ≤ c.toNat ∧ c.toNat < 0x110000 := by
  have hvalid := c.valid
  simp only [UInt32.isValidChar, Nat.isValidChar] at hvalid
  change c.val.toNat < _ ∨ _ ≤ c.val.toNat ∧ c.val.toNat < _
  omega

/-- A byte that can stand behind the first one of a character. -/
def IsTail (b : UInt8) : Prop := 0x80 ≤ b.toNat ∧ b.toNat < 0xC0

section

variable {c : Char} {b x y z : UInt8} {more : List UInt8}

theorem encodeChar_eq_one : utf8EncodeChar c = [b] ↔ b.toNat < 0x80 ∧ c.toNat = b.toNat := by
  have hval : c.val.toNat = c.toNat := rfl
  unfold utf8EncodeChar
  simp only [hval]
  repeat' split
  all_goals
    simp only [List.cons.injEq, ← UInt8.toNat_inj, UInt8.toNat_ofNat', and_true, reduceCtorEq,
      and_false, false_iff]
    omega

theorem encodeChar_eq_two :
    utf8EncodeChar c = [b, x] ↔ (0xC2 ≤ b.toNat ∧ b.toNat < 0xE0) ∧ IsTail x ∧
      c.toNat = b.toNat % 0x20 * 0x40 + x.toNat % 0x40 := by
  have hval : c.val.toNat = c.toNat := rfl
  unfold utf8EncodeChar IsTail
  simp only [hval]
  repeat' split
  all_goals
    simp only [List.cons.injEq, ← UInt8.toNat_inj, UInt8.toNat_ofNat', and_true, reduceCtorEq,
      and_false, false_iff]
    omega

theorem encodeChar_eq_three :
    utf8EncodeChar c = [b, x, y] ↔ (0xE0 ≤ b.toNat ∧ b.toNat < 0xF0) ∧ IsTail x ∧ IsTail y ∧
      c.toNat = (b.toNat % 0x10 * 0x40 + x.toNat % 0x40) * 0x40 + y.toNat % 0x40 ∧
      0x800 ≤ c.toNat := by
  have hval : c.val.toNat = c.toNat := rfl
  unfold utf8EncodeChar IsTail
  simp only [hval]
  repeat' split
  all_goals
    simp only [List.cons.injEq, ← UInt8.toNat_inj, UInt8.toNat_ofNat', and_true, reduceCtorEq,
      and_false, false_iff]
    omega

theorem encodeChar_eq_four :
    utf8EncodeChar c = [b, x, y, z] ↔ (0xF0 ≤ b.toNat ∧ b.toNat < 0xF8) ∧
      IsTail x ∧ IsTail y ∧ IsTail z ∧
      c.toNat = ((b.toNat % 0x8 * 0x40 + x.toNat % 0x40) * 0x40 + y.toNat % 0x40) * 0x40 +
        z.toNat % 0x40 ∧ 0x10000 ≤ c.toNat := by
  have hval : c.val.toNat = c.toNat := rfl
  have hrange := toNat_range c
  unfold utf8EncodeChar IsTail
  simp only [hval]
  repeat' split
  all_goals
    simp only [List.cons.injEq, ← UInt8.toNat_inj, UInt8.toNat_ofNat', and_true, reduceCtorEq,
      and_false, false_iff]
    omega

/-- The first byte of a character tells how many there are. -/
theorem encodeChar_cases (h : utf8EncodeChar c = b :: more) :
    (b.toNat < 0x80 ∧ more = []) ∨ (0xC2 ≤ b.toNat ∧ b.toNat < 0xE0 ∧ ∃ x, more = [x]) ∨
      (0xE0 ≤ b.toNat ∧ b.toNat < 0xF0 ∧ ∃ x y, more = [x, y]) ∨
        (0xF0 ≤ b.toNat ∧ b.toNat < 0xF5 ∧ ∃ x y z, more = [x, y, z]) := by
  have hsize := c.utf8Size_le_four
  rw [← String.length_utf8EncodeChar, h, List.length_cons] at hsize
  match more, hsize with
  | [], _ => exact .inl ⟨(encodeChar_eq_one.mp h).1, rfl⟩
  | [x], _ =>
    obtain ⟨⟨hlow, hhigh⟩, -⟩ := encodeChar_eq_two.mp h
    exact .inr (.inl ⟨hlow, hhigh, x, rfl⟩)
  | [x, y], _ =>
    obtain ⟨⟨hlow, hhigh⟩, -⟩ := encodeChar_eq_three.mp h
    exact .inr (.inr (.inl ⟨hlow, hhigh, x, y, rfl⟩))
  | [x, y, z], _ =>
    obtain ⟨⟨hlow, hhigh⟩, -, -, -, hcode, -⟩ := encodeChar_eq_four.mp h
    have hrange := toNat_range c
    exact .inr (.inr (.inr ⟨hlow, by omega, x, y, z, rfl⟩))

end

/-! ## What is pending -/

/-- The bytes are those of a character, or some of the first of them. -/
def Begins (bytes : List UInt8) : Prop :=
  ∃ c, bytes <+: utf8EncodeChar c

namespace Pending

def Fits (p : Pending) (b : UInt8) : Prop := p.low ≤ b ∧ b ≤ p.high

/-- The bits read, with those of one more byte. -/
def add (p : Pending) (b : UInt8) : Nat := p.bits * 0x40 + b.toNat % 0x40

/-- What is pending behind one more byte. -/
def next (p : Pending) (b : UInt8) : Pending := ⟨p.owed - 1, 0x80, 0xBF, p.add b⟩

/-- The bytes that are owed, and the character that they complete. -/
inductive Completes : Pending → List UInt8 → Char → Prop
  | last {p : Pending} {b : UInt8} (howed : p.owed ≤ 1) (hb : p.Fits b) :
      Completes p [b] (Char.ofNat (p.add b))
  | more {p : Pending} {b : UInt8} {bs : List UInt8} {c : Char} (howed : 1 < p.owed)
      (hb : p.Fits b) (hrest : Completes (p.next b) bs c) : Completes p (b :: bs) c

variable {p : Pending} {b : UInt8} {bs more : List UInt8} {c : Char}

theorem completes_last_iff (howed : p.owed ≤ 1) :
    p.Completes more c ↔ ∃ b, more = [b] ∧ p.Fits b ∧ c = Char.ofNat (p.add b) := by
  constructor
  · intro h
    cases h with
    | last _ hb => exact ⟨_, rfl, hb, rfl⟩
    | more hmore => omega
  · rintro ⟨b, rfl, hb, rfl⟩
    exact .last howed hb

theorem completes_more_iff (howed : 1 < p.owed) :
    p.Completes more c ↔ ∃ b bs, more = b :: bs ∧ p.Fits b ∧ (p.next b).Completes bs c := by
  constructor
  · intro h
    cases h with
    | last hlast => omega
    | more _ hb hrest => exact ⟨_, _, rfl, hb, hrest⟩
  · rintro ⟨b, bs, rfl, hb, hrest⟩
    exact .more howed hb hrest

theorem Completes.exists_cons (h : p.Completes more c) : ∃ b bs, more = b :: bs ∧ p.Fits b := by
  cases h with
  | last _ hb => exact ⟨_, _, rfl, hb⟩
  | more _ hb => exact ⟨_, _, rfl, hb⟩

/-- Where some byte can come next, the character can be completed. -/
theorem exists_completes (h : p.low ≤ p.high) : ∃ more c, p.Completes more c := by
  have hfits : p.Fits p.low := ⟨UInt8.le_refl _, h⟩
  generalize hn : p.owed = n
  induction n generalizing p with
  | zero => exact ⟨_, _, .last (by omega) hfits⟩
  | succ n ih =>
    by_cases howed : p.owed ≤ 1
    · exact ⟨_, _, .last howed hfits⟩
    · have hopen : (p.next p.low).low ≤ (p.next p.low).high := show (0x80 : UInt8) ≤ 0xBF by decide
      have howedNext : (p.next p.low).owed = n := by
        simp only [next]
        omega
      obtain ⟨more, c, hmore⟩ := ih hopen ⟨UInt8.le_refl _, hopen⟩ howedNext
      exact ⟨_, _, .more (by omega) hfits hmore⟩

/-- Behind the bytes `read`, just those characters can be completed that begin with them. -/
structure Awaits (p : Pending) (read : List UInt8) : Prop where
  nonempty : p.low ≤ p.high
  completes_iff : ∀ more c, utf8EncodeChar c = read ++ more ↔ p.Completes more c

theorem Awaits.two (hlow : 0xC2 ≤ b.toNat) (hhigh : b.toNat < 0xE0) :
    Awaits ⟨1, 0x80, 0xBF, b.toNat % 0x20⟩ [b] := by
  refine ⟨show (0x80 : UInt8) ≤ 0xBF by decide, fun more c => ?_⟩
  rw [List.singleton_append, completes_last_iff (Nat.le_refl 1)]
  simp only [Fits, add, UInt8.le_iff_toNat_le, UInt8.reduceToNat]
  constructor
  · intro h
    rcases encodeChar_cases h with h' | ⟨-, -, x, rfl⟩ | h' | h' <;> try omega
    obtain ⟨-, hx, hcode⟩ := encodeChar_eq_two.mp h
    unfold IsTail at hx
    exact ⟨x, rfl, by omega, by rw [← hcode, Char.ofNat_toNat]⟩
  · rintro ⟨x, rfl, hx, rfl⟩
    rw [encodeChar_eq_two, toNat_ofNat (by omega), IsTail]
    omega

/-- The range of the second byte keeps out what has a shorter form, and surrogates. -/
theorem Awaits.three {low high : UInt8} (hopen : low ≤ high) (hlow : 0xE0 ≤ b.toNat)
    (hhigh : b.toNat < 0xF0)
    (hfits : ∀ x : UInt8, low ≤ x ∧ x ≤ high ↔ IsTail x ∧
      0x20 ≤ b.toNat % 0x10 * 0x40 + x.toNat % 0x40 ∧
      (b.toNat % 0x10 * 0x40 + x.toNat % 0x40 < 0x360 ∨
        0x380 ≤ b.toNat % 0x10 * 0x40 + x.toNat % 0x40)) :
    Awaits ⟨2, low, high, b.toNat % 0x10⟩ [b] := by
  refine ⟨hopen, fun more c => ?_⟩
  rw [List.singleton_append, completes_more_iff (Nat.lt_succ_self 1)]
  simp only [Fits, next, add, hfits]
  constructor
  · intro h
    rcases encodeChar_cases h with h' | h' | ⟨-, -, x, y, rfl⟩ | h' <;> try omega
    obtain ⟨-, hx, hy, hcode, hlong⟩ := encodeChar_eq_three.mp h
    have hrange := toNat_range c
    refine ⟨x, [y], rfl, ⟨hx, by omega⟩, ?_⟩
    rw [completes_last_iff (Nat.le_refl 1)]
    simp only [Fits, add, UInt8.le_iff_toNat_le, UInt8.reduceToNat]
    unfold IsTail at hy
    exact ⟨y, rfl, by omega, by rw [← hcode, Char.ofNat_toNat]⟩
  · rintro ⟨x, bs, rfl, ⟨hx, hcode⟩, hrest⟩
    rw [completes_last_iff (Nat.le_refl 1)] at hrest
    simp only [Fits, add, UInt8.le_iff_toNat_le, UInt8.reduceToNat] at hrest
    obtain ⟨y, rfl, hy, rfl⟩ := hrest
    rw [encodeChar_eq_three, toNat_ofNat (by omega)]
    exact ⟨⟨hlow, hhigh⟩, hx, by unfold IsTail; omega, rfl, by omega⟩

/-- The range of the second byte keeps out what has a shorter form or lies beyond the last code. -/
theorem Awaits.four {low high : UInt8} (hopen : low ≤ high) (hlow : 0xF0 ≤ b.toNat)
    (hhigh : b.toNat < 0xF8)
    (hfits : ∀ x : UInt8, low ≤ x ∧ x ≤ high ↔ IsTail x ∧
      0x10 ≤ b.toNat % 0x8 * 0x40 + x.toNat % 0x40 ∧
      b.toNat % 0x8 * 0x40 + x.toNat % 0x40 < 0x110) :
    Awaits ⟨3, low, high, b.toNat % 0x8⟩ [b] := by
  refine ⟨hopen, fun more c => ?_⟩
  rw [List.singleton_append, completes_more_iff (show 1 < 3 by decide)]
  simp only [Fits, next, add, hfits]
  constructor
  · intro h
    rcases encodeChar_cases h with h' | h' | h' | ⟨-, -, x, y, z, rfl⟩ <;> try omega
    obtain ⟨-, hx, hy, hz, hcode, hlong⟩ := encodeChar_eq_four.mp h
    have hrange := toNat_range c
    refine ⟨x, [y, z], rfl, ⟨hx, by omega⟩, ?_⟩
    rw [completes_more_iff (Nat.lt_succ_self 1)]
    simp only [Fits, next, add, UInt8.le_iff_toNat_le, UInt8.reduceToNat]
    unfold IsTail at hy hz
    refine ⟨y, [z], rfl, by omega, ?_⟩
    rw [completes_last_iff (Nat.le_refl 1)]
    simp only [Fits, add, UInt8.le_iff_toNat_le, UInt8.reduceToNat]
    exact ⟨z, rfl, by omega, by rw [← hcode, Char.ofNat_toNat]⟩
  · rintro ⟨x, bs, rfl, ⟨hx, hcode⟩, hrest⟩
    rw [completes_more_iff (Nat.lt_succ_self 1)] at hrest
    simp only [Fits, next, add, UInt8.le_iff_toNat_le, UInt8.reduceToNat] at hrest
    obtain ⟨y, bs, rfl, hy, hrest⟩ := hrest
    rw [completes_last_iff (Nat.le_refl 1)] at hrest
    simp only [Fits, add, UInt8.le_iff_toNat_le, UInt8.reduceToNat] at hrest
    obtain ⟨z, rfl, hz, rfl⟩ := hrest
    rw [encodeChar_eq_four, toNat_ofNat (by omega)]
    exact ⟨⟨hlow, hhigh⟩, hx, by unfold IsTail; omega, by unfold IsTail; omega, rfl, by omega⟩

end Pending

theorem exists_start_three {b : UInt8} (hlow : 0xE0 ≤ b.toNat) (hhigh : b.toNat < 0xF0) :
    ∃ p, start b = ([], some p) ∧ p.Awaits [b] := by
  simp only [start, UInt8.lt_iff_toNat_lt, ← UInt8.toNat_inj, UInt8.reduceToNat]
  rw [if_neg (by omega), if_neg (by omega), if_neg (by omega)]
  by_cases hfirst : b.toNat = 0xE0
  · refine ⟨_, if_pos hfirst, .three (by decide) hlow hhigh fun x => ?_⟩
    simp only [IsTail, UInt8.le_iff_toNat_le, UInt8.reduceToNat]
    omega
  rw [if_neg hfirst]
  by_cases hsurrogates : b.toNat = 0xED
  · refine ⟨_, if_pos hsurrogates, .three (by decide) hlow hhigh fun x => ?_⟩
    simp only [IsTail, UInt8.le_iff_toNat_le, UInt8.reduceToNat]
    omega
  · rw [if_neg hsurrogates, if_pos hhigh]
    refine ⟨_, rfl, .three (by decide) hlow hhigh fun x => ?_⟩
    simp only [IsTail, UInt8.le_iff_toNat_le, UInt8.reduceToNat]
    omega

theorem exists_start_four {b : UInt8} (hlow : 0xF0 ≤ b.toNat) (hhigh : b.toNat < 0xF5) :
    ∃ p, start b = ([], some p) ∧ p.Awaits [b] := by
  simp only [start, UInt8.lt_iff_toNat_lt, ← UInt8.toNat_inj, UInt8.reduceToNat]
  rw [if_neg (by omega), if_neg (by omega), if_neg (by omega), if_neg (by omega),
    if_neg (by omega), if_neg (by omega)]
  by_cases hfirst : b.toNat = 0xF0
  · refine ⟨_, if_pos hfirst, .four (by decide) hlow (by omega) fun x => ?_⟩
    simp only [IsTail, UInt8.le_iff_toNat_le, UInt8.reduceToNat]
    omega
  rw [if_neg hfirst]
  by_cases hlast : b.toNat < 0xF4
  · refine ⟨_, if_pos hlast, .four (by decide) hlow (by omega) fun x => ?_⟩
    simp only [IsTail, UInt8.le_iff_toNat_le, UInt8.reduceToNat]
    omega
  · rw [if_neg hlast, if_pos (by omega)]
    refine ⟨_, rfl, .four (by decide) hlow (by omega) fun x => ?_⟩
    simp only [IsTail, UInt8.le_iff_toNat_le, UInt8.reduceToNat]
    omega

/-- What the first byte decides: that it is a character, or what has to follow, or that it begins
no character. -/
theorem start_cases (b : UInt8) :
    (b.toNat < 0x80 ∧ start b = ([Char.ofNat b.toNat], none)) ∨
      (∃ p, start b = ([], some p) ∧ p.Awaits [b]) ∨
        (start b = ([replacement], none) ∧ ¬ Begins [b]) := by
  by_cases hone : b.toNat < 0x80
  · exact .inl ⟨hone, if_pos (UInt8.lt_iff_toNat_lt.mpr hone)⟩
  by_cases htwo : 0xC2 ≤ b.toNat ∧ b.toNat < 0xE0
  · refine .inr (.inl ⟨_, ?_, .two htwo.1 htwo.2⟩)
    simp only [start, UInt8.lt_iff_toNat_lt, UInt8.reduceToNat]
    rw [if_neg hone, if_neg (by omega), if_pos htwo.2]
  by_cases hthree : 0xE0 ≤ b.toNat ∧ b.toNat < 0xF0
  · exact .inr (.inl (exists_start_three hthree.1 hthree.2))
  by_cases hfour : 0xF0 ≤ b.toNat ∧ b.toNat < 0xF5
  · exact .inr (.inl (exists_start_four hfour.1 hfour.2))
  refine .inr (.inr ⟨?_, ?_⟩)
  · simp only [start, UInt8.lt_iff_toNat_lt, ← UInt8.toNat_inj, UInt8.reduceToNat]
    by_cases hbare : b.toNat < 0xC2
    · rw [if_neg hone, if_pos hbare]
    · rw [if_neg hone, if_neg hbare, if_neg (by omega), if_neg (by omega), if_neg (by omega),
        if_neg (by omega), if_neg (by omega), if_neg (by omega), if_neg (by omega)]
  · rintro ⟨c, more, hmore⟩
    rcases encodeChar_cases hmore.symm with h | h | h | h <;> omega

/-! ## Reading characters -/

section

variable {p : Pending} {read bytes bs more part rest : List UInt8} {b : UInt8} {c c' : Char}

theorem step_last (howed : p.owed ≤ 1) (hb : p.Fits b) :
    step (some p) b = ([Char.ofNat (p.add b)], none) := by
  have hfits : (p.low ≤ b && b ≤ p.high) = true := by simpa [Pending.Fits] using hb
  simp only [step, hfits, howed, if_true, Pending.add]

theorem step_more (howed : 1 < p.owed) (hb : p.Fits b) :
    step (some p) b = ([], some (p.next b)) := by
  have hfits : (p.low ≤ b && b ≤ p.high) = true := by simpa [Pending.Fits] using hb
  simp only [step, hfits, Nat.not_le.mpr howed, if_true, if_false, Pending.next, Pending.add]

theorem decodeFrom_of_not_fits (hb : ¬ p.Fits b) (bs : List UInt8) :
    decodeFrom (some p) (b :: bs) = replacement :: decodeFrom none (b :: bs) := by
  have hfits : ¬ (p.low ≤ b && b ≤ p.high) = true := by simpa [Pending.Fits] using hb
  simp only [decodeFrom, step, if_neg hfits, List.cons_append]

theorem Pending.Completes.decodeFrom (h : p.Completes more c) (rest : List UInt8) :
    decodeFrom (some p) (more ++ rest) = c :: decodeFrom none rest := by
  induction h with
  | last howed hb =>
    rw [List.singleton_append, Utf8.decodeFrom, step_last howed hb]
    rfl
  | more howed hb _ ih =>
    rw [List.cons_append, Utf8.decodeFrom, step_more howed hb]
    exact ih

/-- A character is read where its bytes are. -/
theorem decodeFrom_encodeChar (c : Char) (rest : List UInt8) :
    decodeFrom none (utf8EncodeChar c ++ rest) = c :: decodeFrom none rest := by
  obtain ⟨b, more, hbytes⟩ := List.exists_cons_of_ne_nil (String.utf8EncodeChar_ne_nil (c := c))
  rw [hbytes, List.cons_append, decodeFrom, step]
  rcases start_cases b with ⟨hb, hstart⟩ | ⟨p, hstart, hp⟩ | ⟨-, hnone⟩
  · rcases encodeChar_cases hbytes with ⟨-, rfl⟩ | h | h | h <;> try omega
    rw [hstart, ← (encodeChar_eq_one.mp hbytes).2, Char.ofNat_toNat]
    rfl
  · rw [hstart]
    exact ((hp.completes_iff more c).mp hbytes).decodeFrom rest
  · exact absurd ⟨c, more, hbytes.symm⟩ hnone

/-- No character is the beginning of another one. -/
theorem eq_of_encodeChar_isPrefix (h : utf8EncodeChar c <+: utf8EncodeChar c') : c = c' := by
  obtain ⟨more, hmore⟩ := h
  have hread := decodeFrom_encodeChar c' []
  rw [List.append_nil, ← hmore, decodeFrom_encodeChar] at hread
  exact (List.cons.inj hread).1

/-! ## What is no character -/

/-- No character stands at the front of `part ++ rest`, and `part` is what has to be replaced. -/
structure IllFormed (part rest : List UInt8) : Prop where
  none : ∀ c, ¬ utf8EncodeChar c <+: part ++ rest
  begins : part.length = 1 ∨ Begins part
  nonempty : part ≠ []
  longest : ∀ b ∈ rest.head?, ¬ Begins (part ++ [b])

/-- How bytes are decoded. -/
inductive Lossy : List UInt8 → List Char → Prop
  | nil : Lossy [] []
  | char (c : Char) {rest : List UInt8} {chars : List Char} (hrest : Lossy rest chars) :
      Lossy (utf8EncodeChar c ++ rest) (c :: chars)
  | replaced {part rest : List UInt8} {chars : List Char} (h : IllFormed part rest)
      (hrest : Lossy rest chars) : Lossy (part ++ rest) (replacement :: chars)

theorem Pending.Awaits.begins (h : p.Awaits read) : Begins read := by
  obtain ⟨more, c, hmore⟩ := Pending.exists_completes h.nonempty
  exact ⟨c, more, ((h.completes_iff more c).mpr hmore).symm⟩

/-- While something is pending, no character is complete. -/
theorem Pending.Awaits.not_isPrefix (h : p.Awaits read) (c : Char) :
    ¬ utf8EncodeChar c <+: read := by
  intro hc
  obtain ⟨more, c', hmore⟩ := Pending.exists_completes h.nonempty
  have hbytes := (h.completes_iff more c').mpr hmore
  have hread : read <+: utf8EncodeChar c' := ⟨more, hbytes.symm⟩
  obtain rfl := eq_of_encodeChar_isPrefix (hc.trans hread)
  obtain ⟨b, bs, rfl, -⟩ := hmore.exists_cons
  have hlength := hc.length_le
  rw [hbytes, List.length_append, List.length_cons] at hlength
  omega

theorem Pending.Awaits.next (h : p.Awaits read) (howed : 1 < p.owed) (hb : p.Fits b) :
    (p.next b).Awaits (read ++ [b]) := by
  refine ⟨show (0x80 : UInt8) ≤ 0xBF by decide, fun more c => ?_⟩
  rw [List.append_assoc, List.singleton_append, h.completes_iff, completes_more_iff howed]
  constructor
  · rintro ⟨b', bs, heq, -, hrest⟩
    obtain ⟨rfl, rfl⟩ := List.cons.inj heq
    exact hrest
  · exact fun hrest => ⟨b, more, rfl, hb, hrest⟩

theorem not_isPrefix_of_not_begins (hread : ∀ c, ¬ utf8EncodeChar c <+: read)
    (hbegins : ¬ Begins (read ++ [b])) (c : Char) : ¬ utf8EncodeChar c <+: read ++ b :: bs := by
  intro hc
  rw [List.append_cons] at hc
  rcases List.prefix_or_prefix_of_prefix hc (List.prefix_append _ _) with hc | hc
  · rcases List.prefix_concat_iff.mp hc with heq | hc
    · exact hbegins ⟨c, heq ▸ List.prefix_rfl⟩
    · exact hread c hc
  · exact hbegins ⟨c, hc⟩

/-- What comes of something pending: it becomes a character, or it is replaced with as much of the
bytes as could still belong to it. -/
theorem Pending.Awaits.decodeFrom_cases (h : p.Awaits read) (bs : List UInt8) :
    ∃ part rest, bs = part ++ rest ∧
      ((∃ c, utf8EncodeChar c = read ++ part ∧ decodeFrom (some p) bs = c :: decodeFrom none rest) ∨
        (Begins (read ++ part) ∧ (∀ c, ¬ utf8EncodeChar c <+: read ++ bs) ∧
          (∀ b ∈ rest.head?, ¬ Begins (read ++ part ++ [b])) ∧
          decodeFrom (some p) bs = replacement :: decodeFrom none rest)) := by
  induction bs generalizing p read with
  | nil =>
    refine ⟨[], [], rfl, .inr ⟨?_, ?_, by simp, rfl⟩⟩
    · rw [List.append_nil]
      exact h.begins
    · rw [List.append_nil]
      exact h.not_isPrefix
  | cons b bs ih =>
    by_cases hb : p.Fits b
    · by_cases howed : p.owed ≤ 1
      · have hlast := Completes.last howed hb
        exact ⟨[b], bs, rfl, .inl ⟨_, (h.completes_iff _ _).mpr hlast, hlast.decodeFrom bs⟩⟩
      · obtain ⟨part, rest, rfl, hcases⟩ := ih (h.next (by omega) hb)
        have hstep : decodeFrom (some p) (b :: (part ++ rest)) =
            decodeFrom (some (p.next b)) (part ++ rest) := by
          rw [Utf8.decodeFrom, step_more (by omega) hb]
          rfl
        refine ⟨b :: part, rest, rfl, ?_⟩
        rw [hstep]
        simpa only [List.append_assoc, List.singleton_append] using hcases
    · -- A character that goes on with `b` would be completed by it.
      have hbegins : ¬ Begins (read ++ [b]) := by
        rintro ⟨c, more, hmore⟩
        rw [List.append_assoc, List.singleton_append] at hmore
        obtain ⟨b', bs', heq, hfits⟩ := ((h.completes_iff _ c).mp hmore.symm).exists_cons
        obtain ⟨rfl, -⟩ := List.cons.inj heq
        exact hb hfits
      refine ⟨[], b :: bs, rfl, .inr ⟨?_, ?_, ?_, decodeFrom_of_not_fits hb bs⟩⟩
      · rw [List.append_nil]
        exact h.begins
      · exact not_isPrefix_of_not_begins h.not_isPrefix hbegins
      · intro b' hb'
        cases hb'
        rwa [List.append_nil]

/-- The front of what is decoded is a character, or it is replaced. -/
theorem exists_decodeFrom_eq (hne : bytes ≠ []) :
    ∃ part rest, bytes = part ++ rest ∧ part ≠ [] ∧
      ((∃ c, part = utf8EncodeChar c ∧ decodeFrom none bytes = c :: decodeFrom none rest) ∨
        (IllFormed part rest ∧ decodeFrom none bytes = replacement :: decodeFrom none rest)) := by
  obtain ⟨b, bs, rfl⟩ := List.exists_cons_of_ne_nil hne
  rcases start_cases b with ⟨hb, hstart⟩ | ⟨p, hstart, hp⟩ | ⟨hstart, hnone⟩
  · have hbytes : utf8EncodeChar (Char.ofNat b.toNat) = [b] :=
      encodeChar_eq_one.mpr ⟨hb, toNat_ofNat (by omega)⟩
    refine ⟨[b], bs, rfl, by simp, .inl ⟨_, hbytes.symm, ?_⟩⟩
    rw [decodeFrom, step, hstart]
    rfl
  · have hpending : decodeFrom none (b :: bs) = decodeFrom (some p) bs := by
      rw [decodeFrom, step, hstart]
      rfl
    obtain ⟨part, rest, rfl, hcases⟩ := hp.decodeFrom_cases bs
    refine ⟨b :: part, rest, rfl, by simp, ?_⟩
    rw [hpending]
    rcases hcases with ⟨c, hc, heq⟩ | ⟨hbegins, hno, hlongest, heq⟩
    · exact .inl ⟨c, hc.symm, heq⟩
    · exact .inr ⟨⟨hno, .inr hbegins, by simp, hlongest⟩, heq⟩
  · refine ⟨[b], bs, rfl, by simp, .inr ⟨⟨?_, .inl rfl, by simp, ?_⟩, ?_⟩⟩
    · have hnil (c : Char) : ¬ utf8EncodeChar c <+: [] := by simp
      exact not_isPrefix_of_not_begins hnil hnone
    · rintro b' - ⟨c, hc⟩
      exact hnone ⟨c, (List.prefix_append [b] [b']).trans hc⟩
    · rw [decodeFrom, step, hstart]
      rfl

theorem IllFormed.isPrefix {part' rest' : List UInt8} (h : IllFormed part rest)
    (h' : IllFormed part' rest') (heq : part ++ rest = part' ++ rest') : part <+: part' := by
  rcases List.prefix_or_prefix_of_prefix (List.prefix_append part rest)
    (heq ▸ List.prefix_append part' rest') with hpart | ⟨more, rfl⟩
  · exact hpart
  cases more with
  | nil => simp
  | cons b more =>
    -- `part` goes beyond `part'`, so it begins a character, and `part'` is not the longest.
    rw [List.append_assoc, List.append_cancel_left_eq] at heq
    have hbegins : Begins (part' ++ b :: more) := by
      refine h.begins.resolve_left fun hone => ?_
      have hlength := List.length_pos_iff.mpr h'.nonempty
      rw [List.length_append, List.length_cons] at hone
      omega
    obtain ⟨c, hc⟩ := hbegins
    rw [List.append_cons] at hc
    exact absurd ⟨c, (List.prefix_append _ _).trans hc⟩ (h'.longest b (by simp [← heq]))

theorem lossy_decodeFrom (bytes : List UInt8) : Lossy bytes (decodeFrom none bytes) := by
  generalize hlength : bytes.length = n
  induction n using Nat.strongRecOn generalizing bytes with
  | ind n ih =>
    by_cases hne : bytes = []
    · subst hne
      exact .nil
    obtain ⟨part, rest, rfl, hpart, hcases⟩ := exists_decodeFrom_eq hne
    have hshorter : rest.length < n := by
      have hpos := List.length_pos_iff.mpr hpart
      rw [List.length_append] at hlength
      omega
    have hrest := ih rest.length hshorter rest rfl
    rcases hcases with ⟨c, rfl, heq⟩ | ⟨hill, heq⟩
    · exact heq ▸ .char c hrest
    · exact heq ▸ .replaced hill hrest

theorem Lossy.eq_decodeFrom {chars : List Char} (h : Lossy bytes chars) :
    chars = decodeFrom none bytes := by
  induction h with
  | nil => rfl
  | char c _ ih => rw [ih, decodeFrom_encodeChar]
  | @replaced part rest chars hill _ ih =>
    have hne : part ++ rest ≠ [] := by simp [hill.nonempty]
    obtain ⟨part', rest', hsplit, -, ⟨c, rfl, -⟩ | ⟨hill', heq⟩⟩ := exists_decodeFrom_eq hne
    · exact absurd (hsplit ▸ List.prefix_append _ rest') (hill.none c)
    · have hpart : part = part' := (hill.isPrefix hill' hsplit).eq_of_length_le
        (hill'.isPrefix hill hsplit.symm).length_le
      subst hpart
      rw [heq, ih, List.append_cancel_left hsplit]

theorem lossy_iff {chars : List Char} : Lossy bytes chars ↔ chars = decodeFrom none bytes :=
  ⟨Lossy.eq_decodeFrom, fun h => h ▸ lossy_decodeFrom bytes⟩

/-! ## Bytes that are characters of their own -/

theorem encodeChar_ofNat (hb : b.toNat < 0x80) : utf8EncodeChar (Char.ofNat b.toNat) = [b] :=
  encodeChar_eq_one.mpr ⟨hb, toNat_ofNat (by omega)⟩

/-- A byte behind the first one of a character is none of these. -/
theorem isTail_of_mem {x : UInt8} (h : utf8EncodeChar c = b :: more) (hx : x ∈ more) :
    IsTail x := by
  rcases encodeChar_cases h with ⟨-, rfl⟩ | ⟨-, -, u, rfl⟩ | ⟨-, -, u, v, rfl⟩ |
    ⟨-, -, u, v, w, rfl⟩
  · simp at hx
  · obtain ⟨-, hu, -⟩ := encodeChar_eq_two.mp h
    simp only [List.mem_singleton] at hx
    rwa [hx]
  · obtain ⟨-, hu, hv, -⟩ := encodeChar_eq_three.mp h
    simp only [List.mem_cons, List.not_mem_nil, or_false] at hx
    rcases hx with rfl | rfl <;> assumption
  · obtain ⟨-, hu, hv, hw, -⟩ := encodeChar_eq_four.mp h
    simp only [List.mem_cons, List.not_mem_nil, or_false] at hx
    rcases hx with rfl | rfl | rfl <;> assumption

theorem eq_nil_of_encodeChar_eq (hb : b.toNat < 0x80) (h : utf8EncodeChar c = read ++ b :: more) :
    read = [] := by
  cases read with
  | nil => rfl
  | cons first read =>
    have htail : IsTail b := isTail_of_mem h (by simp)
    unfold IsTail at htail
    omega

theorem Begins.eq_nil (hb : b.toNat < 0x80) (h : Begins (read ++ [b])) : read = [] := by
  obtain ⟨c, more, hmore⟩ := h
  rw [List.append_assoc, List.singleton_append] at hmore
  exact eq_nil_of_encodeChar_eq hb hmore.symm

theorem IllFormed.append (hb : b.toNat < 0x80) (h : IllFormed part rest) :
    IllFormed part (rest ++ b :: bs) := by
  refine ⟨fun c hc => ?_, h.begins, h.nonempty, fun b' hb' => ?_⟩
  · -- A character that is longer than what stood there would hold `b`.
    rw [← List.append_assoc, List.append_cons] at hc
    rcases List.prefix_or_prefix_of_prefix hc (List.prefix_append _ _) with hc | hc
    · rcases List.prefix_concat_iff.mp hc with heq | hc
      · have hnil := eq_nil_of_encodeChar_eq hb heq
        exact h.nonempty (List.append_eq_nil_iff.mp hnil).1
      · exact h.none c hc
    · have hnil := Begins.eq_nil hb ⟨c, hc⟩
      exact h.nonempty (List.append_eq_nil_iff.mp hnil).1
  · cases rest with
    | nil =>
      simp only [List.nil_append, List.head?_cons, Option.mem_def, Option.some.injEq] at hb'
      subst hb'
      exact fun hbegins => h.nonempty (Begins.eq_nil hb hbegins)
    | cons first rest => exact h.longest b' hb'

/-- Whatever is pending in front of such a byte is decided there: decoding starts afresh. -/
theorem Lossy.append_byte {chars more' : List Char} (hb : b.toNat < 0x80) (h : Lossy bytes chars)
    (hrest : Lossy rest more') :
    Lossy (bytes ++ b :: rest) (chars ++ Char.ofNat b.toNat :: more') := by
  induction h with
  | nil =>
    have hchar := Lossy.char (Char.ofNat b.toNat) hrest
    rwa [encodeChar_ofNat hb] at hchar
  | char c _ ih =>
    rw [List.append_assoc, List.cons_append]
    exact .char c ih
  | replaced hill _ ih =>
    rw [List.append_assoc, List.cons_append]
    exact .replaced (hill.append hb) ih

/-- Such a character is read only where its byte is. -/
theorem Lossy.mem_of_mem {chars : List Char} (hb : b.toNat < 0x80) (h : Lossy bytes chars)
    (hmem : Char.ofNat b.toNat ∈ chars) : b ∈ bytes := by
  induction h with
  | nil => simp at hmem
  | char c _ ih =>
    rcases List.mem_cons.mp hmem with rfl | hmem
    · rw [encodeChar_ofNat hb]
      simp
    · exact List.mem_append_right _ (ih hmem)
  | replaced _ _ ih =>
    rcases List.mem_cons.mp hmem with heq | hmem
    · have hcode := congrArg Char.toNat heq
      rw [toNat_ofNat (by omega), show replacement.toNat = 0xFFFD from rfl] at hcode
      omega
    · exact List.mem_append_right _ (ih hmem)

theorem Lossy.ne_nil {chars : List Char} (h : Lossy bytes chars) (hne : bytes ≠ []) :
    chars ≠ [] := by
  cases h with
  | nil => exact absurd rfl hne
  | char => simp
  | replaced => simp

end

/-! ## Texts -/

theorem decode_append {bytes rest : List UInt8} {b : UInt8} (hb : b.toNat < 0x80) :
    decode (bytes ++ b :: rest) = decode (bytes ++ [b]) ++ decode rest := by
  have hfront := (lossy_decodeFrom bytes).append_byte hb .nil
  have hwhole := (lossy_decodeFrom bytes).append_byte hb (lossy_decodeFrom rest)
  rw [decode, decode, decode, ← hfront.eq_decodeFrom, ← hwhole.eq_decodeFrom,
    ← String.ofList_append, List.append_cons, List.append_assoc]

theorem toList_loop (bytes : ByteArray) (i : Nat) (read : List UInt8) :
    ByteArray.toList.loop bytes i read = read.reverse ++ bytes.data.toList.drop i := by
  generalize hleft : bytes.size - i = left
  induction left generalizing i read with
  | zero =>
    rw [ByteArray.toList.loop, if_neg (by omega), List.drop_of_length_le, List.append_nil]
    change bytes.size ≤ i
    omega
  | succ left ih =>
    have hi : i < bytes.size := by omega
    have hget : bytes.get! i = bytes.data.toList[i] := getElem!_pos bytes.data i hi
    rw [ByteArray.toList.loop, if_pos hi, ih (i + 1) _ (by omega), hget,
      List.drop_eq_getElem_cons hi, List.reverse_cons, List.append_assoc]
    rfl

theorem encode_eq (text : String) : encode text = text.toList.flatMap utf8EncodeChar := by
  rw [encode, ByteArray.toList, toList_loop]
  simp [String.toUTF8_eq_toByteArray, ← String.utf8Encode_toList, List.utf8Encode]

theorem lossy_flatMap (chars : List Char) : Lossy (chars.flatMap utf8EncodeChar) chars := by
  induction chars with
  | nil => exact .nil
  | cons c chars ih => exact .char c ih

theorem decode_encode (text : String) : decode (encode text) = text := by
  rw [encode_eq, decode, ← (lossy_flatMap text.toList).eq_decodeFrom, String.ofList_toList]

end Treewalk.Utf8
