/-!
# Decoding UTF-8

Bytes are decoded one after the other. What is no UTF-8 is replaced: each longest start of a
character that cannot go on becomes one U+FFFD, and decoding starts again at the byte that
does not fit. Bytes that are UTF-8 decode to the text that they encode.

Main definition: `Utf8.decode`.
-/

namespace Treewalk.Utf8

/-- What has been read of a character that is not complete. -/
structure Pending where
  /-- The bytes still owed, one at least. -/
  owed : Nat
  /-- The least and the greatest byte that may come next. -/
  low : UInt8
  high : UInt8
  /-- The bits read so far. -/
  bits : Nat

/-- The character that stands for what cannot be decoded. -/
def replacement : Char := '\uFFFD'

/-- Reads the first byte of a character. The second byte is narrowed where the character
would have a shorter form, be a surrogate or lie beyond the last code point. -/
def start (b : UInt8) : List Char × Option Pending :=
  let owes (owed : Nat) (low high : UInt8) (mask : Nat) : List Char × Option Pending :=
    ([], some ⟨owed, low, high, b.toNat % mask⟩)
  if b < 0x80 then ([Char.ofNat b.toNat], none)
  else if b < 0xC2 then ([replacement], none)
  else if b < 0xE0 then owes 1 0x80 0xBF 0x20
  else if b = 0xE0 then owes 2 0xA0 0xBF 0x10
  else if b = 0xED then owes 2 0x80 0x9F 0x10
  else if b < 0xF0 then owes 2 0x80 0xBF 0x10
  else if b = 0xF0 then owes 3 0x90 0xBF 0x08
  else if b < 0xF4 then owes 3 0x80 0xBF 0x08
  else if b = 0xF4 then owes 3 0x80 0x8F 0x08
  else ([replacement], none)

/-- Reads one byte: the characters that are decided by it, and what is then pending. -/
def step (pending : Option Pending) (b : UInt8) : List Char × Option Pending :=
  match pending with
  | none => start b
  | some p =>
    if p.low ≤ b && b ≤ p.high then
      let bits := p.bits * 0x40 + b.toNat % 0x40
      if p.owed ≤ 1 then ([Char.ofNat bits], none)
      else ([], some ⟨p.owed - 1, 0x80, 0xBF, bits⟩)
    else
      let (chars, pending) := start b
      (replacement :: chars, pending)

/-- Decodes bytes behind what is pending. -/
def decodeFrom (pending : Option Pending) : List UInt8 → List Char
  | [] => if pending.isSome then [replacement] else []
  | b :: bs =>
    let (chars, pending) := step pending b
    chars ++ decodeFrom pending bs

def decode (bytes : List UInt8) : String :=
  String.ofList (decodeFrom none bytes)

/-- The bytes of a text. -/
def encode (text : String) : List UInt8 :=
  text.toUTF8.toList

end Treewalk.Utf8
