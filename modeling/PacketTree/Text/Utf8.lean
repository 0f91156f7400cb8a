/-!
# Showing bytes as text

Bytes as UTF-8, with a mark in place of what is not. Bytes that begin a character which does not go on
as it should share one mark; any other byte that stands for nothing has its own.

## The model

The bytes are taken one by one. `Started` is a character of which some bytes were taken: the next one
has to lie in a range, which is narrower for the second byte than for those behind it, so that no
character has two forms and no surrogate has one.
-/

namespace PacketTree.Text

/-- A character of which some bytes are missing. -/
structure Started where
  /-- The number of missing bytes. -/
  missing : Nat
  /-- The least value of the next byte. -/
  low : Nat
  /-- The greatest value of the next byte. -/
  high : Nat
  /-- The bits so far. -/
  bits : Nat

/-- The mark in place of what is no text. -/
def replacement : Char := Char.ofNat 0xFFFD

/-- What was read: the characters, last first, and one that is not complete. -/
structure Decoded where
  /-- The characters, last first. -/
  chars : List Char
  /-- The character that was begun. -/
  started : Option Started

namespace Decoded

/-- Takes the first byte of a character. -/
def begin (chars : List Char) (b : Nat) : Decoded :=
  if b < 0x80 then ⟨Char.ofNat b :: chars, none⟩
  else if 0xC2 ≤ b ∧ b ≤ 0xDF then ⟨chars, some ⟨1, 0x80, 0xBF, b - 0xC0⟩⟩
  else if 0xE0 ≤ b ∧ b ≤ 0xEF then
    ⟨chars, some ⟨2, if b = 0xE0 then 0xA0 else 0x80, if b = 0xED then 0x9F else 0xBF, b - 0xE0⟩⟩
  else if 0xF0 ≤ b ∧ b ≤ 0xF4 then
    ⟨chars, some ⟨3, if b = 0xF0 then 0x90 else 0x80, if b = 0xF4 then 0x8F else 0xBF, b - 0xF0⟩⟩
  else ⟨replacement :: chars, none⟩

/-- Takes a byte. -/
def take (d : Decoded) (byte : UInt8) : Decoded :=
  let b := byte.toNat
  match d.started with
  | none => begin d.chars b
  | some s =>
    if b < s.low ∨ s.high < b then begin (replacement :: d.chars) b
    else
      let bits := s.bits * 64 + b % 64
      if s.missing ≤ 1 then ⟨Char.ofNat bits :: d.chars, none⟩
      else ⟨d.chars, some ⟨s.missing - 1, 0x80, 0xBF, bits⟩⟩

/-- The characters, with a mark for one that is not complete. -/
def finish (d : Decoded) : List Char :=
  (if d.started.isSome then replacement :: d.chars else d.chars).reverse

end Decoded

/-- The text of bytes, with marks in place of what is no text. -/
def ofBytes (bytes : List UInt8) : String :=
  String.ofList (bytes.foldl Decoded.take ⟨[], none⟩).finish

example : ofBytes [0x61, 0xC3, 0xA9, 0xE2, 0x82, 0x62, 0xFF] = "aé\uFFFDb\uFFFD" := by
  decide +kernel

end PacketTree.Text
