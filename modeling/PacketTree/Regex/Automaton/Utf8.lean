import PacketTree.Text.Ranges

/-!
# Ranges of UTF-8

A range of code points as sequences of byte ranges: a byte sequence encodes a character of the range
exactly if each of its bytes lies in the range at its place, for one of the sequences.

## The model

A range is cut where the length of the encoding changes and around the surrogates, and then, from the
last byte to the first, where it crosses from one block of following bytes to another.
-/

namespace PacketTree.Regex.Utf8

/-- The ranges of code points whose encodings have the same number of bytes. -/
def lengths : List (Nat × Nat) :=
  [(0, 0x7F), (0x80, 0x7FF), (0x800, 0xD7FF), (0xE000, 0xFFFF), (0x10000, 0x10FFFF)]

/-- The parts of a range that cover whole blocks of a size or lie in one, for each of some sizes. -/
def blocks : List Nat → Nat → Nat → List (Nat × Nat)
  | [], low, high => [(low, high)]
  | size :: sizes, low, high =>
    if low / size = high / size then [(low, high)]
    else
      let first := (low + size - 1) / size * size
      let next := (high + 1) / size * size
      (if low < first then [(low, first - 1)] else []) ++
        (if first < next then blocks sizes first (next - 1) else []) ++
        (if next ≤ high then [(next, high)] else [])

/-- The bytes of the encoding of a code point. -/
def encode (n : Nat) : List Nat :=
  if n < 0x80 then [n]
  else if n < 0x800 then [0xC0 + n / 64, 0x80 + n % 64]
  else if n < 0x10000 then [0xE0 + n / 4096, 0x80 + n / 64 % 64, 0x80 + n % 64]
  else [0xF0 + n / 262144, 0x80 + n / 4096 % 64, 0x80 + n / 64 % 64, 0x80 + n % 64]

/-- The byte ranges of a range of code points, in increasing order. -/
def sequences (low high : Nat) : List (List (Nat × Nat)) :=
  lengths.flatMap fun (least, most) =>
    let low := max low least
    let high := min high most
    if low ≤ high then
      if most = 0x7F then [[(low, high)]]
      else (blocks [64, 4096, 262144] low high).map fun (low, high) =>
        (encode low).zip (encode high)
    else []

example : sequences 0x61 0x7FF = [[(0x61, 0x7F)], [(0xC2, 0xDF), (0x80, 0xBF)]] := by decide +kernel

end PacketTree.Regex.Utf8
