import PacketTree.Bytes.Order

/-!
# Keyed hashing of bytes

The SipHash family of hash functions with one mixing round for each word of the message and three
rounds at the end. The message is cut into little-endian words of eight bytes; the last word is
filled up with zeros and holds the length of the message modulo 256 in its highest byte.
-/

namespace PacketTree

/-- The four words that are mixed. -/
structure SipHash where
  /-- The first word. -/
  a : UInt64
  /-- The second word. -/
  b : UInt64
  /-- The third word. -/
  c : UInt64
  /-- The fourth word. -/
  d : UInt64
deriving DecidableEq, Repr

namespace SipHash

/-- The bits of a word moved up by `n` places, those that fall out put in from below. -/
def rotate (x : UInt64) (n : UInt64) : UInt64 := (x <<< n) ||| (x >>> (64 - n))

/-- The state before the first word. -/
def start (key₀ key₁ : UInt64) : SipHash where
  a := key₀ ^^^ 0x736f6d6570736575
  b := key₁ ^^^ 0x646f72616e646f6d
  c := key₀ ^^^ 0x6c7967656e657261
  d := key₁ ^^^ 0x7465646279746573

/-- One mixing round. -/
def round (s : SipHash) : SipHash :=
  let a := s.a + s.b
  let b := rotate s.b 13 ^^^ a
  let a := rotate a 32
  let c := s.c + s.d
  let d := rotate s.d 16 ^^^ c
  let a := a + d
  let d := rotate d 21 ^^^ a
  let c := c + b
  let b := rotate b 17 ^^^ c
  let c := rotate c 32
  ⟨a, b, c, d⟩

/-- Takes in one word of the message. -/
def absorb (s : SipHash) (word : UInt64) : SipHash :=
  let s := round { s with d := s.d ^^^ word }
  { s with a := s.a ^^^ word }

/-- The hash after the last word. -/
def finish (s : SipHash) : UInt64 :=
  let s := round (round (round { s with c := s.c ^^^ 0xff }))
  s.a ^^^ s.b ^^^ s.c ^^^ s.d

/-- Takes in a message of `length` bytes, of which `bytes` are left. -/
def absorbAll (length : Nat) (s : SipHash) (bytes : List UInt8) : SipHash :=
  if bytes.length < 8 then
    s.absorb (UInt64.ofNat (ByteOrder.little.number bytes + length % 0x100 * 0x100000000000000))
  else absorbAll length (s.absorb (UInt64.ofNat (ByteOrder.little.number (bytes.take 8)))) (bytes.drop 8)
termination_by bytes.length
decreasing_by simp only [List.length_drop]; omega

/-- The hash of a message. -/
def hash (key₀ key₁ : UInt64) (bytes : List UInt8) : UInt64 :=
  (absorbAll bytes.length (start key₀ key₁) bytes).finish

end SipHash

end PacketTree
