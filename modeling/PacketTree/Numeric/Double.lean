/-!
# Doubles

A number in the binary64 format, held as its 64-bit word, so that a NaN keeps its payload and `-0.0`
its sign. A finite double is `significand * 2 ^ exponent` with a sign; everything here is computed
from that reading in exact integer arithmetic.

## The model

`lt` and `le` are the numerical comparisons: `-0.0` equals `0.0` and a NaN compares with nothing.
`totalKey` orders all words: `-0.0` stands just below `0.0`, and NaNs stand at the two ends.
`ofRatio` rounds a quotient of natural numbers to the nearest double, a tie going to the even
significand; sums are not needed, products and quotients are rounded the same way.
-/

namespace PacketTree

/-- A binary64 number as its word. -/
structure Double where
  /-- Sign, exponent field and fraction, from the top bit down. -/
  bits : UInt64
deriving DecidableEq, Repr, Inhabited

namespace Double

/-! ### The parts of the word -/

/-- The place value of the sign bit, which is the top one of 64. -/
def signUnit : Nat := 0x8000000000000000

/-- The place value of the lowest exponent bit: fifty-two bits lie below it. -/
def fractionUnit : Nat := 0x10000000000000

/-- Whether the sign bit is set. -/
def negative (x : Double) : Bool := x.bits.toNat ≥ signUnit

/-- The word without its sign bit. -/
def magnitude (x : Double) : Nat := x.bits.toNat % signUnit

/-- The eleven bits that hold the exponent. -/
def exponentField (x : Double) : Nat := x.magnitude / fractionUnit

/-- The fifty-two bits below the exponent. -/
def fraction (x : Double) : Nat := x.magnitude % fractionUnit

/-- The magnitude of the infinities: every larger one is a NaN. -/
def infiniteMagnitude : Nat := 2047 * fractionUnit

/-- No number at all. -/
def isNaN (x : Double) : Bool := x.magnitude > infiniteMagnitude

/-- Beyond every finite number. -/
def isInfinite (x : Double) : Bool := x.magnitude = infiniteMagnitude

/-- A number with a finite value. -/
def isFinite (x : Double) : Bool := x.magnitude < infiniteMagnitude

/-- The whole number that, scaled by `2 ^ exponent`, is the absolute value. -/
def significand (x : Double) : Nat :=
  if x.exponentField = 0 then x.fraction else fractionUnit + x.fraction

/-- The power of two that scales the significand. -/
def exponent (x : Double) : Int :=
  if x.exponentField = 0 then -1074 else x.exponentField - 1075

/-- A word from its sign and magnitude. -/
def ofParts (negative : Bool) (magnitude : Nat) : Double :=
  ⟨UInt64.ofNat (if negative then signUnit + magnitude else magnitude)⟩

/-- Positive zero. -/
def zero : Double := ⟨0⟩

/-- The number one. -/
def one : Double := ⟨0x3ff0000000000000⟩

/-- The NaN with the quiet bit alone. -/
def nan : Double := ⟨0x7ff8000000000000⟩

/-- Positive infinity. -/
def infinity : Double := ⟨0x7ff0000000000000⟩

/-- The same number with the other sign. -/
def neg (x : Double) : Double := ofParts (!x.negative) x.magnitude

/-! ### Comparison -/

/-- The place of a number on the line, in steps of neighbouring doubles from zero. -/
def key (x : Double) : Int := if x.negative then -x.magnitude else x.magnitude

/-- The place of a word in the order of all words. -/
def totalKey (x : Double) : Int := if x.negative then -x.magnitude - 1 else x.magnitude

/-- Numerically less. -/
def lt (x y : Double) : Bool := !x.isNaN && !y.isNaN && decide (x.key < y.key)

/-- Numerically less or equal. -/
def le (x y : Double) : Bool := !x.isNaN && !y.isNaN && decide (x.key ≤ y.key)

/-- Numerically equal. -/
def eq (x y : Double) : Bool := !x.isNaN && !y.isNaN && decide (x.key = y.key)

/-- The nearest number between `0` and `1`; a NaN and `-0.0` stay as they are. -/
def clampUnit (x : Double) : Double :=
  if x.lt zero then zero else if one.lt x then one else x

/-! ### Rounding -/

/-- The whole number nearest to `num / den`, a tie going to the even one. -/
def roundDiv (num den : Nat) : Nat :=
  let q := num / den
  let r := num % den
  if 2 * r > den ∨ (2 * r = den ∧ q % 2 = 1) then q + 1 else q

/-- The greatest `e` with `2 ^ e ≤ num / den`. -/
def log2Ratio (num den : Nat) : Int :=
  let e : Int := num.log2 - den.log2
  if num * Nat.pow 2 (-e).toNat ≥ den * Nat.pow 2 e.toNat then e else e - 1

/-- The double nearest to `num / den`, or infinity if the quotient lies beyond the largest one. -/
def ofRatio (num den : Nat) : Double :=
  if num = 0 ∨ den = 0 then zero
  else
    let e := max (-1074) (log2Ratio num den - 52)
    let q := roundDiv (num * Nat.pow 2 (-e).toNat) (den * Nat.pow 2 e.toNat)
    let magnitude := (e + 1074).toNat * fractionUnit + q
    ofParts false (min magnitude infiniteMagnitude)

/-- The double nearest to a natural number. -/
def ofNat (n : Nat) : Double := ofRatio n 1

/-- The double nearest to an integer. -/
def ofInt (i : Int) : Double := if i < 0 then (ofNat i.natAbs).neg else ofNat i.natAbs

/-- Numerator and denominator of the absolute value of a finite double. -/
def ratio (x : Double) : Nat × Nat :=
  (x.significand * Nat.pow 2 x.exponent.toNat, Nat.pow 2 (-x.exponent).toNat)

/-- The rounded product of two finite doubles without sign. -/
def mulMagnitude (x y : Double) : Double :=
  ofRatio (x.ratio.1 * y.ratio.1) (x.ratio.2 * y.ratio.2)

/-- The rounded quotient of two finite doubles without sign, the second not zero. -/
def divMagnitude (x y : Double) : Double :=
  ofRatio (x.ratio.1 * y.ratio.2) (x.ratio.2 * y.ratio.1)

/-! ### Decimal scale -/

/-- The largest power of ten that is a finite double. -/
def maxPowerOfTen : Nat := 308

/-- The double nearest to `10 ^ k`. -/
def powerOfTen (k : Nat) : Double := ofRatio (Nat.pow 10 k) 1

/-- Divides by `10 ^ k` in double arithmetic, `10 ^ 308` at a time while more is left.
Each round of a nonzero number lowers it by so much that five of them reach zero. -/
def scaleDown (x : Double) (k : Nat) : Double :=
  if k ≤ maxPowerOfTen then x.divMagnitude (powerOfTen k)
  else if x.magnitude = 0 then x
  else scaleDown (x.divMagnitude (powerOfTen maxPowerOfTen)) (k - maxPowerOfTen)
termination_by k
decreasing_by simp only [maxPowerOfTen] at *; omega

/-- The value of `significand * 10 ^ scale` in double arithmetic: the significand is rounded to a
double, then multiplied or divided by a rounded power of ten. `none` where that is not finite. -/
def ofDecimal? (significand : Nat) (scale : Int) : Option Double :=
  let x := ofNat significand
  if scale < 0 then some (x.scaleDown scale.natAbs)
  else if scale.toNat ≤ maxPowerOfTen then
    let y := x.mulMagnitude (powerOfTen scale.toNat)
    if y.isFinite then some y else none
  else if x.magnitude = 0 then some x
  else none

end Double

end PacketTree
