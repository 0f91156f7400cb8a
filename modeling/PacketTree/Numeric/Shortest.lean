import PacketTree.Numeric.Double

/-!
# Shortest decimal texts

The decimal text of a double with the fewest digits that still rounds to it, and of those the one
nearest to its value. Which digits these are is settled in exact arithmetic (`Decimal.shortest`);
where the point stands, and which of two equally near numbers is taken, is a matter of layout
(`Decimal.Layout`).

## The model

The reals that round to a finite double form an interval around it: half a step up and half a step
down, a quarter step down at a power of two, ends included when the significand is even. On each
grid of multiples of `10 ^ k` only the two neighbours of the value need to be tried, and the
coarsest grid with a hit gives the fewest digits.
-/

namespace PacketTree

/-- The positive number `digits * 10 ^ scale`. -/
structure Decimal where
  /-- The digits as one whole number. -/
  digits : Nat
  /-- The power of ten of the last digit. -/
  scale : Int
deriving DecidableEq, Repr

namespace Decimal

/-- The reals that round to a double, in units of `num / den`. -/
structure Interval where
  /-- The lower end. -/
  low : Nat
  /-- The value itself. -/
  mid : Nat
  /-- The upper end. -/
  high : Nat
  /-- Whether the ends belong to it. -/
  closed : Bool
  /-- The numerator of the unit. -/
  num : Nat
  /-- The denominator of the unit. -/
  den : Nat

/-- The interval of a finite double. -/
def Interval.ofDouble (x : Double) : Interval :=
  let m := x.significand
  let e := x.exponent - 2
  { low := if x.fraction = 0 ∧ x.exponentField > 1 then 4 * m - 1 else 4 * m - 2
    mid := 4 * m
    high := 4 * m + 2
    closed := m % 2 = 0
    num := Nat.pow 2 e.toNat
    den := Nat.pow 2 (-e).toNat }

/-- Whether `d * 10 ^ k` lies in the interval. -/
def Interval.holds (i : Interval) (d : Nat) (k : Int) : Bool :=
  let point := d * Nat.pow 10 k.toNat * i.den
  let unit := i.num * Nat.pow 10 (-k).toNat
  if i.closed then i.low * unit ≤ point ∧ point ≤ i.high * unit
  else i.low * unit < point ∧ point < i.high * unit

/-- Which of two neighbours on a grid is taken if the value lies halfway between them. -/
inductive Tie where
  /-- The even one. -/
  | even
  /-- The larger one. -/
  | up
deriving DecidableEq, Repr

/-- Whether the neighbour above `d` is taken. -/
def Tie.takesAbove (tie : Tie) (d : Nat) : Bool := tie = .up || d % 2 = 1

/-- The point of the grid `10 ^ k` in the interval that is nearest to the value, if there is one. -/
def Interval.onGrid? (i : Interval) (tie : Tie) (k : Int) : Option Nat :=
  let value := i.mid * i.num * Nat.pow 10 (-k).toNat
  let unit := i.den * Nat.pow 10 k.toNat
  let d := value / unit
  let above := 2 * (value % unit) > unit ∨ (2 * (value % unit) = unit ∧ tie.takesAbove d)
  match i.holds d k, i.holds (d + 1) k with
  | true, true => some (if above then d + 1 else d)
  | true, false => some d
  | false, true => some (d + 1)
  | false, false => none

/-- The shortest decimal that rounds to a finite, nonzero double.
The search starts at a power of ten above the value; seventeen digits always suffice. -/
def shortest (tie : Tie) (x : Double) : Decimal :=
  let i := Interval.ofDouble x
  let top : Int := ((x.significand.log2 + x.exponent + 1) * 30103) / 100000 + 2
  let hit := (List.range 24).findSome? fun (n : Nat) =>
    let k := top - n
    (i.onGrid? tie k).map fun d => { digits := d, scale := k : Decimal }
  hit.getD ⟨0, 0⟩

/-! ### Layout -/

/-- How a number is written: its last digit, its point and its exponent. -/
structure Layout where
  /-- Which of two equally near shortest numbers is written. -/
  tie : Tie
  /-- The least power of ten of the first digit that is written without an exponent. -/
  least : Option Int
  /-- The greatest power of ten of the first digit that is written without an exponent. -/
  greatest : Option Int
  /-- Whether a whole number gets a `.0`. -/
  pointed : Bool

/-- Numbers in running text: ties go up, never an exponent, no fraction on whole numbers. -/
def Layout.plain : Layout := ⟨.up, none, none, false⟩

/-- The digits of a natural number. -/
def digitChars (n : Nat) : List Char := Nat.toDigits 10 n

/-- The text without an exponent. -/
def positional (pointed : Bool) (digits : List Char) (scale : Int) : List Char :=
  if scale ≥ 0 then
    digits ++ List.replicate scale.toNat '0' ++ (if pointed then ['.', '0'] else [])
  else
    let places := scale.natAbs
    let padded := List.replicate (places + 1 - digits.length) '0' ++ digits
    let whole := padded.length - places
    padded.take whole ++ '.' :: padded.drop whole

/-- The text with one digit before the point and a signed exponent. -/
def scientific (digits : List Char) (power : Int) : List Char :=
  let mantissa := match digits with
    | [] => []
    | [d] => [d]
    | d :: rest => d :: '.' :: rest
  mantissa ++ 'e' :: (if power < 0 then '-' else '+') :: digitChars power.natAbs

/-- The text of a positive decimal. -/
def text (layout : Layout) (d : Decimal) : List Char :=
  let digits := digitChars d.digits
  let power := d.scale + digits.length - 1
  if layout.least.all (· ≤ power) && layout.greatest.all (power ≤ ·) then
    positional layout.pointed digits d.scale
  else scientific digits power

end Decimal

/-- The text of a finite double. -/
def Double.finiteText (layout : Decimal.Layout) (x : Double) : List Char :=
  let sign := if x.negative then ['-'] else []
  if x.magnitude = 0 then sign ++ '0' :: (if layout.pointed then ['.', '0'] else [])
  else sign ++ (Decimal.shortest layout.tie x).text layout

/-- The text of any double in running text. -/
def Double.plainText (x : Double) : String :=
  if x.isNaN then "NaN"
  else if x.isInfinite then (if x.negative then "-inf" else "inf")
  else String.ofList (x.finiteText .plain)

end PacketTree
