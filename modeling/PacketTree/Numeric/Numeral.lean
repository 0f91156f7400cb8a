import PacketTree.Numeric.Double

/-!
# Numerals

How numbers are read from plain text: whole numbers of 64 bits, and doubles as the nearest to what is
written, whatever the number of digits.

## The model

A decimal numeral is digits with a point among them, of which one side may be empty, and a power of
ten. `nearest` rounds its exact value once. A numeral whose first digit stands far beyond the range of
doubles is told by its place alone, so no power of ten grows without bound.
-/

namespace PacketTree.Numeral

/-- The value of a list of digits. -/
def value (digits : List Char) : Nat := digits.foldl (fun n c => n * 10 + (c.toNat - 0x30)) 0

/-- A whole number that fits 64 bits: digits, with a plus sign in front if one likes. -/
def word? (text : String) : Option UInt64 :=
  let digits := match text.toList with
    | '+' :: digits => digits
    | digits => digits
  if digits ≠ [] ∧ digits.all Char.isDigit ∧ value digits < UInt64.size then
    some (UInt64.ofNat (value digits))
  else none

/-- A number below `10 ^ tooSmall` rounds to zero. -/
def tooSmall : Int := -330

/-- A number from `10 ^ tooLarge` on rounds to infinity. -/
def tooLarge : Int := 310

/-- The double nearest to `n * 10 ^ scale`. -/
def nearest (n : Nat) (scale : Int) : Double :=
  let size : Int := (Nat.toDigits 10 n).length + scale
  if n = 0 ∨ size < tooSmall then .zero
  else if tooLarge < size then .infinity
  else .ofRatio (n * Nat.pow 10 scale.toNat) (Nat.pow 10 (-scale).toNat)

/-- A power of ten with its sign, all that is left of a numeral; one without `e` is zero. -/
def power? : List Char → Option Int
  | [] => some 0
  | c :: rest =>
    if c ≠ 'e' ∧ c ≠ 'E' then none
    else
      let (negative, digits) := match rest with
        | '-' :: digits => (true, digits)
        | '+' :: digits => (false, digits)
        | digits => (false, digits)
      if digits = [] ∨ !digits.all Char.isDigit then none
      else some (if negative then -(value digits : Int) else value digits)

/-- The double nearest to a numeral without a sign. -/
def decimal? (s : List Char) : Option Double :=
  let (whole, rest) := s.span Char.isDigit
  let (fraction, rest) := match rest with
    | '.' :: rest => rest.span Char.isDigit
    | _ => ([], rest)
  if whole ++ fraction = [] then none
  else (power? rest).map fun power =>
    nearest (value (whole ++ fraction)) (power - fraction.length)

/-- The double of a text without a sign: a numeral, or the name of infinity or of no number. -/
def unsigned? (s : List Char) : Option Double :=
  match String.ofList (s.map Char.toLower) with
  | "inf" | "infinity" => some .infinity
  | "nan" => some .nan
  | _ => decimal? s

/-- The double nearest to what a text says. -/
def double? (text : String) : Option Double :=
  match text.toList with
  | '-' :: s => (unsigned? s).map Double.neg
  | '+' :: s => unsigned? s
  | s => unsigned? s

end PacketTree.Numeral
