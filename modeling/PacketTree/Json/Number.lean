import PacketTree.Json.Quoted
import PacketTree.Numeric.Shortest

/-!
# JSON numbers

How a number is read and written. A whole number that fits 64 bits stays whole. Any other number is
a double: as many leading digits as fit 64 bits form the significand, the digits after them are
dropped, and the significand is scaled by a power of ten in double arithmetic. So a text of many
digits need not read as the nearest double. `-0` reads as the double `-0.0`.
-/

namespace PacketTree.Json

/-! ### Writing -/

/-- Doubles in JSON: ties go to the even digit, no exponent from `1e-5` up to below `1e16`, and always a
point or an exponent. -/
def layout : Decimal.Layout := ⟨.even, some (-5), some 15, true⟩

/-- The text of a number. -/
def Number.text : Number → List Char
  | .int i => (if i < 0 then ['-'] else []) ++ Decimal.digitChars i.natAbs
  | .double x => x.finiteText layout

/-! ### Reading -/

/-- The parts of the text of a number. -/
structure Numeral where
  /-- A minus sign stands in front. -/
  negative : Bool
  /-- The digits before the point. -/
  whole : List Char
  /-- The digits after the point; empty if there is no point. -/
  fraction : List Char
  /-- The exponent, if there is one. -/
  exponent : Option Int
deriving Repr

/-- The problem at a place where a digit has to stand and none does. -/
def lacksDigit : List Char → Problem
  | [] => .endsEarly
  | _ => .malformed

/-- Reads the digits before the point: a zero alone, or digits that do not start with a zero. -/
def scanWhole (s : List Char) : Reading (List Char) :=
  match s.span Char.isDigit with
  | ([], rest) => .error (lacksDigit rest)
  | (['0'], rest) => .ok (['0'], rest)
  | ('0' :: _, _) => .error .malformed
  | (digits, rest) => .ok (digits, rest)

/-- Reads a point and the digits after it, if a point comes next. -/
def scanFraction : List Char → Reading (List Char)
  | '.' :: s =>
    match s.span Char.isDigit with
    | ([], rest) => .error (lacksDigit rest)
    | (digits, rest) => .ok (digits, rest)
  | s => .ok ([], s)

/-- No number has an exponent of this size: with more digits than a text can hold it is still zero or
too large. -/
def powerLimit : Nat := 1000000000000000000

/-- The value of the digits of an exponent, which counts no further than `powerLimit`. -/
def powerOfDigits (digits : List Char) : Nat :=
  digits.foldl (fun n c => min powerLimit (n * 10 + (c.toNat - 0x30))) 0

/-- Reads the digits of an exponent of the given sign. -/
def scanPower (negative : Bool) (s : List Char) : Reading (Option Int) :=
  match s.span Char.isDigit with
  | ([], rest) => .error (lacksDigit rest)
  | (digits, rest) =>
    let power : Int := powerOfDigits digits
    .ok (some (if negative then -power else power), rest)

/-- Reads an exponent, if one comes next. -/
def scanExponent : List Char → Reading (Option Int)
  | c :: s =>
    if c = 'e' ∨ c = 'E' then
      match s with
      | '+' :: s' => scanPower false s'
      | '-' :: s' => scanPower true s'
      | _ => scanPower false s
    else .ok (none, c :: s)
  | [] => .ok (none, [])

/-- Reads the text of a number that starts with a digit or a minus sign. -/
def scanNumeral (s : List Char) : Except Problem (Numeral × List Char) := do
  let (negative, s) := match s with
    | '-' :: s' => (true, s')
    | _ => (false, s)
  let (whole, s) ← scanWhole s
  let (fraction, s) ← scanFraction s
  let (exponent, s) ← scanExponent s
  return (⟨negative, whole, fraction, exponent⟩, s)

/-- Appends digits to a number while it stays below `2 ^ 64`; the second result is the number of
digits taken. -/
def takeDigits (n taken : Nat) : List Char → Nat × Nat
  | [] => (n, taken)
  | c :: rest =>
    let m := n * 10 + (c.toNat - 0x30)
    if m < UInt64.size then takeDigits m (taken + 1) rest else (n, taken)

/-- The number that a numeral stands for; `none` if it is too large for a double. -/
def Numeral.number? (t : Numeral) : Option Number :=
  let (n, taken) := takeDigits 0 0 t.whole
  let dropped := t.whole.length - taken
  if t.fraction.isEmpty ∧ t.exponent.isNone ∧ dropped = 0 then
    if t.negative then
      if n = 0 ∨ n > 0x8000000000000000 then some (.double (Double.ofNat n).neg) else some (.int (-n))
    else some (.int n)
  else
    let (n, places) := takeDigits n 0 t.fraction
    let scale : Int := (dropped : Int) - places + t.exponent.getD 0
    (Double.ofDecimal? n scale).map fun x => .double (if t.negative then x.neg else x)

/-- Reads a number that starts with a digit or a minus sign. -/
def readNumber (s : List Char) : Except Problem (Number × List Char) := do
  let (numeral, rest) ← scanNumeral s
  match numeral.number? with
  | some n => return (n, rest)
  | none => throw .malformed

end PacketTree.Json
