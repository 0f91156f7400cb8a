/-!
# Instants

A point in time as a number of nanoseconds since the start of 1970 in UTC, and its text by RFC 3339:
date, `T`, time of day, the fraction of the second without trailing zeros, and the offset from UTC,
`Z` for none. The text exists for the years 0 to 9999 and for offsets of whole minutes below a day.
-/

namespace PacketTree

/-- Nanoseconds since the start of 1970 in UTC. -/
structure Instant where
  /-- The number of nanoseconds, negative before 1970. -/
  nanos : Int
deriving DecidableEq, Repr, Inhabited

/-- A day of the Gregorian calendar. -/
structure Date where
  /-- The year; the year before 1 is 0. -/
  year : Int
  /-- The month, from 1. -/
  month : Int
  /-- The day of the month, from 1. -/
  day : Int
deriving DecidableEq, Repr

/-- The date a number of days after the first of January 1970.
Years are counted from March, so that the leap day is the last of its year, in cycles of 400. -/
def Date.ofDays (days : Int) : Date :=
  let shifted := days + 719468
  let cycle := shifted / 146097
  let day := shifted % 146097
  let year := (day - day / 1460 + day / 36524 - day / 146096) / 365
  let dayOfYear := day - (365 * year + year / 4 - year / 100)
  let month := (5 * dayOfYear + 2) / 153
  { year := cycle * 400 + year + (if month ≥ 10 then 1 else 0)
    month := if month < 10 then month + 3 else month - 9
    day := dayOfYear - (153 * month + 2) / 5 + 1 }

example : Date.ofDays 0 = ⟨1970, 1, 1⟩ := by decide
example : Date.ofDays 11016 = ⟨2000, 2, 29⟩ := by decide
example : Date.ofDays (-719528) = ⟨0, 1, 1⟩ := by decide

namespace Instant

/-- The start of 1970 in UTC. -/
def epoch : Instant := ⟨0⟩

/-- The number of nanoseconds in a second. -/
def nanosPerSecond : Int := 1000000000

/-- The instant some seconds and nanoseconds after the start of 1970. -/
def ofSeconds (seconds nanos : Int) : Instant := ⟨seconds * nanosPerSecond + nanos⟩

/-- The whole seconds since the start of 1970, rounded down. -/
def seconds (t : Instant) : Int := t.nanos / nanosPerSecond

/-- The nanoseconds past the whole second. -/
def subsecond (t : Instant) : Int := t.nanos % nanosPerSecond

/-- The last nanosecond of the year 9999 in UTC. -/
def latest : Instant := ofSeconds 253402300799 999999999

/-- A number in decimal with leading zeros up to a width. -/
def padded (width : Nat) (n : Int) : List Char :=
  let digits := Nat.toDigits 10 n.toNat
  List.replicate (width - digits.length) '0' ++ digits

/-- The fraction of a second behind its point, without trailing zeros; nothing if it is zero. -/
def fractionText (nanos : Int) : List Char :=
  if nanos = 0 then []
  else '.' :: ((padded 9 nanos).reverse.dropWhile (· == '0')).reverse

/-- The text of an offset of some seconds from UTC. -/
def offsetText (offset : Int) : List Char :=
  if offset = 0 then ['Z']
  else
    (if offset < 0 then '-' else '+') ::
      (padded 2 (offset.natAbs / 3600 : Nat) ++
        ':' :: padded 2 (offset.natAbs / 60 % 60 : Nat))

/-- The text of an instant, as shown by a clock that is `offset` seconds ahead of UTC. -/
def text? (t : Instant) (offset : Int) : Option String :=
  let shown : Instant := ⟨t.nanos + offset * nanosPerSecond⟩
  let date := Date.ofDays (shown.seconds / 86400)
  let second := shown.seconds % 86400
  if 0 ≤ date.year ∧ date.year ≤ 9999 ∧ offset % 60 = 0 ∧ offset.natAbs < 86400 then
    some (String.ofList (padded 4 date.year ++ '-' :: padded 2 date.month ++
      '-' :: padded 2 date.day ++ 'T' :: padded 2 (second / 3600) ++
      ':' :: padded 2 (second / 60 % 60) ++ ':' :: padded 2 (second % 60) ++
      fractionText shown.subsecond ++ offsetText offset))
  else none

end Instant

end PacketTree
