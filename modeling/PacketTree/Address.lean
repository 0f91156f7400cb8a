import PacketTree.Text.Hex

/-!
# Address texts

The texts of hardware and network addresses. A hardware address is its bytes in hexadecimal between
colons; a version 4 address its bytes in decimal between points; a version 6 address its eight
groups in hexadecimal between colons, where `::` stands for the first of the longest runs of at
least two zero groups, and an address under `::ffff:0:0/96` ends in the decimal form of its last
four bytes.
-/

namespace PacketTree.Address

/-- The bytes in hexadecimal between colons. -/
def hardware (bytes : List UInt8) : String :=
  ":".intercalate (bytes.map fun b => String.ofList (Text.hexPair b))

/-- The bytes in decimal between points. -/
def version4 (bytes : List UInt8) : String :=
  ".".intercalate (bytes.map fun b => toString b.toNat)

/-- The bytes two by two as numbers, the first byte of each the higher. -/
def groups : List UInt8 → List Nat
  | a :: b :: rest => (a.toNat * 256 + b.toNat) :: groups rest
  | _ => []

/-- A stretch of zero groups. -/
structure ZeroRun where
  /-- The place of its first group. -/
  start : Nat
  /-- The number of its groups. -/
  length : Nat
deriving DecidableEq, Repr

/-- The first of the longest runs of zeros in a list that starts at `place`; `current` is the run
that ends just before it and `best` the longest before. -/
def longestZeroRun (place : Nat) (current best : ZeroRun) : List Nat → ZeroRun
  | [] => best
  | g :: rest =>
    let current := if g = 0 then
      if current.length = 0 then ⟨place, 1⟩ else ⟨current.start, current.length + 1⟩
      else ⟨0, 0⟩
    longestZeroRun (place + 1) current (if current.length > best.length then current else best) rest

/-- Groups in hexadecimal between colons. -/
def groupText (gs : List Nat) : String :=
  ":".intercalate (gs.map fun g => String.ofList (Nat.toDigits 16 g))

/-- The text of the sixteen bytes of a version 6 address. -/
def version6 (bytes : List UInt8) : String :=
  let gs := groups bytes
  if gs.take 6 = [0, 0, 0, 0, 0, 0xffff] then "::ffff:" ++ version4 (bytes.drop 12)
  else
    let run := longestZeroRun 0 ⟨0, 0⟩ ⟨0, 0⟩ gs
    if run.length > 1 then
      groupText (gs.take run.start) ++ "::" ++ groupText (gs.drop (run.start + run.length))
    else groupText gs

end PacketTree.Address
