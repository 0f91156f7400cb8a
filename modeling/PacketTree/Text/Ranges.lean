/-!
# Ranges

Sets of code points written as ranges in increasing order, both ends included, no two of which
overlap or touch. Union and complement keep that form.
-/

namespace PacketTree.Text

/-- Ranges of numbers, both ends included. -/
abbrev Ranges := List (Nat × Nat)

/-- Whether a number lies in one of some ranges, which are in increasing order. -/
def inRanges : Ranges → Nat → Bool
  | [], _ => false
  | (low, high) :: rest, n => if n ≤ high then low ≤ n else inRanges rest n

namespace Ranges

/-- The ranges with one more, which starts behind the start of the last; `before` holds them last
first. -/
def extend (before : Ranges) (range : Nat × Nat) : Ranges :=
  match before with
  | [] => [range]
  | (low, high) :: rest =>
    if range.1 ≤ high + 1 then (low, max high range.2) :: rest else range :: before

/-- The numbers in one of two sets. -/
def union (r s : Ranges) : Ranges :=
  ((List.merge r s fun a b => a.1 ≤ b.1).foldl extend []).reverse

/-- The set of some numbers. -/
def ofPoints (points : List Nat) : Ranges :=
  (((points.mergeSort).map fun n => (n, n)).foldl extend []).reverse

/-- The largest code point. -/
def lastCodePoint : Nat := 0x10FFFF

/-- A range without the surrogates at its ends, unless nothing is left. -/
def withoutSurrogates (low high : Nat) : Ranges :=
  let low := if 0xD800 ≤ low ∧ low ≤ 0xDFFF then 0xE000 else low
  let high := if 0xD800 ≤ high ∧ high ≤ 0xDFFF then 0xD7FF else high
  if low ≤ high then [(low, high)] else []

/-- The code points from `next` on that lie in no range, put before what was found so far, which is
last first. -/
def gapsFrom (next : Nat) (found : Ranges) : Ranges → Ranges
  | [] => if next ≤ lastCodePoint then withoutSurrogates next lastCodePoint ++ found else found
  | (low, high) :: rest =>
    gapsFrom (high + 1)
      (if next < low then withoutSurrogates next (low - 1) ++ found else found) rest

/-- The code points of characters that lie in no range. -/
def complement (r : Ranges) : Ranges := (gapsFrom 0 [] r).reverse

/-- The numbers in both of two sets. -/
def inter (r s : Ranges) : Ranges := (r.complement.union s.complement).complement

/-- The numbers in the first set and not in the second. -/
def diff (r s : Ranges) : Ranges := r.inter s.complement

example : union [(1, 3), (8, 9)] [(4, 5), (9, 12)] = [(1, 5), (8, 12)] := by cbv

example : complement [(0, 0xD7FF), (0xE001, 0x10FFFF)] = [(0xE000, 0xE000)] := by decide +kernel

end Ranges

end PacketTree.Text
