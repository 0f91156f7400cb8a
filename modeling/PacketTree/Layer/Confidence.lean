import PacketTree.Numeric.Double

/-!
# Confidence

How sure a dissector is of a layer: a number from `0` to `1`. Any double can be given; one outside
is moved to the nearer end and a NaN counts as `0`. The sign of zero is kept, and `-0.0` and `0.0`
are equally sure.
-/

namespace PacketTree

namespace Double

@[simp] theorem isNaN_zero : zero.isNaN = false := by decide

@[simp] theorem isNaN_one : one.isNaN = false := by decide

@[simp] theorem key_zero : zero.key = 0 := by decide

@[simp] theorem key_one : one.key = 4607182418800017408 := by decide

/-- What is no NaN ends up between zero and one. -/
theorem le_clampUnit {x : Double} (h : x.isNaN = false) :
    zero.le x.clampUnit = true ∧ x.clampUnit.le one = true := by
  by_cases hz : x.key < 0
  · simp [clampUnit, lt, le, h, hz]
  · by_cases ho : 4607182418800017408 < x.key
    · simp [clampUnit, lt, le, h, hz, ho]
    · simp [clampUnit, lt, le, h, hz, ho]
      omega

end Double

/-- A number from `0` to `1`. -/
structure Confidence where
  /-- The number. -/
  value : Double
  /-- It is not below zero, and no NaN. -/
  zero_le : Double.zero.le value = true := by decide
  /-- It is not above one. -/
  le_one : value.le Double.one = true := by decide
deriving DecidableEq, Repr

namespace Confidence

/-- Fully sure. -/
def full : Confidence := { value := Double.one }

/-- Not sure at all. -/
def none : Confidence := { value := Double.zero }

instance : Inhabited Confidence := ⟨full⟩

/-- The confidence nearest to a double. -/
def ofDouble (x : Double) : Confidence :=
  match h : x.isNaN with
  | true => none
  | false =>
    { value := x.clampUnit
      zero_le := (Double.le_clampUnit h).1
      le_one := (Double.le_clampUnit h).2 }

end Confidence

end PacketTree
