import Mathlib.Algebra.Order.Field.Basic
import Mathlib.Algebra.Order.Field.Power
import Mathlib.Order.Monotone.Basic
import Mathlib.Tactic.Linarith
import Mathlib.Tactic.NormNum
import Mathlib.Tactic.Ring
import PacketTree.Numeric.Double

/-!
# The order of doubles is that of their values

Doubles are compared by their words, in steps of neighbouring numbers. This module gives every double
its value as a fraction and says that a step up is a step up in value, so that the comparison is the
one of numbers.

## What is proved

* `strictMono_absolute`: the next word has the next larger value.
* `le_iff_value_le`: numbers compare as their values do.
* `zero_le_and_le_one_iff`: what lies between zero and one.
-/

namespace PacketTree.Double

variable {x y : Double}

/-- The value of a word without its sign bit. -/
def absolute (m : ℕ) : ℚ :=
  if m / fractionUnit = 0 then (m % fractionUnit : ℕ) * 2 ^ (-1074 : ℤ)
  else (fractionUnit + m % fractionUnit : ℕ) * 2 ^ ((m / fractionUnit : ℕ) - 1075 : ℤ)

/-- The value of a double. It goes on beyond the finite numbers as if there were no infinities. -/
def value (x : Double) : ℚ :=
  if x.negative then -(x.significand * 2 ^ x.exponent) else x.significand * 2 ^ x.exponent

theorem absolute_magnitude (x : Double) : absolute x.magnitude = x.significand * 2 ^ x.exponent := by
  unfold absolute significand exponent exponentField fraction
  split
  · rfl
  · rfl

theorem value_eq (x : Double) :
    x.value = if x.negative then -absolute x.magnitude else absolute x.magnitude := by
  rw [absolute_magnitude, value]

/-- The fraction grows by one, or it starts from zero with the next exponent. -/
theorem div_mod_succ (m : ℕ) :
    (m + 1) / fractionUnit = m / fractionUnit ∧ (m + 1) % fractionUnit = m % fractionUnit + 1 ∨
      (m + 1) / fractionUnit = m / fractionUnit + 1 ∧ (m + 1) % fractionUnit = 0 ∧
        m % fractionUnit = 4503599627370495 := by
  rw [show fractionUnit = 4503599627370496 from rfl]
  omega

/-- The next word has the next larger value. -/
theorem strictMono_absolute : StrictMono absolute := by
  refine strictMono_nat_of_lt_succ fun m => ?_
  have hpow : ∀ k : ℤ, (0 : ℚ) < 2 ^ k := fun k => zpow_pos (by norm_num) k
  unfold absolute
  rcases div_mod_succ m with ⟨hq, hr⟩ | ⟨hq, hr, hm⟩
  · rw [hq, hr]
    split
    · exact mul_lt_mul_of_pos_right (by exact_mod_cast Nat.lt_succ_self _) (hpow _)
    · exact mul_lt_mul_of_pos_right (by exact_mod_cast Nat.lt_succ_self _) (hpow _)
  · rw [hq, hr, hm, if_neg (Nat.succ_ne_zero _), show fractionUnit = 4503599627370496 from rfl]
    generalize m / 4503599627370496 = q
    split
    · next hzero =>
      subst hzero
      exact mul_lt_mul_of_pos_right (by norm_num) (hpow (-1074))
    · have hstep : (2 : ℚ) ^ ((q + 1 : ℕ) - 1075 : ℤ) = 2 * 2 ^ (q - 1075 : ℤ) := by
        rw [← zpow_one_add₀ (by norm_num)]
        congr 1
        push_cast
        ring
      have := hpow (q - 1075)
      rw [hstep]
      push_cast
      linarith

theorem absolute_zero : absolute 0 = 0 := by
  rw [absolute, if_pos (by decide)]
  norm_num

theorem absolute_nonneg (m : ℕ) : 0 ≤ absolute m :=
  absolute_zero ▸ strictMono_absolute.monotone m.zero_le

theorem key_le_iff : x.key ≤ y.key ↔ x.value ≤ y.value := by
  have hx := absolute_nonneg x.magnitude
  have hy := absolute_nonneg y.magnitude
  rw [value_eq, value_eq, key, key]
  split_ifs
  · rw [neg_le_neg_iff, neg_le_neg_iff, Int.ofNat_le, strictMono_absolute.le_iff_le]
  · exact iff_of_true (by omega) (by linarith)
  · -- a number that is not negative is no more than one that is only if both are zero
    have hiff : (x.magnitude : ℤ) ≤ -y.magnitude ↔ x.magnitude ≤ 0 ∧ y.magnitude ≤ 0 := by omega
    rw [hiff, ← strictMono_absolute.le_iff_le, ← strictMono_absolute.le_iff_le, absolute_zero]
    constructor
    · rintro ⟨hx', hy'⟩
      linarith
    · intro h
      exact ⟨by linarith, by linarith⟩
  · rw [Int.ofNat_le, strictMono_absolute.le_iff_le]

/-- **Numbers compare as their values do.** -/
theorem le_iff_value_le : x.le y = true ↔ x.isNaN = false ∧ y.isNaN = false ∧ x.value ≤ y.value := by
  rw [le, Bool.and_eq_true, Bool.and_eq_true, Bool.not_eq_true', Bool.not_eq_true', decide_eq_true_eq,
    key_le_iff, and_assoc]

theorem value_zero : zero.value = 0 := by
  rw [value_eq, if_neg (by decide)]
  exact absolute_zero

theorem value_one : one.value = 1 := by
  have hmagnitude : one.magnitude = 1023 * fractionUnit := by decide
  rw [value_eq, if_neg (by decide), hmagnitude, absolute, if_neg (by decide)]
  norm_num [fractionUnit]

/-- What lies between zero and one is finite. -/
theorem isFinite_of_le_one (hzero : zero.le x = true) (hone : x.le one = true) : x.isFinite = true := by
  have hlow : zero.key ≤ x.key := by
    simpa [le] using (Bool.and_eq_true_iff.mp hzero).2
  have hhigh : x.key ≤ one.key := by
    simpa [le] using (Bool.and_eq_true_iff.mp hone).2
  have hzerokey : zero.key = 0 := by decide
  have honekey : one.key = 4607182418800017408 := by decide
  rw [isFinite, decide_eq_true_eq, show infiniteMagnitude = 9218868437227405312 from rfl]
  rw [hzerokey, key] at hlow
  rw [honekey, key] at hhigh
  split_ifs at hlow hhigh
  · omega
  · omega

theorem isNaN_of_isFinite (h : x.isFinite = true) : x.isNaN = false := by
  rw [isFinite, decide_eq_true_eq] at h
  rw [isNaN, decide_eq_false_iff_not]
  exact Nat.not_lt_of_lt h

/-- What compares as lying between zero and one is a finite number with such a value. -/
theorem zero_le_and_le_one_iff : (zero.le x && x.le one) = true ↔
    x.isFinite = true ∧ 0 ≤ x.value ∧ x.value ≤ 1 := by
  rw [Bool.and_eq_true]
  constructor
  · rintro ⟨hzero, hone⟩
    obtain ⟨-, -, hlow⟩ := le_iff_value_le.mp hzero
    obtain ⟨-, -, hhigh⟩ := le_iff_value_le.mp hone
    exact ⟨isFinite_of_le_one hzero hone, value_zero ▸ hlow, value_one ▸ hhigh⟩
  · rintro ⟨hfinite, hlow, hhigh⟩
    have hnan := isNaN_of_isFinite hfinite
    exact ⟨le_iff_value_le.mpr ⟨by decide, hnan, value_zero.symm ▸ hlow⟩,
      le_iff_value_le.mpr ⟨hnan, by decide, value_one.symm ▸ hhigh⟩⟩

end PacketTree.Double
