import Conform.Json.Basic
import Mathlib.Algebra.Order.Field.Power
import Mathlib.Data.Rat.Cast.Order
import Mathlib.Tactic.FieldSimp
import Mathlib.Tactic.Linarith
import Mathlib.Tactic.Positivity
import Mathlib.Tactic.Ring

set_option autoImplicit false

/-!
The exact values of numbers. A double is a multiple of a power of two, and it is written in one
way only, its sign apart if it is zero.
-/

namespace Conform

namespace Double

def value (x : Double) : ℚ := signed x.negative x.mantissa * 2 ^ ((x.exponent : ℤ) - 1074)

-- The least positive double. All of them are its multiples.
def tiny : ℚ := 2 ^ (-1074 : ℤ)

def magnitude (x : Double) : Nat := x.mantissa * 2 ^ x.exponent

theorem tiny_pos : 0 < tiny := zpow_pos (by decide) _

theorem signed_mul (negative : Bool) (m n : Nat) :
    signed negative (m * n) = signed negative m * n := by
  cases negative <;> simp [signed]

theorem natAbs_signed (negative : Bool) (n : Nat) : (signed negative n).natAbs = n := by
  cases negative <;> simp [signed]

theorem signed_natAbs (n : Int) : signed (n < 0) n.natAbs = n := by
  by_cases negative : n < 0
  · simp [signed, negative, abs_of_neg negative]
  · simp [signed, negative, Int.not_lt.mp negative]

theorem value_eq_mul_tiny (x : Double) : x.value = signed x.negative x.magnitude * tiny := by
  have split : (2 : ℚ) ^ ((x.exponent : ℤ) - 1074) = 2 ^ x.exponent * tiny := by
    rw [tiny, sub_eq_add_neg, zpow_add₀ two_ne_zero, zpow_natCast]
  rw [value, split, magnitude, signed_mul, Int.cast_mul, mul_assoc, Int.cast_natCast, Nat.cast_pow,
    Nat.cast_ofNat]

theorem value_of_exponent {x : Double} {k : ℕ} (depth : x.exponent + k = 1074) :
    x.value = signed x.negative x.mantissa / 2 ^ k := by
  have power : (x.exponent : ℤ) - 1074 = -(k : ℤ) := by omega
  rw [value, power, zpow_neg, zpow_natCast, div_eq_mul_inv]

theorem value_of_exponent_add {x : Double} {k : ℕ} (height : x.exponent = 1074 + k) :
    x.value = signed x.negative (x.mantissa * 2 ^ k) := by
  have power : (x.exponent : ℤ) - 1074 = k := by omega
  rw [value, power, zpow_natCast, signed_mul]
  push_cast
  rfl

-- Only one of the two powers is not one.
theorem two_zpow_sub (m n : Nat) :
    (2 : ℚ) ^ ((m : ℤ) - n) = (2 ^ (m - n) : ℕ) / (2 ^ (n - m) : ℕ) := by
  push_cast
  rw [← zpow_natCast, ← zpow_natCast, ← zpow_sub₀ two_ne_zero]
  congr 1
  omega

theorem value_eq_div (x : Double) :
    x.value = signed x.negative x.numerator / x.denominator := by
  have power : (2 : ℚ) ^ ((x.exponent : ℤ) - 1074) =
      (2 ^ (x.exponent - 1074) : ℕ) / (2 ^ (1074 - x.exponent) : ℕ) :=
    two_zpow_sub x.exponent 1074
  have num : x.numerator = x.mantissa * 2 ^ (x.exponent - 1074) := rfl
  have den : x.denominator = 2 ^ (1074 - x.exponent) := rfl
  rw [value, power, num, den, signed_mul, Int.cast_mul, Int.cast_natCast, mul_div_assoc]

theorem denominator_pos (x : Double) : 0 < x.denominator := Nat.two_pow_pos _

theorem signed_div_eq_iff {negative : Bool} {num den : Nat} (positive : 0 < den) {n : Int} :
    (signed negative num : ℚ) / den = n ↔ num % den = 0 ∧ signed negative (num / den) = n := by
  have nonzero : (den : ℚ) ≠ 0 := by exact_mod_cast positive.ne'
  have cleared : (signed negative num : ℚ) = n * den ↔ signed negative num = n * den := by
    norm_cast
  rw [div_eq_iff nonzero, cleared]
  constructor
  · intro equal
    have factors := congrArg Int.natAbs equal
    rw [natAbs_signed, Int.natAbs_mul, Int.natAbs_natCast] at factors
    have quotient : num / den = n.natAbs := by rw [factors, Nat.mul_div_cancel _ positive]
    refine ⟨by rw [factors, Nat.mul_mod_left], ?_⟩
    rw [quotient]
    rw [factors, signed_mul] at equal
    exact mul_right_cancel₀ (by exact_mod_cast positive.ne') equal
  · rintro ⟨divides, rfl⟩
    rw [← signed_mul, Nat.div_mul_cancel (Nat.dvd_of_mod_eq_zero divides)]

theorem whole?_eq_some_iff {x : Double} {n : Int} : x.whole? = some n ↔ x.value = n := by
  rw [whole?, value_eq_div, signed_div_eq_iff x.denominator_pos]
  split <;> simp [*]

-- With all its bits in use, a mantissa is larger than any other at a smaller exponent.
theorem le_of_magnitude_le {m n i j : Nat} (small : m < 0x20000000000000)
    (normal : j = 0 ∨ 0x10000000000000 ≤ n) (order : n * 2 ^ j ≤ m * 2 ^ i) : j ≤ i := by
  by_contra apart
  have later : i + 1 ≤ j := by omega
  have full : 0x10000000000000 ≤ n := normal.resolve_left (by omega)
  have larger : m * 2 ^ i < n * 2 ^ j := by
    calc m * 2 ^ i < 0x20000000000000 * 2 ^ i :=
          Nat.mul_lt_mul_of_pos_right small (Nat.two_pow_pos i)
      _ = 0x10000000000000 * 2 ^ (i + 1) := by rw [Nat.pow_succ]; omega
      _ ≤ n * 2 ^ j := Nat.mul_le_mul full (Nat.pow_le_pow_right (by decide) later)
  omega

theorem eq_of_magnitude_eq {x y : Double} (equal : x.magnitude = y.magnitude) :
    x.mantissa = y.mantissa ∧ x.exponent = y.exponent := by
  have powers : x.exponent = y.exponent :=
    Nat.le_antisymm (le_of_magnitude_le y.mantissa_lt x.normal (Nat.le_of_eq equal))
      (le_of_magnitude_le x.mantissa_lt y.normal (Nat.le_of_eq equal.symm))
  rw [magnitude, magnitude, powers] at equal
  exact ⟨Nat.eq_of_mul_eq_mul_right (Nat.two_pow_pos y.exponent) equal, powers⟩

theorem value_eq_iff {x y : Double} :
    x.value = y.value ↔ signed x.negative x.magnitude = signed y.negative y.magnitude := by
  rw [value_eq_mul_tiny, value_eq_mul_tiny, mul_left_inj' tiny_pos.ne']
  exact Int.cast_inj

theorem magnitude_eq_zero_iff {x : Double} : x.magnitude = 0 ↔ x.mantissa = 0 := by
  simp [magnitude]

theorem same_iff {x y : Double} : x.same y = true ↔ x.value = y.value := by
  simp only [same, Bool.or_eq_true, decide_eq_true_eq, Bool.and_eq_true, beq_iff_eq]
  rw [value_eq_iff]
  constructor
  · rintro (rfl | ⟨first, second⟩)
    · rfl
    · rw [magnitude_eq_zero_iff.mpr first, magnitude_eq_zero_iff.mpr second]
      cases x.negative <;> cases y.negative <;> rfl
  · intro equal
    have magnitudes : x.magnitude = y.magnitude := by
      have absolute := congrArg Int.natAbs equal
      rwa [natAbs_signed, natAbs_signed] at absolute
    obtain ⟨mantissas, exponents⟩ := eq_of_magnitude_eq magnitudes
    by_cases zero : x.mantissa = 0
    · exact .inr ⟨zero, mantissas ▸ zero⟩
    · left
      have signs : x.negative = y.negative := by
        rw [magnitudes] at equal
        have nonzero : y.magnitude ≠ 0 := by
          rwa [← magnitudes, Ne, magnitude_eq_zero_iff]
        revert equal
        cases x.negative <;> cases y.negative <;> simp [signed] <;> omega
      cases x
      cases y
      simp_all

theorem exists_value_eq {n : Int} (few : n.natAbs < 0x20000000000000) :
    ∃ x : Double, x.value = n := by
  by_cases zero : n = 0
  · exact ⟨.zero false, by simp [zero, Double.zero, value, signed]⟩
  · have nonzero : n.natAbs ≠ 0 := Int.natAbs_ne_zero.mpr zero
    obtain ⟨k, length⟩ : ∃ k, n.natAbs.log2 + k = 52 := by
      have bits : n.natAbs.log2 < 53 := (Nat.log2_lt nonzero).mpr few
      exact ⟨52 - n.natAbs.log2, by omega⟩
    have lower : 0x10000000000000 ≤ n.natAbs * 2 ^ k := by
      have least := Nat.mul_le_mul_right (2 ^ k) (Nat.log2_self_le nonzero)
      rwa [← Nat.pow_add, length] at least
    have upper : n.natAbs * 2 ^ k < 0x20000000000000 := by
      have bits : n.natAbs < 2 ^ (n.natAbs.log2 + 1) := Nat.lt_log2_self
      have bound := Nat.mul_lt_mul_of_pos_right bits (Nat.two_pow_pos k)
      rwa [← Nat.pow_add, Nat.add_right_comm, length] at bound
    have small : 1022 + n.natAbs.log2 ≤ 2045 := by omega
    have depth : 1022 + n.natAbs.log2 + k = 1074 := by omega
    let x : Double := ⟨n < 0, n.natAbs * 2 ^ k, 1022 + n.natAbs.log2, upper, small, .inr lower⟩
    refine ⟨x, ?_⟩
    rw [value_of_exponent (x := x) depth, signed_mul, signed_natAbs]
    push_cast
    exact mul_div_cancel_right₀ _ (pow_ne_zero k two_ne_zero)

-- The next one is a power of two.
theorem exists_value_eq_of_le {n : Int} (few : n.natAbs ≤ 0x20000000000000) :
    ∃ x : Double, x.value = n := by
  rcases Nat.lt_or_eq_of_le few with less | power
  · exact exists_value_eq less
  · let x : Double := ⟨n < 0, 0x10000000000000, 1075, by decide, by decide, .inr (by decide)⟩
    have mantissa : x.mantissa * 2 ^ 1 = n.natAbs := by norm_num [x, power]
    refine ⟨x, ?_⟩
    rw [value_of_exponent_add (x := x) (k := 1) rfl, mantissa, signed_natAbs]

end Double

namespace Number

def value : Number → ℚ
  | whole n => n.val
  | double x => x.value

end Number

end Conform
