import Conform.Proofs.Dyadic
import Mathlib.Algebra.Group.Int.Even
import Mathlib.Algebra.Order.Ring.Abs

set_option autoImplicit false

/-!
Rounding to the nearest double. A ratio becomes the double that no other one is closer to; where
two of them are equally close, it is the one whose mantissa is even.
-/

namespace Conform

theorem roundDiv_cases (num den : Nat) :
    (2 * (num % den) < den ∧ roundDiv num den = num / den) ∨
      (2 * (num % den) = den ∧ Even (roundDiv num den) ∧
        (roundDiv num den = num / den ∨ roundDiv num den = num / den + 1)) ∨
      (den < 2 * (num % den) ∧ roundDiv num den = num / den + 1) := by
  have off := Nat.lt_trichotomy (2 * (num % den)) den
  rw [roundDiv, Nat.even_iff]
  split <;> omega

theorem ratio_eq_add (num : Nat) {den : Nat} (positive : 0 < den) :
    (num : ℚ) / den = (num / den : ℕ) + ((num % den : ℕ) : ℚ) / den := by
  have nonzero : (den : ℚ) ≠ 0 := by exact_mod_cast positive.ne'
  have whole : (num : ℚ) = (num / den : ℕ) * den + (num % den : ℕ) := by
    exact_mod_cast (Nat.div_add_mod' num den).symm
  rw [div_eq_iff nonzero, add_mul, div_mul_cancel₀ _ nonzero, whole]

theorem roundDiv_off (num : Nat) {den : Nat} (positive : 0 < den) :
    |(roundDiv num den : ℚ) - num / den| ≤ 1 / 2 ∧
      (|(roundDiv num den : ℚ) - num / den| = 1 / 2 → Even (roundDiv num den)) := by
  have den_pos : (0 : ℚ) < den := by exact_mod_cast positive
  rw [ratio_eq_add num positive]
  generalize fraction : ((num % den : ℕ) : ℚ) / den = part
  have scaled : ((num % den : ℕ) : ℚ) = part * den := (div_eq_iff den_pos.ne').mp fraction
  have part_nonneg : 0 ≤ part := fraction ▸ by positivity
  have part_lt : part < 1 := by
    rw [← fraction, div_lt_one den_pos]
    exact_mod_cast Nat.mod_lt num positive
  have below : |((num / den : ℕ) : ℚ) - ((num / den : ℕ) + part)| = part := by
    rw [sub_add_cancel_left, abs_neg, abs_of_nonneg part_nonneg]
  have above : |((num / den + 1 : ℕ) : ℚ) - ((num / den : ℕ) + part)| = 1 - part := by
    rw [Nat.cast_add_one, add_sub_add_left_eq_sub, abs_of_nonneg (by linarith)]
  rcases roundDiv_cases num den with ⟨small, down⟩ | ⟨half, even, either⟩ | ⟨large, up⟩
  · have less : part < 1 / 2 := by
      have bound : 2 * ((num % den : ℕ) : ℚ) < den := by exact_mod_cast small
      rw [scaled] at bound
      nlinarith
    rw [down, below]
    exact ⟨less.le, fun equal => absurd equal less.ne⟩
  · have equal : part = 1 / 2 := by
      have bound : 2 * ((num % den : ℕ) : ℚ) = den := by exact_mod_cast half
      rw [scaled] at bound
      nlinarith
    refine ⟨?_, fun _ => even⟩
    rcases either with down | up
    · rw [down, below, equal]
    · rw [up, above, equal]
      norm_num
  · have more : 1 / 2 < part := by
      have bound : (den : ℚ) < 2 * ((num % den : ℕ) : ℚ) := by exact_mod_cast large
      rw [scaled] at bound
      nlinarith
    rw [up, above]
    exact ⟨by linarith, fun equal => absurd equal (by linarith)⟩

/-- No integer is closer to `t` than one that is off by a half at most. -/
theorem closest_integer {t : ℚ} {m : ℤ} (off : |(m : ℚ) - t| ≤ 1 / 2)
    (tie : |(m : ℚ) - t| = 1 / 2 → Even m) (k : ℤ) :
    |(m : ℚ) - t| ≤ |(k : ℚ) - t| ∧
      (|(k : ℚ) - t| = |(m : ℚ) - t| → k ≠ m → Even m ∧ ¬ Even k) := by
  by_cases same : k = m
  · rw [same]
    exact ⟨le_rfl, fun _ apart => absurd rfl apart⟩
  · have between : |((k - m : ℤ) : ℚ)| ≤ |(k : ℚ) - t| + |(m : ℚ) - t| := by
      rw [Int.cast_sub, abs_sub_comm (m : ℚ) t]
      exact abs_sub_le (k : ℚ) t m
    have apart : (1 : ℚ) ≤ |((k - m : ℤ) : ℚ)| := by
      exact_mod_cast Int.one_le_abs (sub_ne_zero.mpr same)
    refine ⟨by linarith, fun equal _ => ?_⟩
    have half : |(m : ℚ) - t| = 1 / 2 := by linarith
    have even := tie half
    have next : |k - m| = 1 := by
      have bound : |((k - m : ℤ) : ℚ)| ≤ 1 := by linarith
      have exact : |((k - m : ℤ) : ℚ)| = 1 := le_antisymm bound apart
      exact_mod_cast exact
    refine ⟨even, ?_⟩
    rw [Int.even_iff] at even ⊢
    rcases (abs_eq zero_le_one).mp next with after | before <;> omega

namespace Double

/--
The double that a number is rounded to: no other is closer, and it has an even mantissa where
another one, with an odd mantissa, is just as close.
-/
structure Nearest (q : ℚ) (x : Double) : Prop where
  closest : ∀ y : Double, |x.value - q| ≤ |y.value - q|
  even : ∀ y : Double, |y.value - q| = |x.value - q| → y.value ≠ x.value →
    Even x.mantissa ∧ ¬ Even y.mantissa

variable {q : ℚ} {x y : Double}

theorem Nearest.unique (first : Nearest q x) (second : Nearest q y) : x.value = y.value := by
  by_contra apart
  have close : |x.value - q| = |y.value - q| :=
    le_antisymm (first.closest y) (second.closest x)
  exact (second.even x close apart).2 (first.even y close.symm (Ne.symm apart)).1

theorem Nearest.congr (nearest : Nearest q x) (same : x.value = y.value) : Nearest q y := by
  have mantissas : x.mantissa = y.mantissa := by
    have absolute := congrArg Int.natAbs (value_eq_iff.mp same)
    rw [natAbs_signed, natAbs_signed] at absolute
    exact (eq_of_magnitude_eq absolute).1
  constructor
  · exact same ▸ nearest.closest
  · exact mantissas ▸ same ▸ nearest.even

theorem Nearest.value_eq_iff (nearest : Nearest q x) : x.value = y.value ↔ Nearest q y :=
  ⟨nearest.congr, nearest.unique⟩

theorem nearest_value (x : Double) : Nearest x.value x := by
  constructor
  · intro y
    rw [sub_self, abs_zero]
    exact abs_nonneg _
  · intro y close apart
    rw [sub_self, abs_zero, abs_eq_zero, sub_eq_zero] at close
    exact absurd close apart

theorem nearest_iff :
    Nearest q x ↔ q = x.value ∨ (∀ y : Double, y.value ≠ q) ∧ Nearest q x := by
  constructor
  · intro nearest
    by_cases exact : ∃ y : Double, y.value = q
    · obtain ⟨y, rfl⟩ := exact
      exact .inl ((nearest_value y).unique nearest)
    · exact .inr ⟨fun y same => exact ⟨y, same⟩, nearest⟩
  · rintro (rfl | ⟨-, nearest⟩)
    · exact nearest_value x
    · exact nearest

end Double

/-! How a ratio is cut to size: the grid is as fine as the mantissa has bits for it. -/

section Grid

variable (units : Nat) {den : Nat}

-- The exponent of the grid that a ratio is rounded on.
def gridExponent (units den : Nat) : Nat := (units / den).log2 - 52

theorem lt_grid (positive : 0 < den) :
    units < den * 2 ^ gridExponent units den * 0x20000000000000 := by
  have bits : units / den < 2 ^ (gridExponent units den + 53) :=
    Nat.lt_of_lt_of_le Nat.lt_log2_self (Nat.pow_le_pow_right (by decide) (by
      unfold gridExponent
      omega))
  rw [Nat.div_lt_iff_lt_mul positive, Nat.pow_add, Nat.mul_comm, ← Nat.mul_assoc] at bits
  exact bits

theorem grid_le (positive : 0 < den) :
    gridExponent units den = 0 ∨ den * 2 ^ gridExponent units den * 0x10000000000000 ≤ units := by
  by_cases coarse : gridExponent units den = 0
  · exact .inl coarse
  · have bits : (units / den).log2 = gridExponent units den + 52 := by
      unfold gridExponent at coarse ⊢
      omega
    have nonzero : units / den ≠ 0 := by
      intro zero
      rw [zero] at bits
      simp at bits
    have least := Nat.log2_self_le nonzero
    rw [bits, Nat.le_div_iff_mul_le positive, Nat.pow_add, Nat.mul_comm, ← Nat.mul_assoc] at least
    exact .inr least

theorem roundDiv_grid_le (positive : 0 < den) :
    roundDiv units (den * 2 ^ gridExponent units den) ≤ 0x20000000000000 := by
  have quotient : units / (den * 2 ^ gridExponent units den) < 0x20000000000000 := by
    rw [Nat.div_lt_iff_lt_mul (Nat.mul_pos positive (Nat.two_pow_pos _)), Nat.mul_comm]
    exact lt_grid units positive
  rcases roundDiv_cases units (den * 2 ^ gridExponent units den) with
    ⟨-, down⟩ | ⟨-, -, down | up⟩ | ⟨-, up⟩ <;> omega

theorem le_roundDiv_grid (positive : 0 < den) :
    gridExponent units den = 0 ∨
      0x10000000000000 ≤ roundDiv units (den * 2 ^ gridExponent units den) := by
  refine (grid_le units positive).imp_right fun large => ?_
  have quotient : 0x10000000000000 ≤ units / (den * 2 ^ gridExponent units den) := by
    rw [Nat.le_div_iff_mul_le (Nat.mul_pos positive (Nat.two_pow_pos _)), Nat.mul_comm]
    exact large
  rcases roundDiv_cases units (den * 2 ^ gridExponent units den) with
    ⟨-, down⟩ | ⟨-, -, down | up⟩ | ⟨-, up⟩ <;> omega

/--
On a grid of the full 53 bits, a rounded multiple is as close as any number of 53 bits. One on a
finer grid is too small to be closer.
-/
theorem closest_on_grid {t : ℚ} {m : ℤ} (off : |(m : ℚ) - t| ≤ 1 / 2)
    (tie : |(m : ℚ) - t| = 1 / 2 → Even m) {e : ℕ} (full : e = 0 ∨ 0x10000000000000 ≤ t) {k : ℤ}
    (small : |k| < 0x20000000000000) (j : ℕ) :
    |(m : ℚ) * 2 ^ e - t * 2 ^ e| ≤ |(k : ℚ) * 2 ^ j - t * 2 ^ e| ∧
      (|(k : ℚ) * 2 ^ j - t * 2 ^ e| = |(m : ℚ) * 2 ^ e - t * 2 ^ e| →
        (k : ℚ) * 2 ^ j ≠ m * 2 ^ e → Even m ∧ ¬ Even k) := by
  have grid : (0 : ℚ) < 2 ^ e := by positivity
  have scaled (a b : ℚ) : |a * 2 ^ e - b * 2 ^ e| = |a - b| * 2 ^ e := by
    rw [← sub_mul, abs_mul, abs_of_pos grid]
  by_cases order : e ≤ j
  · have multiple : (k : ℚ) * 2 ^ j = ((k * 2 ^ (j - e) : ℤ) : ℚ) * 2 ^ e := by
      push_cast
      rw [mul_assoc, ← pow_add, Nat.sub_add_cancel order]
    obtain ⟨near, ties⟩ := closest_integer off tie (k * 2 ^ (j - e))
    rw [multiple, scaled, scaled]
    refine ⟨mul_le_mul_of_nonneg_right near grid.le, fun equal apart => ?_⟩
    have other : k * 2 ^ (j - e) ≠ m := fun same => apart (by rw [same])
    obtain ⟨even, odd⟩ := ties (mul_right_cancel₀ grid.ne' equal) other
    exact ⟨even, fun even' => odd (even'.mul_right _)⟩
  · have large : 0x10000000000000 ≤ t := full.resolve_left (by omega)
    have near := (closest_integer off tie 0x10000000000000).1
    have below : (k : ℚ) * 2 ^ j < 0x10000000000000 * 2 ^ e := by
      have finer : (2 : ℚ) ^ j * 2 ≤ 2 ^ e := by
        rw [← pow_succ]
        exact pow_le_pow_right₀ (by norm_num) (by omega)
      have bound : (k : ℚ) < 0x20000000000000 := by exact_mod_cast lt_of_abs_lt small
      have positive : (0 : ℚ) < 2 ^ j := by positivity
      nlinarith
    have closer : |(m : ℚ) * 2 ^ e - t * 2 ^ e| < |(k : ℚ) * 2 ^ j - t * 2 ^ e| := by
      calc |(m : ℚ) * 2 ^ e - t * 2 ^ e| = |(m : ℚ) - t| * 2 ^ e := scaled _ _
        _ ≤ |((0x10000000000000 : ℤ) : ℚ) - t| * 2 ^ e := mul_le_mul_of_nonneg_right near grid.le
        _ = (t - 0x10000000000000) * 2 ^ e := by
          rw [Int.cast_ofNat, abs_sub_comm, abs_of_nonneg (sub_nonneg.mpr large)]
        _ < t * 2 ^ e - k * 2 ^ j := by linarith
        _ ≤ |(k : ℚ) * 2 ^ j - t * 2 ^ e| := by
          rw [abs_sub_comm]
          exact le_abs_self _
    exact ⟨closer.le, fun equal => absurd equal closer.ne'⟩

end Grid

namespace Double

variable {num den : Nat} {negative : Bool} {x : Double}

theorem ofParts?_eq_some_iff {mantissa exponent : Nat} :
    ofParts? negative mantissa exponent = some x ↔
      x.negative = negative ∧ x.mantissa = mantissa ∧ x.exponent = exponent := by
  rw [ofParts?]
  constructor
  · intro made
    split at made
    next =>
      cases made
      exact ⟨rfl, rfl, rfl⟩
    next => cases made
  · rintro ⟨rfl, rfl, rfl⟩
    rw [dif_pos ⟨x.mantissa_lt, x.exponent_le, x.normal⟩]

-- A whole number in units of the least positive double.
def unitsOf (num : Nat) : Nat := num * Nat.pow 2 1074

theorem unitsOf_mul_tiny (num : Nat) : (unitsOf num : ℚ) * tiny = num := by
  -- the power is not to be computed
  obtain ⟨k, depth⟩ : ∃ k, k = 1074 := ⟨_, rfl⟩
  have least : tiny = 2 ^ (-(k : ℤ)) := by
    rw [depth]
    rfl
  rw [unitsOf, ← depth, least, Nat.cast_mul, Nat.pow_eq, Nat.cast_pow, Nat.cast_ofNat, zpow_neg,
    zpow_natCast, mul_assoc, mul_inv_cancel₀ (pow_ne_zero k two_ne_zero), mul_one]

theorem ofRatio?_eq (negative : Bool) (num den : Nat) :
    ofRatio? negative num den =
      let exponent := gridExponent (unitsOf num) den
      let mantissa := roundDiv (unitsOf num) (den * 2 ^ exponent)
      if mantissa = 0x20000000000000 then ofParts? negative 0x10000000000000 (exponent + 1)
      else ofParts? negative mantissa exponent := rfl

theorem magnitude_of_ofRatio? (made : ofRatio? negative num den = some x) :
    let exponent := gridExponent (unitsOf num) den
    let mantissa := roundDiv (unitsOf num) (den * 2 ^ exponent)
    x.negative = negative ∧ x.magnitude = mantissa * 2 ^ exponent ∧
      (Even mantissa → Even x.mantissa) := by
  intro exponent mantissa
  rw [ofRatio?_eq] at made
  simp only at made
  split at made
  next carry =>
    obtain ⟨sign, bits, power⟩ := ofParts?_eq_some_iff.mp made
    have full : mantissa = 0x20000000000000 := carry
    refine ⟨sign, ?_, fun _ => bits ▸ by decide⟩
    rw [magnitude, bits, power, full, Nat.pow_succ, Nat.mul_comm (2 ^ _), ← Nat.mul_assoc]
  next =>
    obtain ⟨sign, bits, power⟩ := ofParts?_eq_some_iff.mp made
    refine ⟨sign, ?_, fun even => ?_⟩
    · rw [magnitude, bits, power]
    · rwa [bits]

-- The mantissa, with the sign that it has as seen from numbers of another sign.
def relative (negative : Bool) (y : Double) : ℤ := signed (negative != y.negative) y.mantissa

theorem value_eq_relative (negative : Bool) (y : Double) :
    y.value = signed negative 1 * (relative negative y * 2 ^ y.exponent * tiny) := by
  have back : signed y.negative y.mantissa = signed negative 1 * relative negative y := by
    rw [relative]
    cases negative <;> cases y.negative <;> simp [signed]
  rw [value_eq_mul_tiny, magnitude, signed_mul, back]
  push_cast
  ring

theorem natAbs_relative (negative : Bool) (y : Double) :
    (relative negative y).natAbs = y.mantissa := natAbs_signed _ _

theorem abs_relative_lt (negative : Bool) (y : Double) :
    |relative negative y| < 0x20000000000000 := by
  rw [Int.abs_eq_natAbs, natAbs_relative]
  exact_mod_cast y.mantissa_lt

theorem even_relative_iff {negative : Bool} {y : Double} :
    Even (relative negative y) ↔ Even y.mantissa := by
  rw [← Int.natAbs_even, natAbs_relative]

theorem distance_eq (negative : Bool) (r s : ℚ) :
    |(signed negative 1 : ℚ) * (r * tiny) - signed negative 1 * (s * tiny)| = |r - s| * tiny := by
  have unit : |((signed negative 1 : ℤ) : ℚ)| = 1 := by cases negative <;> simp [signed]
  rw [← mul_sub, ← sub_mul, abs_mul, unit, one_mul, abs_mul, abs_of_pos tiny_pos]

theorem nearest_ofRatio? (positive : 0 < den) (made : ofRatio? negative num den = some x) :
    Nearest (signed negative num / den) x := by
  obtain ⟨sign, magnitude, even⟩ := magnitude_of_ofRatio? made
  have grid_pos := Nat.mul_pos positive (Nat.two_pow_pos (gridExponent (unitsOf num) den))
  obtain ⟨off, tie⟩ := roundDiv_off (unitsOf num) grid_pos
  have coarse := grid_le (unitsOf num) positive
  generalize gridExponent (unitsOf num) den = e at *
  generalize roundDiv (unitsOf num) (den * 2 ^ e) = m at *
  generalize ratio : (unitsOf num : ℚ) / (den * 2 ^ e : ℕ) = t at *
  have nonzero : ((den * 2 ^ e : ℕ) : ℚ) ≠ 0 := by exact_mod_cast grid_pos.ne'
  have units : (unitsOf num : ℚ) = t * (den * 2 ^ e : ℕ) := (div_eq_iff nonzero).mp ratio
  have target : (signed negative num : ℚ) / den = signed negative 1 * (t * 2 ^ e * tiny) := by
    have den_ne : (den : ℚ) ≠ 0 := by exact_mod_cast positive.ne'
    have back : signed negative num = signed negative 1 * num := by
      cases negative <;> simp [signed]
    have whole : (num : ℚ) = t * 2 ^ e * tiny * den := by
      rw [← unitsOf_mul_tiny num, units]
      push_cast
      ring
    rw [div_eq_iff den_ne, back, Int.cast_mul, Int.cast_natCast, whole]
    ring
  have here : (relative negative x : ℚ) * 2 ^ x.exponent = (m : ℤ) * 2 ^ e := by
    have own : relative negative x = x.mantissa := by simp [relative, sign, signed]
    rw [own]
    exact_mod_cast magnitude
  have full : e = 0 ∨ (0x10000000000000 : ℚ) ≤ t := by
    refine coarse.imp_right fun large => ?_
    rw [← ratio, le_div_iff₀ (by exact_mod_cast grid_pos), mul_comm]
    exact_mod_cast large
  have grid (y : Double) :=
    closest_on_grid off (fun half => (Int.even_coe_nat m).mpr (tie half)) full
      (abs_relative_lt negative y) y.exponent
  constructor
  · intro y
    rw [target, value_eq_relative negative x, value_eq_relative negative y, distance_eq,
      distance_eq, here]
    exact mul_le_mul_of_nonneg_right (grid y).1 tiny_pos.le
  · intro y close apart
    rw [target, value_eq_relative negative x, value_eq_relative negative y, distance_eq,
      distance_eq, here] at close
    rw [value_eq_relative negative x, value_eq_relative negative y, here] at apart
    obtain ⟨evenly, oddly⟩ := (grid y).2 (mul_right_cancel₀ tiny_pos.ne' close) fun same =>
      apart (by rw [same])
    exact ⟨even ((Int.even_coe_nat m).mp evenly), fun even' => oddly (even_relative_iff.mpr even')⟩

theorem gridExponent_unitsOf_le (positive : 0 < den) {bits : Nat} (small : num < den * 2 ^ bits) :
    gridExponent (unitsOf num) den ≤ bits + 1022 := by
  obtain ⟨k, depth⟩ : ∃ k, k = 1074 := ⟨_, rfl⟩
  have quotient : unitsOf num / den < 2 ^ (bits + k) := by
    rw [unitsOf, ← depth, Nat.pow_eq, Nat.div_lt_iff_lt_mul positive, Nat.pow_add,
      Nat.mul_right_comm, Nat.mul_comm _ den]
    exact Nat.mul_lt_mul_of_pos_right small (Nat.two_pow_pos k)
  rw [gridExponent]
  by_cases zero : unitsOf num / den = 0
  · simp [zero]
  · have length := (Nat.log2_lt zero).mpr quotient
    omega

theorem exists_ofRatio? (negative : Bool) (positive : 0 < den) (bits : Nat) (few : bits ≤ 1000)
    (small : num < den * 2 ^ bits) : ∃ x, ofRatio? negative num den = some x := by
  have exponent_le := gridExponent_unitsOf_le positive small
  have mantissa_le := roundDiv_grid_le (unitsOf num) positive
  have full := le_roundDiv_grid (unitsOf num) positive
  rw [ofRatio?_eq]
  simp only
  split
  next carry => exact ⟨_, dif_pos ⟨by decide, by omega, .inr (by decide)⟩⟩
  next apart => exact ⟨_, dif_pos ⟨by omega, by omega, full⟩⟩

theorem exists_ofInt? (n : Whole) : ∃ x, ofInt? n.val = some x := by
  have lower := n.lower
  have upper := n.upper
  have small : n.val.natAbs < 1 * 2 ^ 64 := by omega
  exact exists_ofRatio? _ Nat.one_pos 64 (by decide) small

theorem nearest_ofInt? {n : Int} (made : ofInt? n = some x) : Nearest n x := by
  have nearest := nearest_ofRatio? (by decide) made
  rwa [signed_natAbs, Nat.cast_one, div_one] at nearest

end Double

end Conform
