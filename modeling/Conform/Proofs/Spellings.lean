import Conform.Proofs.Dyadic
import Conform.Proofs.IntegerText

set_option autoImplicit false

/-!
The spellings of a whole number. As an integer and as text each number of 64 bits is taken, signed
or unsigned, but as a double only those that 64 signed bits hold.
-/

namespace Conform

theorem Double.integral?_eq_some_iff {x : Double} {n : Whole} :
    x.integral? = some n ↔ x.value = n.val ∧ n.val < 0x8000000000000000 := by
  unfold integral?
  cases found : x.whole? with
  | none =>
    have fraction : x.value ≠ n.val := by
      rw [Ne, ← whole?_eq_some_iff, found]
      exact Option.some_ne_none _ ∘ Eq.symm
    simp [fraction]
  | some m =>
    have signed : Whole.isSigned n.val = true ↔ n.val < 0x8000000000000000 := by
      simp [Whole.isSigned, n.lower]
    rw [whole?_eq_some_iff.mp found, Int.cast_inj, ← signed]
    simp only [Option.ite_none_right_eq_some]
    constructor
    · rintro ⟨small, held⟩
      rw [Whole.val_of_ofInt? held]
      exact ⟨rfl, small⟩
    · rintro ⟨rfl, small⟩
      exact ⟨small, Whole.ofInt?_val n⟩

namespace Primitive

theorem check_integer_double (x : Double) :
    integer.check (.double x) =
      Check.orFail (x.integral?.map .whole) (notInteger (.double x)) := rfl

theorem check_integer_double_eq_ok_iff {x : Double} {n : Whole} :
    integer.check (.double x) = .ok (.whole n) ↔ x.integral? = some n := by
  rw [check_integer_double]
  cases x.integral? with
  | none => simp [Check.orFail]
  | some m => simp [Check.orFail, Json.whole]

theorem check_integer_text_self (n : Whole) :
    integer.check (.string (String.ofList n.text)) = .ok (.whole n) := by
  have bare : Text.Padded (String.ofList n.text).toList n.text := ⟨[], [], by simp⟩
  exact check_integer_string_eq_ok_iff.mpr ⟨n.text, bare, n.denotes_text⟩

/--
The integer check takes a number and its text for what they are, and a double without a fraction
as long as 64 signed bits hold it. It refuses every other double.
-/
theorem check_integer_spellings (n : Whole) (x : Double) :
    integer.check (.whole n) = .ok (.whole n) ∧
      integer.check (.string (String.ofList n.text)) = .ok (.whole n) ∧
      (integer.check (.double x) = .ok (.whole n) ↔
        x.value = n.val ∧ n.val < 0x8000000000000000) ∧
      ((∃ m : Whole, x.value = m.val ∧ m.val < 0x8000000000000000) ∨
        integer.check (.double x) = .error (notInteger (.double x))) := by
  refine ⟨rfl, check_integer_text_self n, ?_, ?_⟩
  · rw [check_integer_double_eq_ok_iff, Double.integral?_eq_some_iff]
  · cases found : x.integral? with
    | none => exact .inr (by rw [check_integer_double, found]; rfl)
    | some m => exact .inl ⟨m, Double.integral?_eq_some_iff.mp found⟩

-- The first number that 64 signed bits do not hold.
theorem check_integer_spellings_apart :
    let n : Whole := ⟨0x8000000000000000, by decide, by decide⟩
    let x : Double := ⟨false, 0x10000000000000, 1085, by decide, by decide, .inr (by decide)⟩
    x.value = n.val ∧
      integer.check (.whole n) = .ok (.whole n) ∧
      integer.check (.string "9223372036854775808") = .ok (.whole n) ∧
      integer.check (.double x) = .error (notInteger (.double x)) := by
  intro n x
  have value : x.value = n.val := by
    rw [Double.value_of_exponent_add (k := 11) rfl]
    have double : Double.signed x.negative (x.mantissa * 2 ^ 11) = n.val := by decide
    rw [double]
  have spelled : n.SpelledBy "9223372036854775808" :=
    ⟨n.text, ⟨[], [], by decide, by simp⟩, n.denotes_text⟩
  have refused : x.integral? = none := by
    rw [Option.eq_none_iff_forall_ne_some]
    intro m taken
    obtain ⟨same, small⟩ := Double.integral?_eq_some_iff.mp taken
    rw [value, Int.cast_inj] at same
    have large : n.val = 0x8000000000000000 := rfl
    omega
  refine ⟨value, rfl, check_integer_string_eq_ok_iff.mpr spelled, ?_⟩
  rw [check_integer_double, refused]
  rfl

end Primitive

end Conform
