import Conform.Proofs.Nearest
import Conform.Proofs.Run
import Conform.Validator.Check

set_option autoImplicit false

/-!
How a literal number compares with a number. Numbers of one kind are equal if their values are;
of a mixed pair the integer is rounded to a double first, and then different values can be equal.
-/

namespace Conform

namespace Number

-- An integer that is no double, with the double that it is rounded to.
def RoundedTo : Number → Number → Prop
  | whole n, double x => (∀ y : Double, y.value ≠ n.val) ∧ Double.Nearest n.val x
  | _, _ => False

theorem RoundedTo.large {a b : Number} (rounded : a.RoundedTo b) :
    0x20000000000000 < |a.value| := by
  cases a with
  | double => cases rounded
  | whole n =>
    cases b with
    | whole => cases rounded
    | double x =>
      by_contra few
      have bits : n.val.natAbs ≤ 0x20000000000000 := by
        rw [value, not_lt] at few
        have bound : |n.val| ≤ 0x20000000000000 := by exact_mod_cast few
        rw [Int.abs_eq_natAbs] at bound
        exact_mod_cast bound
      obtain ⟨y, exact⟩ := Double.exists_value_eq_of_le bits
      exact rounded.1 y exact

-- As soon as one of two numbers is a double, both are compared as doubles.
theorem equal_of_toDouble? {a b : Number} {x y : Double} (first : a.toDouble? = some x)
    (second : b.toDouble? = some y) (mixed : ∀ m n, a = whole m → b = whole n → False) :
    a.equal b = x.same y := by
  rw [equal, first, second]
  exact mixed

theorem toDouble?_whole (n : Whole) :
    ∃ y, (whole n).toDouble? = some y ∧ Double.Nearest n.val y := by
  obtain ⟨y, made⟩ := Double.exists_ofInt? n
  exact ⟨y, by rw [toDouble?, made], Double.nearest_ofInt? made⟩

theorem equal_iff {a b : Number} :
    a.equal b = true ↔ a.value = b.value ∨ a.RoundedTo b ∨ b.RoundedTo a := by
  match a, b with
  | whole m, whole n =>
    have same : (whole m).equal (whole n) = true ↔ m = n := beq_iff_eq
    have values : (whole m).value = (whole n).value ↔ m = n := by
      rw [value, value, Int.cast_inj]
      cases m
      cases n
      simp
    simp [same, values, RoundedTo]
  | whole n, double x =>
    obtain ⟨y, converted, nearest⟩ := toDouble?_whole n
    rw [equal_of_toDouble? converted rfl (by rintro _ _ - ⟨⟩), Double.same_iff,
      nearest.value_eq_iff, Double.nearest_iff]
    simp [RoundedTo, value]
  | double x, whole n =>
    obtain ⟨y, converted, nearest⟩ := toDouble?_whole n
    rw [equal_of_toDouble? rfl converted (by rintro _ _ ⟨⟩), Double.same_iff, eq_comm,
      nearest.value_eq_iff, Double.nearest_iff]
    simp [RoundedTo, value, eq_comm]
  | double x, double y =>
    rw [equal_of_toDouble? rfl rfl (by rintro _ _ ⟨⟩), Double.same_iff]
    simp [RoundedTo, value]

end Number

namespace Check

theorem exact_number_eq_ok_iff {expected given : Number} {out : Json} :
    exact (.number expected) (.number given) = .ok out ↔
      out = .number expected ∧ expected.equal given = true := by
  have compared : isExactly (.number expected) (.number given) = expected.equal given := rfl
  rw [exact, compared]
  cases expected.equal given <;> simp [eq_comm]

end Check

theorem Compiler.compile_scalar (c : Compiler) {value : Json} (scalar : value.isScalar = true)
    (next : Handle) :
    ∃ v after, c.compile (.literal value) next = .ok (v, after) ∧ v.check = Check.exact value := by
  have planned : c.plan (.literal value) = .leaf (.factory (.leaf () (.exact value))) := by
    rw [plan, if_pos scalar]
  exact ⟨_, _, compile_of_yields (.leaf (Nat.zero_le _) planned rfl), rfl⟩

namespace Check

/--
A literal takes the numbers of its value, and in a mixed pair with an integer beyond `2 ^ 53` that
is no double also the double that this integer is rounded to. A specification that is the literal
does the same.
-/
theorem exact_number_iff (expected given : Number) :
    (∀ out, exact (.number expected) (.number given) = .ok out ↔
      out = .number expected ∧ (expected.value = given.value ∨
        0x20000000000000 < |expected.value| ∧ expected.RoundedTo given ∨
        0x20000000000000 < |given.value| ∧ given.RoundedTo expected)) ∧
      ∀ (c : Compiler) (next : Handle), ∃ v after,
        c.compile (.literal (.number expected)) next = .ok (v, after) ∧
          v.check = exact (.number expected) := by
  refine ⟨fun out => ?_, fun c next => c.compile_scalar rfl next⟩
  rw [exact_number_eq_ok_iff, Number.equal_iff, and_iff_right_of_imp Number.RoundedTo.large,
    and_iff_right_of_imp Number.RoundedTo.large]

-- An integer and the double of the integer before it, in both orders.
theorem exact_above_mantissa :
    let n : Number := .whole ⟨0x20000000000001, by decide, by decide⟩
    let x : Number :=
      .double ⟨false, 0x10000000000000, 1075, by decide, by decide, .inr (by decide)⟩
    n.value ≠ x.value ∧
      exact (.number n) (.number x) = .ok (.number n) ∧
      exact (.number x) (.number n) = .ok (.number x) := by
  intro n x
  have before : x.value = 0x20000000000000 := by
    rw [Number.value, Double.value_of_exponent_add (k := 1) rfl]
    norm_num [Double.signed]
  have rounded : n.equal x = true := by decide +kernel
  have rounded' : x.equal n = true := by decide +kernel
  refine ⟨?_, exact_number_eq_ok_iff.mpr ⟨rfl, rounded⟩, exact_number_eq_ok_iff.mpr ⟨rfl, rounded'⟩⟩
  rw [before, Number.value]
  norm_num

end Check

end Conform
