import Conform.Text.Numeral

set_option autoImplicit false

/-!
The decimal digits of a number can be read back, alone and in front of another text.
-/

namespace Conform

-- A run of characters of one sort ends where the first of another sort comes.
theorem split_run {sort : Char → Bool} {run rest : List Char} (inside : ∀ c ∈ run, sort c)
    (ends : ∀ c ∈ rest.head?, sort c = false) :
    (run ++ rest).takeWhile sort = run ∧ (run ++ rest).dropWhile sort = rest := by
  rw [List.takeWhile_append_of_pos inside, List.dropWhile_append_of_pos inside]
  cases rest with
  | nil => simp
  | cons c rest => simp [ends c rfl]

theorem isDigit_of_mem_toDigits {n : Nat} {c : Char} (member : c ∈ Nat.toDigits 10 n) :
    c.isDigit :=
  Nat.isDigit_of_mem_toDigits (by decide) (by decide) member

namespace Numeral

theorem natural?_toDigits (n : Nat) : natural? (Nat.toDigits 10 n) = some n := by
  have digits : (Nat.toDigits 10 n).all Char.isDigit :=
    List.all_eq_true.mpr fun _ => isDigit_of_mem_toDigits
  have read : value (Nat.toDigits 10 n) = n := Nat.ofDigitChars_ten_toDigits
  rw [natural?, if_pos ⟨Nat.toDigits_ne_nil, digits⟩, read]

def leading? (cs : List Char) : Option (Nat × List Char) :=
  (natural? (cs.takeWhile Char.isDigit)).map (·, cs.dropWhile Char.isDigit)

theorem leading?_toDigits (n : Nat) {rest : List Char}
    (ends : ∀ c ∈ rest.head?, c.isDigit = false) :
    leading? (Nat.toDigits 10 n ++ rest) = some (n, rest) := by
  obtain ⟨digits, behind⟩ := split_run (fun _ => isDigit_of_mem_toDigits) ends
  rw [leading?, digits, behind, natural?_toDigits, Option.map_some]

end Numeral

end Conform
