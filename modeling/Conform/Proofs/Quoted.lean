import Conform.Json.Reader
import Conform.Json.Text

set_option autoImplicit false

/-!
Quoted texts can be read back. The first quote that no backslash escapes ends a quoted text,
whatever comes behind it, and undoing its escapes gives the text that was quoted.
-/

namespace Conform.Json

-- A character is written behind a backslash, by its code, or as it is.
theorem escape_cases (c : Char) :
    (∃ letter, escape c = ['\\', letter] ∧ letter ≠ 'u' ∧ shortEscape? letter = some c) ∨
      (escape c = ['\\', 'u', '0', '0', hexDigit (c.toNat / 16), hexDigit c.toNat] ∧
        c.toNat < 0x20) ∨
      escape c = [c] ∧ c ≠ '"' ∧ c ≠ '\\' ∧ 0x20 ≤ c.toNat := by
  rw [escape]
  split
  next same => exact .inl ⟨'"', rfl, by decide, congrArg some same.symm⟩
  split
  next same => exact .inl ⟨'\\', rfl, by decide, congrArg some same.symm⟩
  split
  next same => exact .inl ⟨'b', rfl, by decide, congrArg some same.symm⟩
  split
  next same => exact .inl ⟨'f', rfl, by decide, congrArg some same.symm⟩
  split
  next same => exact .inl ⟨'n', rfl, by decide, congrArg some same.symm⟩
  split
  next same => exact .inl ⟨'r', rfl, by decide, congrArg some same.symm⟩
  split
  next same => exact .inl ⟨'t', rfl, by decide, congrArg some same.symm⟩
  split
  next control => exact .inr (.inl ⟨rfl, control⟩)
  next quote backslash _ _ _ _ _ printed =>
    exact .inr (.inr ⟨rfl, quote, backslash, Nat.le_of_not_lt printed⟩)

theorem unit?_code {n : Nat} (control : n < 0x20) :
    unit? '0' '0' (hexDigit (n / 16)) (hexDigit n) = some n := by
  have all : ∀ n < 0x20, unit? '0' '0' (hexDigit (n / 16)) (hexDigit n) = some n := by decide
  exact all n control

theorem hexDigit_plain (n : Nat) : hexDigit n ≠ '"' ∧ hexDigit n ≠ '\\' := by
  have all : ∀ n < 16, Nat.digitChar n ≠ '"' ∧ Nat.digitChar n ≠ '\\' := by decide
  exact all (n % 16) (Nat.mod_lt n (by decide))

theorem scalarChar?_toNat (c : Char) : scalarChar? c.toNat = some c := by
  have valid : c.toNat.isValidChar := c.valid
  rw [scalarChar?, dif_pos valid]
  rfl

theorem closing_plain {c : Char} (quote : c ≠ '"') (backslash : c ≠ '\\') (rest : List Char) :
    closing (c :: rest) = (closing rest).map fun (body, more) => (c :: body, more) := by
  rw [closing]
  · exact quote
  · intro _ _ same
    exact absurd same backslash

theorem closing_escape (c : Char) (rest : List Char) :
    closing (escape c ++ rest) =
      (closing rest).map fun (body, more) => (escape c ++ body, more) := by
  rcases escape_cases c with ⟨letter, same, -, -⟩ | ⟨same, -⟩ | ⟨same, quote, backslash, -⟩
  · rw [same]
    rfl
  · have first := hexDigit_plain (c.toNat / 16)
    have second := hexDigit_plain c.toNat
    rw [same]
    simp only [List.cons_append, List.nil_append]
    rw [closing, closing_plain (by decide) (by decide), closing_plain (by decide) (by decide),
      closing_plain first.1 first.2, closing_plain second.1 second.2]
    cases closing rest <;> rfl
  · rw [same]
    exact closing_plain quote backslash rest

theorem unescape?_escape (c : Char) (rest : List Char) :
    unescape? (escape c ++ rest) = (unescape? rest).map (c :: ·) := by
  rcases escape_cases c with ⟨letter, same, other, short⟩ | ⟨same, control⟩ |
    ⟨same, quote, backslash, printed⟩
  · rw [same]
    simp only [List.cons_append, List.nil_append]
    rw [unescape?, short]
    · cases unescape? rest <;> rfl
    · intro _ _ _ _ _ here
      exact absurd here other
  · have low : isHighSurrogate c.toNat = false := by
      simp only [isHighSurrogate, Bool.and_eq_false_iff, decide_eq_false_iff_not]
      omega
    rw [same]
    simp only [List.cons_append, List.nil_append]
    rw [unescape?, unit?_code control]
    simp only [Option.bind_eq_bind, Option.bind_some, low, scalarChar?_toNat]
    cases unescape? rest <;> rfl
  · rw [same]
    simp only [List.cons_append, List.nil_append]
    rw [unescape?, if_neg (Nat.not_lt.mpr printed)]
    · cases unescape? rest <;> rfl
    · intro _ _ _ _ _ here
      exact absurd here backslash
    · intro _ _ here
      exact absurd here backslash

theorem closing_escapes (cs more : List Char) :
    closing (cs.flatMap escape ++ '"' :: more) = some (cs.flatMap escape, more) := by
  induction cs with
  | nil => rfl
  | cons c rest ih => rw [List.flatMap_cons, List.append_assoc, closing_escape, ih, Option.map_some]

theorem unescape?_escapes (cs : List Char) : unescape? (cs.flatMap escape) = some cs := by
  induction cs with
  | nil => rfl
  | cons c rest ih => rw [List.flatMap_cons, unescape?_escape, ih, Option.map_some]

def quoted? : List Char → Option (String × List Char)
  | '"' :: rest => do
    let (body, more) ← closing rest
    return (String.ofList (← unescape? body), more)
  | _ => none

theorem quoted?_quote (s : String) (rest : List Char) :
    quoted? (quote s ++ rest) = some (s, rest) := by
  simp [quote, quoted?, closing_escapes, unescape?_escapes]

theorem quoted?_of_head?_ne {cs : List Char} (other : cs.head? ≠ some '"') : quoted? cs = none := by
  rw [quoted?.eq_def]
  split
  next => simp at other
  next => rfl

end Conform.Json
