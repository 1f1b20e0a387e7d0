import Conform.Proofs.Digits
import Conform.Proofs.Quoted

set_option autoImplicit false

/-!
Reading the steps of a place one by one from its text. The steps into a value and those into a
specification write what stands in brackets alike, and have different bare names.
-/

namespace Conform.StepReader

variable {α : Type}

-- Takes away the character that has to come next.
def close? (closer : Char) (step : α) : List Char → Option (α × List Char)
  | [] => none
  | c :: rest => if c = closer then some (step, rest) else none

theorem close?_cons (closer : Char) (step : α) (rest : List Char) :
    close? closer step (closer :: rest) = some (step, rest) := by
  simp [close?]

def bracket? (key : String → α) (index : Nat → α) (cs : List Char) : Option (α × List Char) :=
  match Json.quoted? cs with
  | some (name, rest) => close? ']' (key name) rest
  | none => (Numeral.leading? cs).bind fun (i, rest) => close? ']' (index i) rest

theorem bracket?_quote (key : String → α) (index : Nat → α) (name : String) (rest : List Char) :
    bracket? key index (Json.quote name ++ ']' :: rest) = some (key name, rest) := by
  simp [bracket?, Json.quoted?_quote, close?_cons]

theorem bracket?_toDigits (key : String → α) (index : Nat → α) (i : Nat) (rest : List Char) :
    bracket? key index (Nat.toDigits 10 i ++ ']' :: rest) = some (index i, rest) := by
  have unquoted : Json.quoted? (Nat.toDigits 10 i ++ ']' :: rest) = none := by
    have nonempty : Nat.toDigits 10 i ≠ [] := Nat.toDigits_ne_nil
    obtain ⟨digit, digits, written⟩ := List.exists_cons_of_ne_nil nonempty
    have first : digit.isDigit := isDigit_of_mem_toDigits (n := i) (by simp [written])
    apply Json.quoted?_of_head?_ne
    rw [written]
    rintro ⟨⟩
    exact absurd first (by decide)
  have number : Numeral.leading? (Nat.toDigits 10 i ++ ']' :: rest) = some (i, ']' :: rest) :=
    Numeral.leading?_toDigits i (by simp)
  simp [bracket?, unquoted, number, close?_cons]

def bare (sort : Char → Bool) (key : String → α) (cs : List Char) : α × List Char :=
  (key (String.ofList (cs.takeWhile sort)), cs.dropWhile sort)

theorem bare_append {sort : Char → Bool} (key : String → α) {name : String} {rest : List Char}
    (inside : ∀ c ∈ name.toList, sort c) (ends : ∀ c ∈ rest.head?, sort c = false) :
    bare sort key (name.toList ++ rest) = (key name, rest) := by
  obtain ⟨run, behind⟩ := split_run inside ends
  rw [bare, run, behind, String.ofList_toList]

def readAll? (read? : List Char → Option (α × List Char)) : List Char → Option (List α)
  | [] => some []
  | c :: cs =>
    match read? (c :: cs) with
    | none => none
    | some (step, rest) =>
      if rest.length ≤ cs.length then (readAll? read? rest).map (step :: ·) else none
termination_by cs => cs.length

-- If every step begins with a character that ends the step in front, all of them can be read.
theorem readAll?_flatMap {read? : List Char → Option (α × List Char)} {write : α → List Char}
    {sort : Char → Bool}
    (begins : ∀ step, ∃ c cs, write step = c :: cs ∧ sort c = false)
    (reads : ∀ step rest, (∀ c ∈ rest.head?, sort c = false) →
      read? (write step ++ rest) = some (step, rest)) (steps : List α) :
    readAll? read? (steps.flatMap write) = some steps := by
  have ends (steps : List α) : ∀ c ∈ (steps.flatMap write).head?, sort c = false := by
    cases steps with
    | nil => simp
    | cons step rest =>
      obtain ⟨c, cs, first, outside⟩ := begins step
      simp [first, outside]
  induction steps with
  | nil => rw [List.flatMap_nil, readAll?]
  | cons step rest ih =>
    obtain ⟨c, cs, first, -⟩ := begins step
    have read := reads step (rest.flatMap write) (ends rest)
    rw [List.flatMap_cons]
    rw [first, List.cons_append] at read ⊢
    rw [readAll?, read]
    simp [ih]

end Conform.StepReader
