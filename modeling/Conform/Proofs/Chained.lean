import Conform.Proofs.Combined
import Conform.Proofs.Gathering
import Conform.Proofs.Refusal

set_option autoImplicit false

/-!
Validators joined by `Validator.chain`, which takes over the children of its operands. It does
what a combinator of the two operands does, and how several joins are bracketed makes no
difference.
-/

namespace Conform

open Outcome

namespace Check

theorem leaves_anyOf {checks : List Check} {value : Json} {e : Failure} (filled : checks ≠ [])
    (refused : anyOf checks value = .error e) :
    e.leaves = checks.flatMap fun check => leaves (check value) := by
  obtain ⟨parts, outcomes, made⟩ := anyOf_eq_error_iff.mp refused
  have inside : e.nested = parts := by rw [← made]; rfl
  have nested : e.nested ≠ [] := by
    intro empty
    apply filled
    simpa [← inside, empty] using outcomes
  have all : (checks.map fun check => check value).flatMap leaves =
      parts.flatMap Failure.leaves := by
    rw [outcomes, List.flatMap_map]
    rfl
  rw [Failure.leaves_of_nested nested, inside, ← all, List.flatMap_map]

theorem eq_error_of_anyOf {checks : List Check} {value : Json} {e : Failure}
    (refused : anyOf checks value = .error e) {check : Check} (member : check ∈ checks) :
    ∃ part, check value = .error part := by
  obtain ⟨parts, outcomes, -⟩ := anyOf_eq_error_iff.mp refused
  have outcome : check value ∈ checks.map fun check => check value := List.mem_map_of_mem member
  rw [outcomes] at outcome
  obtain ⟨part, -, failed⟩ := List.mem_map.mp outcome
  exact ⟨part, failed.symm⟩

end Check

namespace Validator

variable {ι : Type}

theorem operands_cases (mode : Combine) (v : Validator ι) :
    (∃ tag children, v = combinator tag mode children ∧ v.operands mode = children) ∨
      v.operands mode = [v] := by
  cases v with
  | combinator tag other children =>
    rw [operands]
    split
    next same => exact .inl ⟨tag, children, by rw [same], rfl⟩
    next => exact .inr rfl
  | leaf | record | each | tuple => exact .inr rfl

@[simp] theorem operands_combinator (tag : ι) (mode : Combine) (children : List (Validator ι)) :
    (combinator tag mode children).operands mode = children := if_pos rfl

theorem serves_operands (mode : Combine) (v : Validator ι) :
    Check.Serves mode ((v.operands mode).map check) v.check := by
  rcases v.operands_cases mode with ⟨tag, children, same, spliced⟩ | alone
  · left
    rw [spliced, same, check, checks_eq_map]
  · right
    rw [alone]
    rfl

theorem joins_chain (tag : ι) (mode : Combine) (a b : Validator ι) :
    Check.Joins mode a.check b.check (chain tag mode a b).check := by
  rw [chain, check, checks_eq_map, List.map_append]
  exact Check.joins_append (serves_operands mode a) (serves_operands mode b)

theorem joins_pair (tag : ι) (mode : Combine) (a b : Validator ι) :
    Check.Joins mode a.check b.check (combinator tag mode [a, b]).check := by
  have first : Check.Serves mode [a.check] a.check := .inr rfl
  have second : Check.Serves mode [b.check] b.check := .inr rfl
  exact Check.joins_append first second

-- The failure of a combinator without children is a leaf, and it is lost when it is taken over.
theorem leaves_operands {v : Validator ι} {x : Json} {e : Failure}
    (filled : v.operands .anyOf ≠ []) (refused : v.check x = .error e) :
    (v.operands .anyOf).flatMap (fun w => leaves (w.check x)) = e.leaves := by
  rcases v.operands_cases .anyOf with ⟨tag, children, same, spliced⟩ | alone
  · rw [spliced] at filled ⊢
    rw [same, check, checks_eq_map] at refused
    have checks : children.map check ≠ [] := by simpa using filled
    rw [Check.leaves_anyOf checks refused, List.flatMap_map]
  · simp [alone, refused]

theorem leaves_chain {tag tag' : ι} {a b : Validator ι} {x : Json} {e f : Failure}
    (filled : a.operands .anyOf ≠ []) (filled' : b.operands .anyOf ≠ [])
    (spliced : (chain tag .anyOf a b).check x = .error e)
    (nested : (combinator tag' .anyOf [a, b]).check x = .error f) : e.leaves = f.leaves := by
  have operands : (a.operands .anyOf ++ b.operands .anyOf).map check ≠ [] := by simp [filled]
  rw [chain, check, checks_eq_map] at spliced
  rw [check, checks_eq_map] at nested
  have within := Check.leaves_anyOf operands spliced
  have beside := Check.leaves_anyOf (by simp) nested
  obtain ⟨first, refused⟩ : ∃ first, a.check x = .error first :=
    Check.eq_error_of_anyOf nested (by simp)
  obtain ⟨second, refused'⟩ : ∃ second, b.check x = .error second :=
    Check.eq_error_of_anyOf nested (by simp)
  rw [within, beside, List.flatMap_map, List.flatMap_append, leaves_operands filled refused,
    leaves_operands filled' refused']
  simp [refused, refused']

inductive Grouping (ι : Type) where
  | one (v : Validator ι)
  | join (tag : ι) (left right : Grouping ι)

namespace Grouping

def members : Grouping ι → List (Validator ι)
  | one v => [v]
  | join _ left right => left.members ++ right.members

def chained (mode : Combine) : Grouping ι → Validator ι
  | one v => v
  | join tag left right => chain tag mode (left.chained mode) (right.chained mode)

theorem length_members_pos (g : Grouping ι) : 0 < g.members.length := by
  induction g with
  | one v => exact Nat.one_pos
  | join tag left right first second =>
    rw [members, List.length_append]
    omega

theorem one_lt_length_join (tag : ι) (left right : Grouping ι) :
    1 < (join tag left right).members.length := by
  have first := left.length_members_pos
  have second := right.length_members_pos
  rw [members, List.length_append]
  omega

theorem operands_chained (mode : Combine) (g : Grouping ι) :
    (g.chained mode).operands mode = g.members.flatMap (operands mode) := by
  induction g with
  | one v => simp [chained, members]
  | join tag left right ih ih' =>
    rw [chained, chain, operands_combinator, ih, ih', members, List.flatMap_append]

theorem check_join (mode : Combine) (tag : ι) (left right : Grouping ι) :
    ((join tag left right).chained mode).check =
      Check.combine mode ((((join tag left right).chained mode).operands mode).map check) := by
  rw [chained, chain, operands_combinator, check, checks_eq_map]

-- A lone member is not joined, so it does not lose its children.
theorem check_chained_eq (mode : Combine) {g h : Grouping ι} (same : g.members = h.members) :
    (g.chained mode).check = (h.chained mode).check := by
  have operands : (g.chained mode).operands mode = (h.chained mode).operands mode := by
    rw [operands_chained, operands_chained, same]
  cases g with
  | one v =>
    cases h with
    | one w =>
      have alike : v = w := by simpa [members] using same
      rw [alike]
    | join tag left right =>
      have many := one_lt_length_join tag left right
      rw [← same] at many
      simp [members] at many
  | join tag left right =>
    cases h with
    | one w =>
      have many := one_lt_length_join tag left right
      rw [same] at many
      simp [members] at many
    | join tag' left' right' => rw [check_join, check_join, operands]

end Grouping

theorem check_chain (tag tag' : ι) (a b : Validator ι) :
    (chain tag .allOf a b).check = (combinator tag' .allOf [a, b]).check ∧
    (∀ x out, (chain tag .anyOf a b).check x = .ok out ↔
      (combinator tag' .anyOf [a, b]).check x = .ok out) ∧
    (a.operands .anyOf ≠ [] → b.operands .anyOf ≠ [] →
      ∀ x e f, (chain tag .anyOf a b).check x = .error e →
        (combinator tag' .anyOf [a, b]).check x = .error f → e.leaves = f.leaves) ∧
    (∀ (mode : Combine) (c : Validator ι) (within beside : ι), ∃ children,
      chain tag mode (chain within mode a b) c = combinator tag mode children ∧
        chain tag' mode a (chain beside mode b c) = combinator tag' mode children) ∧
    ∀ (mode : Combine) (g h : Grouping ι), g.members = h.members →
      (g.chained mode).operands mode = (h.chained mode).operands mode ∧
        (g.chained mode).check = (h.chained mode).check := by
  refine ⟨?_, ?_, ?_, ?_, ?_⟩
  · funext x
    rw [joins_chain tag .allOf a b x, joins_pair tag' .allOf a b x]
  · intro x out
    rw [joins_chain tag .anyOf a b x out, joins_pair tag' .anyOf a b x out]
  · intro filled filled' x e f spliced nested
    exact leaves_chain filled filled' spliced nested
  · intro mode c within beside
    exact ⟨_, rfl, by simp [chain]⟩
  · intro mode g h same
    constructor
    · rw [Grouping.operands_chained, Grouping.operands_chained, same]
    · exact Grouping.check_chained_eq mode same

-- The choice on the left is taken over, so the failure has three parts and not two.
theorem check_chain_amount :
    let amount : Validator Unit :=
      combinator () .anyOf [leaf () (.primitive .integer), leaf () (.primitive .float)]
    let text : Validator Unit := leaf () (.primitive .string)
    ∃ e f, (chain () .anyOf amount text).check .null = .error e ∧
      (combinator () .anyOf [amount, text]).check .null = .error f ∧
      e.nested.length = 3 ∧ f.nested.length = 2 ∧ e.leaves = f.leaves := by
  intro amount text
  obtain ⟨e, spliced, three⟩ : ∃ e, (chain () .anyOf amount text).check .null = .error e ∧
      e.nested.length = 3 := by
    with_unfolding_all exact ⟨_, rfl, rfl⟩
  obtain ⟨f, nested, two⟩ : ∃ f, (combinator () .anyOf [amount, text]).check .null = .error f ∧
      f.nested.length = 2 := by
    with_unfolding_all exact ⟨_, rfl, rfl⟩
  obtain ⟨-, -, leaves, -, -⟩ := check_chain () () amount text
  have filled : amount.operands .anyOf ≠ [] := by simp [amount]
  have filled' : text.operands .anyOf ≠ [] := by simp [text, operands]
  exact ⟨e, f, spliced, nested, three, two, leaves filled filled' .null e f spliced nested⟩

end Validator

end Conform
