import Conform.Proofs.Related

set_option autoImplicit false

/-!
Why containers refuse a value: because of its kind, because of its length, or because of parts
that were refused, each of which is seen from the container.
-/

namespace Conform

theorem map_eq_error_iff {α β : Type} {outcome : Outcome α} {f : α → β} {e : Failure} :
    outcome.map f = .error e ↔ outcome = .error e := by
  cases outcome <;> simp [Except.map]

theorem mapError_eq_error_iff {ε ε' α : Type} {outcome : Except ε α} {f : ε → ε'} {e : ε'} :
    outcome.mapError f = .error e ↔ ∃ part, outcome = .error part ∧ f part = e := by
  cases outcome <;> simp [Except.mapError]

namespace Failure

-- A failure that only says that there are others, at the value itself.
structure Gathers (e : Failure) (parts : List Failure) : Prop where
  here : e.path = []
  code : e.code ∈ ["record_invalid", "each_failed", "tuple_invalid", "any_of_failed"]
  nested : e.nested = parts

-- A container fails with one of its parts or with all of them.
def Sums (e : Failure) (parts : List Failure) : Prop :=
  e ∈ parts ∨ parts ≠ [] ∧ e.Gathers parts

end Failure

namespace Outcome

variable {α : Type}

theorem mem_failures_iff {outcomes : List (Outcome α)} {e : Failure} :
    e ∈ failures outcomes ↔ .error e ∈ outcomes := by
  rw [failures_eq_filterMap, List.mem_filterMap]
  constructor
  · rintro ⟨outcome, member, found⟩
    cases outcome with
    | ok value => cases found
    | error f =>
      cases found
      exact member
  · exact fun member => ⟨_, member, rfl⟩

theorem mem_failures_indexed {outcomes : List (Outcome α)} {e : Failure}
    (member : e ∈ failures (indexed outcomes)) :
    ∃ (i : Nat) (part : Failure), outcomes[i]? = some (.error part) ∧
      part.under (.index i) = e := by
  rw [mem_failures_iff, indexed] at member
  obtain ⟨i, inside, same⟩ := List.mem_mapIdx.mp member
  obtain ⟨part, failed, rfl⟩ := mapError_eq_error_iff.mp same
  exact ⟨i, part, by rw [← failed]; exact List.getElem?_eq_getElem inside, rfl⟩

theorem settle_eq_error_iff {failFast : Bool} {gather : List Failure → Failure}
    {outcomes : List (Outcome α)} {e : Failure} :
    settle failFast gather outcomes = .error e ↔ ∃ first rest, failures outcomes = first :: rest ∧
      (if failFast then first else gather (first :: rest)) = e := by
  rw [settle]
  cases failures outcomes <;> simp

theorem sums_of_settle {failFast : Bool} {code : String} {message : Nat → String}
    {outcomes : List (Outcome α)} {e : Failure}
    (known : code ∈ ["record_invalid", "each_failed", "tuple_invalid", "any_of_failed"])
    (failed : settle failFast (Failure.gathered code message) outcomes = .error e) :
    e.Sums (failures outcomes) := by
  obtain ⟨first, rest, parts, made⟩ := settle_eq_error_iff.mp failed
  rw [parts, ← made]
  cases failFast with
  | true => exact .inl List.mem_cons_self
  | false => exact .inr ⟨List.cons_ne_nil first rest, rfl, known, rfl⟩

end Outcome

open Outcome

theorem Field.entry_eq_error {field : Field Check} {members : Members Json} {e : Failure}
    (failed : field.entry members = .error e) :
    (∃ value ∈ field.given members, ∃ check ∈ field.inner, ∃ part,
        check value = .error part ∧ part.under (.key field.name) = e) ∨
      members.lookup field.name = none ∧ field.absence = .required ∧
        Failure.required.under (.key field.name) = e := by
  have accept {value : Json} (refused : field.accept value = .error e) :
      ∃ check ∈ field.inner, ∃ part, check value = .error part ∧
        part.under (.key field.name) = e := by
    rw [Field.accept] at refused
    cases inner : field.inner with
    | none =>
      rw [inner] at refused
      cases refused
    | some check =>
      rw [inner] at refused
      exact ⟨check, rfl, mapError_eq_error_iff.mp refused⟩
  rw [Field.entry, map_eq_error_iff, Field.extract_eq] at failed
  cases given : field.given members with
  | some value =>
    rw [given] at failed
    exact .inl ⟨value, rfl, accept (map_eq_error_iff.mp failed)⟩
  | none =>
    rw [given] at failed
    have absent := (Option.or_eq_none_iff.mp given).1
    cases absence : field.absence with
    | required => exact .inr ⟨absent, rfl, by simpa [Field.isRequired, absence] using failed⟩
    | default value => simp [Field.isRequired, absence] at failed
    | optional => simp [Field.isRequired, absence] at failed

theorem ExtraKeys.entry_eq_error {extra : ExtraKeys} {member : String × Json} {e : Failure}
    (failed : extra.entry member = .error e) :
    extra = .reject ∧ Failure.extraKey.under (.key member.1) = e := by
  cases extra with
  | reject => exact ⟨rfl, Except.error.inj failed⟩
  | ignore | keep => cases failed

namespace Check

theorem each_eq_error {inner : Check} {failFast : Bool} {value : Json} {e : Failure}
    (refused : each inner failFast value = .error e) :
    e = .typeMismatch "array" value ∨
      ∃ items parts, value = .array items ∧ e.Sums parts ∧ ∀ part ∈ parts,
        ∃ (i : Nat) (item : Json) (f : Failure), items[i]? = some item ∧ inner item = .error f ∧
          f.under (.index i) = part := by
  cases value with
  | array items =>
    rw [each, map_eq_error_iff] at refused
    refine .inr ⟨items, _, rfl, sums_of_settle (by simp) refused, fun part member => ?_⟩
    obtain ⟨i, f, failed, placed⟩ := mem_failures_indexed member
    rw [List.getElem?_map] at failed
    obtain ⟨item, found, failed⟩ := Option.map_eq_some_iff.mp failed
    exact ⟨i, item, f, found, failed, placed⟩
  | _ => exact .inl (Except.error.inj refused).symm

theorem tuple_eq_error {checks : List Check} {failFast : Bool} {value : Json} {e : Failure}
    (refused : tuple checks failFast value = .error e) :
    e = .typeMismatch "array" value ∨
      (∃ items, value = .array items ∧ items.length ≠ checks.length ∧
        e = wrongArity checks.length items.length) ∨
      ∃ items parts, value = .array items ∧ e.Sums parts ∧ ∀ part ∈ parts,
        ∃ (i : Nat) (check : Check) (item : Json) (f : Failure), checks[i]? = some check ∧
          items[i]? = some item ∧ check item = .error f ∧ f.under (.index i) = part := by
  cases value with
  | array items =>
    rw [tuple] at refused
    split at refused
    next fits =>
      rw [map_eq_error_iff] at refused
      refine .inr (.inr ⟨items, _, rfl, sums_of_settle (by simp) refused, fun part member => ?_⟩)
      obtain ⟨i, f, failed, placed⟩ := mem_failures_indexed member
      obtain ⟨check, item, declared, found, failed⟩ := List.getElem?_zipWith_eq_some.mp failed
      exact ⟨i, check, item, f, declared, found, failed, placed⟩
    next apart => exact .inr (.inl ⟨items, rfl, apart, (Except.error.inj refused).symm⟩)
  | _ => exact .inl (Except.error.inj refused).symm

theorem record_eq_error {fields : List (Field Check)} {extra : ExtraKeys} {failFast : Bool}
    {value : Json} {e : Failure} (refused : record fields extra failFast value = .error e) :
    e = .typeMismatch "object" value ∨
      ∃ members parts, value = .object members ∧ e.Sums parts ∧ ∀ part ∈ parts,
        (∃ field ∈ fields, field.entry members = .error part) ∨
          ∃ member ∈ members, extra.entry member = .error part := by
  cases value with
  | object members =>
    rw [record, map_eq_error_iff] at refused
    refine .inr ⟨members, _, rfl, sums_of_settle (by simp) refused, fun part member => ?_⟩
    rw [mem_failures_iff, List.mem_append, List.mem_map, List.mem_map] at member
    rcases member with declared | ⟨member, left, failed⟩
    · exact .inl declared
    · exact .inr ⟨member, List.mem_of_mem_filter left, failed⟩
  | _ => exact .inl (Except.error.inj refused).symm

theorem firstSuccess_eq_error_iff {checks : List Check} {value : Json} {parts : List Failure} :
    firstSuccess checks value = .error parts ↔
      (checks.map fun check => check value) = parts.map .error := by
  induction checks generalizing parts with
  | nil => simp [firstSuccess, eq_comm]
  | cons check rest ih =>
    rw [firstSuccess, List.map_cons]
    cases check value with
    | ok out => cases parts <;> simp
    | error e =>
      simp only [mapError_eq_error_iff, ih]
      cases parts with
      | nil => simp
      | cons part parts => simp [and_comm]

-- No check is left out: the failures are those of all the checks, in their order.
theorem anyOf_eq_error_iff {checks : List Check} {value : Json} {e : Failure} :
    anyOf checks value = .error e ↔
      ∃ parts : List Failure, (checks.map fun check => check value) = parts.map .error ∧
        noneAccepted parts = e := by
  simp only [anyOf, mapError_eq_error_iff, firstSuccess_eq_error_iff]

theorem anyOf_eq_error {checks : List Check} {value : Json} {e : Failure}
    (refused : anyOf checks value = .error e) :
    ∃ parts, e.Gathers parts ∧ ∀ part ∈ parts, ∃ check ∈ checks, check value = .error part := by
  obtain ⟨parts, outcomes, made⟩ := anyOf_eq_error_iff.mp refused
  refine ⟨parts, ?_, ?_⟩
  · rw [← made]
    exact ⟨rfl, by simp [noneAccepted], rfl⟩
  · intro part member
    have outcome : (.error part : Outcome Json) ∈ checks.map fun check => check value := by
      rw [outcomes]
      exact List.mem_map_of_mem member
    simpa using outcome

theorem allOf_eq_error {checks : List Check} {value : Json} {e : Failure}
    (refused : allOf checks value = .error e) :
    ∃ check ∈ checks, ∃ given, check given = .error e := by
  induction checks generalizing value with
  | nil => cases refused
  | cons check rest ih =>
    rw [allOf] at refused
    cases first : check value with
    | ok out =>
      rw [first] at refused
      obtain ⟨other, inside, failed⟩ := ih refused
      exact ⟨other, List.mem_cons_of_mem _ inside, failed⟩
    | error f =>
      rw [first] at refused
      cases refused
      exact ⟨check, List.mem_cons_self, value, first⟩

end Check

end Conform
