import Conform.Validator.Handle
import Conform.Validator.Leaf

set_option autoImplicit false

/-!
What a validator does with a value. Each kind of node is a function on the checks of its
parts, and `Validator.check` applies these functions through the tree.
-/

namespace Conform

variable {ι : Type}

namespace Field

def accept (field : Field Check) (value : Json) : Outcome Json :=
  match field.inner with
  | some check => (check value).mapError (Failure.under (.key field.name))
  | none => .ok value

-- The value of the field in an object; a default is checked like a value that is present.
def extract (field : Field Check) (members : Members Json) : Outcome (Option Json) :=
  match members.lookup field.name with
  | some value => (field.accept value).map some
  | none =>
    match field.absence with
    | .required => .error (Failure.required.under (.key field.name))
    | .default value => (field.accept value).map some
    | .optional => .ok none

def entry (field : Field Check) (members : Members Json) : Outcome (Option (String × Json)) :=
  (field.extract members).map (·.map (field.name, ·))

end Field

def ExtraKeys.entry (extra : ExtraKeys) : String × Json → Outcome (Option (String × Json))
  | (name, value) =>
    match extra with
    | .reject => .error (Failure.extraKey.under (.key name))
    | .ignore => .ok none
    | .keep => .ok (some (name, value))

def undeclared (names : List String) (members : Members Json) : Members Json :=
  members.filter fun (name, _) => name ∉ names

namespace Check

def record (fields : List (Field Check)) (extra : ExtraKeys) (failFast : Bool) : Check
  | .object members =>
    let declared := fields.map (·.entry members)
    let others := (undeclared (fields.map (·.name)) members).map extra.entry
    let gather := Failure.gathered "record_invalid" fun n => s!"{n} field(s) failed validation"
    -- skipped fields leave no entry; a name that is declared twice keeps its first place
    (Outcome.settle failFast gather (declared ++ others)).map fun entries =>
      .object (Members.gather (entries.filterMap id))
  | value => .error (.typeMismatch "object" value)

def each (inner : Check) (failFast : Bool) : Check
  | .array items =>
    let total := items.length
    let message (n : Nat) := s!"{n} of {total} elements failed validation"
    let gather := Failure.gathered "each_failed" message
    (Outcome.settle failFast gather (Outcome.indexed (items.map inner))).map .array
  | value => .error (.typeMismatch "array" value)

def wrongArity (expected actual : Nat) : Failure :=
  { code := "tuple_arity"
    message := s!"expected exactly {expected} elements, got {actual}"
    params := [("expected", toString expected), ("actual", toString actual)] }

def tuple (checks : List Check) (failFast : Bool) : Check
  | .array items =>
    if items.length = checks.length then
      let gather := Failure.gathered "tuple_invalid" fun n => s!"{n} position(s) failed validation"
      let outcomes := List.zipWith (fun check value => check value) checks items
      (Outcome.settle failFast gather (Outcome.indexed outcomes)).map .array
    else
      .error (wrongArity checks.length items.length)
  | value => .error (.typeMismatch "array" value)

def firstSuccess : List Check → Json → Except (List Failure) Json
  | [], _ => .error []
  | check :: rest, value =>
    match check value with
    | .ok out => .ok out
    | .error e => (firstSuccess rest value).mapError (e :: ·)

def noneAccepted (parts : List Failure) : Failure :=
  let total := parts.length
  { code := "any_of_failed"
    message := s!"All {total} alternatives failed"
    params := [("alternatives", toString total)]
    nested := parts }

def anyOf (checks : List Check) : Check := fun value =>
  (firstSuccess checks value).mapError noneAccepted

-- Each check gets what the one before it made of the value.
def allOf : List Check → Check
  | [], value => .ok value
  | check :: rest, value =>
    match check value with
    | .ok out => allOf rest out
    | .error e => .error e

def combine : Combine → List Check → Check
  | .anyOf => anyOf
  | .allOf => allOf

end Check

namespace Validator

mutual

def check : Validator ι → Check
  | leaf _ l => l.check
  | record _ fields extra failFast => Check.record (fieldChecks fields) extra failFast
  | each _ inner failFast => Check.each inner.check failFast
  | tuple _ items failFast => Check.tuple (checks items) failFast
  | combinator _ mode children => Check.combine mode (checks children)

def checks : List (Validator ι) → List Check
  | [] => []
  | v :: rest => v.check :: checks rest

def fieldChecks : List (Field (Validator ι)) → List (Field Check)
  | [] => []
  | ⟨name, absence, some v⟩ :: rest => ⟨name, absence, some v.check⟩ :: fieldChecks rest
  | ⟨name, absence, none⟩ :: rest => ⟨name, absence, none⟩ :: fieldChecks rest

end

theorem checks_eq_map (vs : List (Validator ι)) : checks vs = vs.map check := by
  induction vs with
  | nil => rfl
  | cons v rest ih => rw [checks, ih, List.map_cons]

theorem fieldChecks_eq_map (fields : List (Field (Validator ι))) :
    fieldChecks fields = fields.map (·.map check) := by
  induction fields with
  | nil => rfl
  | cons field rest ih =>
    obtain ⟨name, absence, inner⟩ := field
    cases inner <;> simp [fieldChecks, Field.map, ih]

mutual

theorem check_shape : (v : Validator ι) → v.shape.check = v.check
  | leaf _ _ => rfl
  | record _ fields _ _ => by rw [shape, check, check, fieldChecks_shapes fields]
  | each _ inner _ => by rw [shape, check, check, check_shape inner]
  | tuple _ items _ => by rw [shape, check, check, checks_shapes items]
  | combinator _ _ children => by rw [shape, check, check, checks_shapes children]

theorem checks_shapes : (vs : List (Validator ι)) → checks (shapes vs) = checks vs
  | [] => rfl
  | v :: rest => by rw [shapes, checks, checks, check_shape v, checks_shapes rest]

theorem fieldChecks_shapes :
    (fields : List (Field (Validator ι))) → fieldChecks (shapesOfFields fields) = fieldChecks fields
  | [] => rfl
  | ⟨_, _, some v⟩ :: rest => by
    rw [shapesOfFields, fieldChecks, fieldChecks, check_shape v, fieldChecks_shapes rest]
  | ⟨_, _, none⟩ :: rest => by
    rw [shapesOfFields, fieldChecks, fieldChecks, fieldChecks_shapes rest]

end

end Validator

end Conform
