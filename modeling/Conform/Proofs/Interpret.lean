import Conform.Proofs.Literals

set_option autoImplicit false

/-!
Specifications as programs that are run on a value at once, with no validator in between.
Containers go through their parts in one pass, and each node agrees with the checks of the
validators it would be compiled to.
-/

namespace Conform

namespace Outcome

-- One pass over the parts. A failure ends it, or is kept until all the parts were seen.
def collect {σ α : Type} (failFast : Bool) (gather : List Failure → Failure) (put : σ → α → σ) :
    σ → List Failure → List (Outcome α) → Outcome σ
  | out, [], [] => .ok out
  | _, e :: failed, [] => .error (gather (e :: failed))
  | out, failed, .ok value :: rest => collect failFast gather put (put out value) failed rest
  | out, failed, .error e :: rest =>
    if failFast then .error e else collect failFast gather put out (failed ++ [e]) rest

variable {σ α : Type} (gather : List Failure → Failure) (put : σ → α → σ)

theorem collect_all (out : σ) (failed : List Failure) (outcomes : List (Outcome α)) :
    collect false gather put out failed outcomes =
      match failed ++ failures outcomes with
      | [] => .ok ((values outcomes).foldl put out)
      | e :: rest => .error (gather (e :: rest)) := by
  induction outcomes generalizing out failed with
  | nil => cases failed <;> simp [collect, failures, values]
  | cons outcome rest ih =>
    cases outcome with
    | ok value => rw [collect, ih, failures, values, List.foldl_cons]
    | error e => simp [collect, ih, failures, values]

theorem collect_first (out : σ) (outcomes : List (Outcome α)) :
    collect true gather put out [] outcomes =
      match failures outcomes with
      | [] => .ok ((values outcomes).foldl put out)
      | e :: _ => .error e := by
  induction outcomes generalizing out with
  | nil => rfl
  | cons outcome rest ih =>
    cases outcome with
    | ok value => rw [collect, ih, failures, values, List.foldl_cons]
    | error e => simp [collect, failures]

theorem collect_eq_settle (failFast : Bool) (out : σ) (outcomes : List (Outcome α)) :
    collect failFast gather put out [] outcomes =
      (settle failFast gather outcomes).map (List.foldl put out) := by
  cases failFast with
  | true =>
    rw [collect_first, settle]
    cases failures outcomes <;> rfl
  | false =>
    rw [collect_all, settle, List.nil_append]
    cases failures outcomes <;> rfl

theorem indexed_eq (outcomes : List (Outcome α)) :
    indexed outcomes =
      outcomes.zipIdx.map fun (outcome, i) => outcome.mapError (Failure.under (.index i)) := by
  rw [indexed, List.mapIdx_eq_zipIdx_map]

end Outcome

namespace Meaning

open Outcome

-- What a literal takes for itself. Numbers may be of different kinds, where an integer that is no
-- double counts as the double nearest to it.
inductive Agrees : Json → Json → Prop
  | null : Agrees .null .null
  | bool (b : Bool) : Agrees (.bool b) (.bool b)
  | string (s : String) : Agrees (.string s) (.string s)
  | number {a b : Number} (same : a.value = b.value ∨ a.RoundedTo b ∨ b.RoundedTo a) :
      Agrees (.number a) (.number b)

theorem agrees_iff {expected value : Json} :
    Agrees expected value ↔ expected.isScalar = true ∧ Check.isExactly expected value = true := by
  constructor
  · intro agrees
    cases agrees with
    | null => exact ⟨rfl, rfl⟩
    | bool b => simp [Json.isScalar, Check.isExactly, Json.same]
    | string s => simp [Json.isScalar, Check.isExactly, Json.same]
    | number same => exact ⟨rfl, Number.equal_iff.mpr same⟩
  · intro ⟨scalar, same⟩
    cases expected with
    | array | object => cases scalar
    | number a =>
      cases value with
      | number b => exact .number (Number.equal_iff.mp same)
      | _ => cases same
    | null =>
      cases value with
      | null => exact .null
      | _ => cases same
    | bool a =>
      cases value with
      | bool b =>
        obtain rfl : a = b := by simpa [Check.isExactly, Json.same] using same
        exact .bool a
      | _ => cases same
    | string a =>
      cases value with
      | string b =>
        obtain rfl : a = b := by simpa [Check.isExactly, Json.same] using same
        exact .string a
      | _ => cases same

instance (expected value : Json) : Decidable (Agrees expected value) :=
  decidable_of_iff _ agrees_iff.symm

def literal (expected : Json) : Check := fun value =>
  if Agrees expected value then
    .ok expected
  else
    let text := expected.render
    .error
      { code := "not_exact"
        message := s!"value is not exactly {text}"
        params := [("expected", text)] }

def append (out : List Json) (value : Json) : List Json := out ++ [value]

def elementwise (check : Check) (failFast : Bool) : Check
  | .array items =>
    let gather := Failure.gathered "each_failed" fun n =>
      s!"{n} of {items.length} elements failed validation"
    let outcomes := items.zipIdx.map fun (item, i) =>
      (check item).mapError (Failure.under (.index i))
    (collect failFast gather append [] [] outcomes).map .array
  | value => .error (.typeMismatch "array" value)

def positionwise (checks : List Check) (failFast : Bool) : Check
  | .array items =>
    let gather := Failure.gathered "tuple_invalid" fun n => s!"{n} position(s) failed validation"
    let outcomes := (checks.zip items).zipIdx.map fun ((check, item), i) =>
      (check item).mapError (Failure.under (.index i))
    if items.length = checks.length then
      (collect failFast gather append [] [] outcomes).map .array
    else
      .error (Check.wrongArity checks.length items.length)
  | value => .error (.typeMismatch "array" value)

def sequence (failFast : Bool) : List Check → Check
  | [element] => elementwise element failFast
  | checks => positionwise checks failFast

-- What a field adds to the result: its value, else its default, else an error or nothing.
def taken (members : Members Json) :
    String × Absence × Check → Outcome (Option (String × Json))
  | (name, absence, check) =>
    match members.lookup name, absence with
    | some value, _ | none, .default value => do
      let out ← (check value).mapError (Failure.under (.key name))
      return some (name, out)
    | none, .required =>
      .error { code := "required", message := "is required", path := [.key name] }
    | none, .optional => .ok none

-- What a member adds to the result that no field is named for.
def unclaimed (extra : ExtraKeys) : String × Json → Outcome (Option (String × Json))
  | (name, value) =>
    match extra with
    | .reject => .error { code := "extra_key", message := "is not allowed", path := [.key name] }
    | .ignore => .ok none
    | .keep => .ok (some (name, value))

def write (all : Members Json) : Option (String × Json) → Members Json
  | some (name, value) => all.insert name value
  | none => all

def record (fields : List (String × Absence × Check)) (extra : ExtraKeys) (failFast : Bool) : Check
  | .object members =>
    let gather := Failure.gathered "record_invalid" fun n => s!"{n} field(s) failed validation"
    let others := members.filter fun (name, _) => fields.all fun (claimed, _) => claimed ≠ name
    let outcomes := fields.map (taken members) ++ others.map (unclaimed extra)
    (collect failFast gather write [] [] outcomes).map .object
  | value => .error (.typeMismatch "object" value)

def combine : Combine → List Check → Check
  | .anyOf, checks => fun value =>
    let outcomes := checks.map fun check => check value
    match values outcomes with
    | out :: _ => .ok out
    | [] => .error (Check.noneAccepted (failures outcomes))
  | .allOf, checks => fun value => checks.foldlM (fun out check => check out) value

theorem exact_eq {expected : Json} (scalar : expected.isScalar = true) :
    Check.exact expected = literal expected := by
  funext value
  have compared : Agrees expected value ↔ Check.isExactly expected value = true := by
    simp [agrees_iff, scalar]
  simp only [Check.exact, literal, compared]

theorem entry_eq (extra : ExtraKeys) : extra.entry = unclaimed extra := by
  funext ⟨name, value⟩
  cases extra <;> rfl

theorem undeclared_eq (fields : List (String × Absence × Check)) (members : Members Json) :
    undeclared (fields.map (·.1)) members =
      members.filter fun (name, _) => fields.all fun (claimed, _) => claimed ≠ name := by
  refine List.filter_congr fun (name, value) _ => ?_
  rw [Bool.eq_iff_iff, decide_eq_true_iff, List.all_eq_true]
  simp only [List.mem_map, not_exists, not_and, decide_eq_true_iff, ne_eq]

theorem foldl_append (values : List Json) (out : List Json) :
    values.foldl append out = out ++ values := by
  induction values generalizing out with
  | nil => simp
  | cons value rest ih => simp [ih, append]

theorem collect_append (failFast : Bool) (gather : List Failure → Failure)
    (outcomes : List (Outcome Json)) :
    collect failFast gather append [] [] outcomes = settle failFast gather outcomes := by
  rw [collect_eq_settle]
  cases settle failFast gather outcomes with
  | error e => rfl
  | ok values => simp only [Except.map, foldl_append, List.nil_append]

theorem each_eq (check : Check) (failFast : Bool) :
    Check.each check failFast = elementwise check failFast := by
  funext value
  cases value with
  | array items =>
    simp only [Check.each, elementwise, collect_append, indexed_eq, List.zipIdx_map, List.map_map]
    rfl
  | _ => rfl

theorem tuple_eq (checks : List Check) (failFast : Bool) :
    Check.tuple checks failFast = positionwise checks failFast := by
  funext value
  cases value with
  | array items =>
    have zipped : List.zipWith (fun check value => check value) checks items =
        (checks.zip items).map fun (check, item) => check item := by
      rw [List.map_zip_eq_zipWith]
      rfl
    simp only [Check.tuple, positionwise, collect_append, indexed_eq, zipped, List.zipIdx_map,
      List.map_map]
    rfl
  | _ => rfl

theorem taken_eq {α : Type} (members : Members Json) (field : Field α) (check : Check) :
    (field.attach check).entry members = taken members (field.name, field.absence, check) := by
  obtain ⟨name, absence, inner⟩ := field
  have accept (absence : Absence) (value : Json) :
    Field.accept ⟨name, absence, some check⟩ value =
      (check value).mapError (Failure.under (.key name)) := rfl
  simp only [Field.entry, Field.extract, Field.attach, taken]
  cases members.lookup name with
  | some value =>
    simp only [accept]
    cases check value <;> rfl
  | none =>
    cases absence with
    | required => rfl
    | optional => rfl
    | default value =>
      simp only [accept]
      cases check value <;> rfl

theorem foldl_write (entries : List (Option (String × Json))) :
    entries.foldl write [] = Members.gather (entries.filterMap id) := by
  rw [Members.gather, List.foldl_filterMap]
  congr 1
  funext all entry
  cases entry <;> rfl

theorem record_eq {α : Type} (fields : List (Field α)) (checks : List Check) (extra : ExtraKeys)
    (failFast : Bool) :
    Check.record (List.zipWith Field.attach fields checks) extra failFast =
      record (List.zipWith (fun field check => (field.name, field.absence, check)) fields checks)
        extra failFast := by
  funext value
  cases value with
  | object members =>
    have written (settled : Outcome (List (Option (String × Json)))) :
        settled.map (fun entries => Json.object (Members.gather (entries.filterMap id))) =
          (settled.map (List.foldl write [])).map .object := by
      cases settled with
      | error e => rfl
      | ok entries => simp only [Except.map, foldl_write]
    simp only [Check.record, record, collect_eq_settle, ← undeclared_eq, ← entry_eq,
      List.map_zipWith, taken_eq]
    exact written _
  | _ => rfl

theorem combine_eq (mode : Combine) (checks : List Check) :
    Check.combine mode checks = combine mode checks := by
  funext value
  cases mode with
  | anyOf =>
    have first : Check.firstSuccess checks value =
        match values (checks.map fun check => check value) with
        | out :: _ => .ok out
        | [] => .error (failures (checks.map fun check => check value)) := by
      induction checks with
      | nil => rfl
      | cons check rest ih =>
        rw [Check.firstSuccess, ih, List.map_cons]
        cases check value with
        | ok out => rfl
        | error e =>
          simp only [values, failures]
          cases values (rest.map fun check => check value) <;> rfl
    simp only [Check.combine, Check.anyOf, combine, first]
    cases values (checks.map fun check => check value) <;> rfl
  | allOf =>
    simp only [Check.combine, combine]
    induction checks generalizing value with
    | nil => rfl
    | cons check rest ih =>
      rw [Check.allOf, List.foldlM_cons]
      cases check value with
      | ok out => exact ih out
      | error e => rfl

end Meaning

end Conform
