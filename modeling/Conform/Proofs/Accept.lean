import Conform.Proofs.Members
import Conform.Validator.Check

set_option autoImplicit false

/-!
When containers accept a value, and what they make of it.
-/

namespace Conform

theorem map_eq_ok_iff {α β : Type} {outcome : Outcome α} {f : α → β} {out : β} :
    outcome.map f = .ok out ↔ ∃ value, outcome = .ok value ∧ f value = out := by
  cases outcome <;> simp [Except.map]

theorem mapError_eq_ok_iff {α : Type} {outcome : Outcome α} {f : Failure → Failure} {out : α} :
    outcome.mapError f = .ok out ↔ outcome = .ok out := by
  cases outcome <;> simp [Except.mapError]

namespace Outcome

variable {α : Type}

theorem eq_map_ok_iff {outcomes : List (Outcome α)} {out : List α} :
    outcomes = out.map .ok ↔ failures outcomes = [] ∧ values outcomes = out := by
  induction outcomes generalizing out with
  | nil => cases out <;> simp [failures, values]
  | cons outcome rest ih =>
    cases outcome with
    | error e => cases out <;> simp [failures]
    | ok value => cases out <;> simp [failures, values, ih, and_left_comm]

theorem settle_eq_ok_iff {failFast : Bool} {gather : List Failure → Failure}
    {outcomes : List (Outcome α)} {out : List α} :
    settle failFast gather outcomes = .ok out ↔ outcomes = out.map .ok := by
  rw [eq_map_ok_iff, settle]
  cases failures outcomes <;> simp

theorem indexed_eq_map_ok_iff {outcomes : List (Outcome α)} {out : List α} :
    indexed outcomes = out.map .ok ↔ outcomes = out.map .ok := by
  have placed (place : Nat → Segment) : (outcomes.mapIdx fun i outcome =>
      outcome.mapError (Failure.under (place i))) = out.map .ok ↔ outcomes = out.map .ok := by
    induction outcomes generalizing place out with
    | nil => simp
    | cons outcome rest ih =>
      rw [List.mapIdx_cons]
      cases out with
      | nil => simp
      | cons value out =>
        have others := @ih out fun i => place (i + 1)
        simp only [List.map_cons, List.cons.injEq, mapError_eq_ok_iff]
        exact and_congr_right fun _ => others
  exact placed .index

end Outcome

namespace Field

variable {field : Field Check} {members : Members Json}

-- The value that a field checks in an object, if there is one.
def given (field : Field Check) (members : Members Json) : Option Json :=
  (members.lookup field.name).or field.default?

theorem extract_eq (field : Field Check) (members : Members Json) :
    field.extract members =
      match field.given members with
      | some value => (field.accept value).map some
      | none =>
        if field.isRequired then .error (Failure.required.under (.key field.name))
        else .ok none := by
  rw [extract, given, default?, isRequired]
  cases members.lookup field.name with
  | some value => rfl
  | none => cases field.absence <;> rfl

theorem accept_eq_ok_iff {value out : Json} :
    field.accept value = .ok out ↔
      match field.inner with
      | some check => check value = .ok out
      | none => value = out := by
  rw [accept]
  cases field.inner with
  | none => simp
  | some check => exact mapError_eq_ok_iff

theorem entry_eq_ok_some_iff {entry : String × Json} :
    field.entry members = .ok (some entry) ↔
      ∃ value ∈ field.given members, ∃ out, field.accept value = .ok out ∧
        (field.name, out) = entry := by
  rw [Field.entry, extract_eq]
  cases field.given members with
  | some value => simp [map_eq_ok_iff]
  | none => cases field.isRequired <;> simp [map_eq_ok_iff]

theorem entry_eq_ok_none_iff :
    field.entry members = .ok none ↔
      members.lookup field.name = none ∧ field.absence = .optional := by
  rw [Field.entry, extract]
  cases members.lookup field.name with
  | some value => simp [map_eq_ok_iff]
  | none => cases field.absence <;> simp [map_eq_ok_iff]

end Field

namespace Check

open Outcome

theorem whole_of_integer {value out : Json} (accepted : integer value = .ok out) :
    ∃ n : Whole, out = .whole n := by
  cases value with
  | number n =>
    cases n with
    | whole n => exact ⟨n, (Except.ok.inj accepted).symm⟩
    | double x =>
      rw [integer] at accepted
      cases found : x.integral? <;> simp [found, orFail] at accepted
      exact ⟨_, accepted.symm⟩
  | string s =>
    rw [integer] at accepted
    cases found : Whole.ofText? s <;> simp [found, orFail] at accepted
    exact ⟨_, accepted.symm⟩
  | _ => cases accepted

theorem double_of_float {value out : Json} (accepted : float value = .ok out) :
    ∃ x : Double, out = .double x := by
  cases value with
  | number n =>
    rw [float] at accepted
    cases found : n.toDouble? <;> simp [found, orFail] at accepted
    exact ⟨_, accepted.symm⟩
  | string s =>
    rw [float] at accepted
    cases found : Double.ofText? s <;> simp [found, orFail] at accepted
    exact ⟨_, accepted.symm⟩
  | _ => cases accepted

theorem each_eq_ok_iff {inner : Check} {failFast : Bool} {value out : Json} :
    each inner failFast value = .ok out ↔
      ∃ items outs, value = .array items ∧ out = .array outs ∧
        items.map inner = outs.map .ok := by
  cases value with
  | array items =>
    rw [each, map_eq_ok_iff]
    simp only [settle_eq_ok_iff, indexed_eq_map_ok_iff]
    constructor
    · rintro ⟨outs, accepted, rfl⟩
      exact ⟨items, outs, rfl, rfl, accepted⟩
    · rintro ⟨_, outs, ⟨⟩, rfl, accepted⟩
      exact ⟨outs, accepted, rfl⟩
  | _ => simp [each]

theorem tuple_eq_ok_iff {checks : List Check} {failFast : Bool} {value out : Json} :
    tuple checks failFast value = .ok out ↔
      ∃ items outs, value = .array items ∧ out = .array outs ∧ items.length = checks.length ∧
        List.zipWith (fun check value => check value) checks items = outs.map .ok := by
  cases value with
  | array items =>
    rw [tuple]
    constructor
    · intro accepted
      split at accepted
      next fits =>
        rw [map_eq_ok_iff] at accepted
        simp only [settle_eq_ok_iff, indexed_eq_map_ok_iff] at accepted
        obtain ⟨outs, accepted, rfl⟩ := accepted
        exact ⟨items, outs, rfl, rfl, fits, accepted⟩
      next => cases accepted
    · rintro ⟨_, outs, ⟨⟩, rfl, fits, accepted⟩
      rw [if_pos fits, map_eq_ok_iff]
      simp only [settle_eq_ok_iff, indexed_eq_map_ok_iff]
      exact ⟨outs, accepted, rfl⟩
  | _ => simp [tuple]

-- The entries are those of the declared fields, then those of the members left over.
theorem record_eq_ok_iff {fields : List (Field Check)} {extra : ExtraKeys} {failFast : Bool}
    {value out : Json} :
    record fields extra failFast value = .ok out ↔
      ∃ members, ∃ taken kept : List (Option (String × Json)), value = .object members ∧
        fields.map (·.entry members) = taken.map .ok ∧
        (undeclared (fields.map (·.name)) members).map extra.entry = kept.map .ok ∧
        out = .object (Members.gather (taken.filterMap id ++ kept.filterMap id)) := by
  cases value with
  | object members =>
    rw [record, map_eq_ok_iff]
    simp only [settle_eq_ok_iff]
    constructor
    · rintro ⟨entries, accepted, rfl⟩
      obtain ⟨taken, kept, rfl, declared, others⟩ := List.append_eq_map_iff.mp accepted
      refine ⟨members, taken, kept, rfl, declared.symm, others.symm, ?_⟩
      rw [List.filterMap_append]
    · rintro ⟨_, taken, kept, ⟨⟩, declared, others, rfl⟩
      refine ⟨taken ++ kept, ?_, ?_⟩
      · rw [List.map_append, declared, others]
      · rw [List.filterMap_append]
  | _ => simp [record]

theorem names_taken {fields : List (Field Check)} {members : Members Json}
    {taken : List (Option (String × Json))}
    (declared : fields.map (·.entry members) = taken.map .ok) :
    (Members.names (taken.filterMap id)).Sublist (fields.map (·.name)) := by
  induction fields generalizing taken with
  | nil =>
    obtain rfl : taken = [] := by simpa using declared.symm
    exact .slnil
  | cons field rest ih =>
    cases taken with
    | nil => simp at declared
    | cons entry taken =>
      simp only [List.map_cons, List.cons.injEq] at declared
      have others := ih declared.2
      cases entry with
      | none => exact .cons _ others
      | some entry =>
        obtain ⟨-, -, out, -, rfl⟩ := Field.entry_eq_ok_some_iff.mp declared.1
        exact .cons_cons _ others

theorem kept_eq {extra : ExtraKeys} {members : Members Json} {kept : List (Option (String × Json))}
    (others : members.map extra.entry = kept.map .ok) :
    kept.filterMap id = if extra = .keep then members else [] := by
  induction members generalizing kept with
  | nil =>
    obtain rfl : kept = [] := by simpa using others.symm
    simp
  | cons member rest ih =>
    cases kept with
    | nil => simp at others
    | cons entry kept =>
      simp only [List.map_cons, List.cons.injEq] at others
      have later := ih others.2
      cases extra with
      | reject => simp [ExtraKeys.entry] at others
      | ignore =>
        obtain rfl : none = entry := Except.ok.inj others.1
        simpa using later
      | keep =>
        obtain rfl : some member = entry := Except.ok.inj others.1
        simpa using later

theorem mem_names_undeclared {names : List String} {members : Members Json} {name : String}
    (inside : name ∈ (undeclared names members).names) : name ∉ names := by
  obtain ⟨member, kept, rfl⟩ := List.mem_map.mp inside
  simpa using (List.mem_filter.mp kept).2

theorem not_mem_of_kept {extra : ExtraKeys} {names : List String} {members : Members Json}
    {kept : List (Option (String × Json))}
    (others : (undeclared names members).map extra.entry = kept.map .ok) {name : String}
    (inside : name ∈ Members.names (kept.filterMap id)) : name ∉ names := by
  rw [kept_eq others] at inside
  split at inside
  next => exact mem_names_undeclared inside
  next => cases inside

-- What is taken and what is kept have no name in common.
theorem gather_entries {fields : List (Field Check)} {members : Members Json} {extra : ExtraKeys}
    {taken kept : List (Option (String × Json))} (distinct : (fields.map (·.name)).Nodup)
    (declared : fields.map (·.entry members) = taken.map .ok)
    (others : (undeclared (fields.map (·.name)) members).map extra.entry = kept.map .ok) :
    Members.gather (taken.filterMap id ++ kept.filterMap id) =
      taken.filterMap id ++ Members.gather (kept.filterMap id) := by
  have named := names_taken declared
  apply Members.gather_append (named.nodup distinct)
  intro name inside here
  exact not_mem_of_kept others inside (named.subset here)

end Check

theorem Validator.names_fieldChecks {ι : Type} (fields : List (Field (Validator ι))) :
    (fieldChecks fields).map (·.name) = fields.map (·.name) := by
  rw [fieldChecks_eq_map, List.map_map]
  rfl

end Conform
