import Conform.Proofs.Account

set_option autoImplicit false

/-!
What a record makes of an object. Its output has each declared field that has a value, in the
order of declaration, and beside these only members that were there and that it keeps. Its
failures are those of the declared fields, and then one for each member that it rejects.
-/

namespace Conform

open Outcome

namespace Check

section

variable (fields : List (Field Check)) (members : Members Json)

def Extracts : Prop := ∀ field ∈ fields, ∃ value, field.extract members = .ok value

-- The declared fields that have a value, each with what its check made of it.
def present : Members Json :=
  fields.filterMap fun field =>
    match field.extract members with
    | .ok (some out) => some (field.name, out)
    | .ok none | .error _ => none

def refused : List Failure :=
  fields.filterMap fun field =>
    match field.extract members with
    | .ok _ => none
    | .error e => some e

end

-- The failures for members that are not declared.
def extras (names : List String) (members : Members Json) : List Failure :=
  (undeclared names members).map fun member => Failure.extraKey.under (.key member.1)

variable {fields : List (Field Check)} {members : Members Json}

theorem exists_taken_iff :
    (∃ taken : List (Option (String × Json)), fields.map (·.entry members) = taken.map .ok) ↔
      Extracts fields members := by
  rw [exists_map_ok_iff, Extracts]
  apply forall₂_congr
  intro field _
  rw [Field.entry]
  cases field.extract members <;> simp [Except.map]

theorem exists_kept_iff {extra : ExtraKeys} :
    (∃ kept : List (Option (String × Json)), members.map extra.entry = kept.map .ok) ↔
      (extra = .reject → members = []) := by
  rw [exists_map_ok_iff]
  cases extra with
  | reject => simp [ExtraKeys.entry, List.eq_nil_iff_forall_not_mem]
  | ignore | keep => simp [ExtraKeys.entry]

theorem taken_eq_present {taken : List (Option (String × Json))}
    (declared : fields.map (·.entry members) = taken.map .ok) :
    taken.filterMap id = present fields members := by
  induction fields generalizing taken with
  | nil =>
    have empty : taken = [] := by simpa using declared.symm
    simp [empty, present]
  | cons field rest ih =>
    cases taken with
    | nil => simp at declared
    | cons entry taken =>
      simp only [List.map_cons, List.cons.injEq] at declared
      have later := ih declared.2
      have here := declared.1
      rw [Field.entry] at here
      cases extracted : field.extract members with
      | error e => simp [extracted, Except.map] at here
      | ok value =>
        have same : value.map (field.name, ·) = entry := by
          simpa [extracted, Except.map] using here
        rw [← same]
        cases value <;> simpa [present, extracted] using later

theorem gather_taken {taken kept : List (Option (String × Json))} {extra : ExtraKeys}
    (distinct : (fields.map (·.name)).Nodup) (single : members.names.Nodup)
    (declared : fields.map (·.entry members) = taken.map .ok)
    (others : (undeclared (fields.map (·.name)) members).map extra.entry = kept.map .ok) :
    Members.gather (taken.filterMap id ++ kept.filterMap id) =
      present fields members ++
        if extra = .keep then undeclared (fields.map (·.name)) members else [] := by
  have left : (undeclared (fields.map (·.name)) members).names.Nodup :=
    (List.filter_sublist.map _).nodup single
  rw [gather_entries distinct declared others, taken_eq_present declared, kept_eq others]
  split
  next => rw [Members.gather_of_nodup left]
  next => rfl

theorem record_object_eq_ok_iff (distinct : (fields.map (·.name)).Nodup)
    (single : members.names.Nodup) {extra : ExtraKeys} {failFast : Bool} {out : Json} :
    record fields extra failFast (.object members) = .ok out ↔
      Extracts fields members ∧
        (extra = .reject → undeclared (fields.map (·.name)) members = []) ∧
        out = .object (present fields members ++
          if extra = .keep then undeclared (fields.map (·.name)) members else []) := by
  rw [record_eq_ok_iff, ← exists_taken_iff, ← exists_kept_iff]
  constructor
  · intro ⟨members', taken, kept, same, declared, others, made⟩
    cases same
    rw [gather_taken distinct single declared others] at made
    exact ⟨⟨taken, declared⟩, ⟨kept, others⟩, made⟩
  · intro ⟨⟨taken, declared⟩, ⟨kept, others⟩, made⟩
    refine ⟨members, taken, kept, rfl, declared, others, ?_⟩
    rw [gather_taken distinct single declared others, made]

theorem failures_declared : failures (fields.map (·.entry members)) = refused fields members := by
  rw [failures_eq_filterMap, List.filterMap_map, refused]
  congr 1
  funext field
  rw [Function.comp, Field.entry]
  cases field.extract members <;> rfl

theorem failures_undeclared (extra : ExtraKeys) (names : List String) :
    failures ((undeclared names members).map extra.entry) =
      if extra = .reject then extras names members else [] := by
  rw [failures_eq_filterMap, List.filterMap_map]
  cases extra with
  | reject => simp [extras, Function.comp_def, ExtraKeys.entry, failure?]
  | ignore | keep => simp [Function.comp_def, ExtraKeys.entry, failure?]

theorem accounts_record {extra : ExtraKeys} {failFast : Bool} {e : Failure}
    (failed : record fields extra failFast (.object members) = .error e) :
    Failure.Accounts "record_invalid" failFast
      (refused fields members ++
        if extra = .reject then extras (fields.map (·.name)) members else []) e := by
  rw [record, map_eq_error_iff] at failed
  have accounts := accounts_of_settle failed
  rw [failures_append, failures_declared, failures_undeclared] at accounts
  exact accounts

end Check

namespace Validator

variable {ι : Type} {fields : List (Field (Validator ι))} {members : Members Json}

theorem check_record_eq_ok_iff (tag : ι) (failFast : Bool)
    (distinct : (fields.map (·.name)).Nodup) (single : members.names.Nodup)
    (extra : ExtraKeys) (out : Json) :
    (record tag fields extra failFast).check (.object members) = .ok out ↔
      Check.Extracts (fieldChecks fields) members ∧
        (extra = .reject → undeclared (fields.map (·.name)) members = []) ∧
        out = .object (Check.present (fieldChecks fields) members ++
          if extra = .keep then undeclared (fields.map (·.name)) members else []) := by
  have distinct' : ((fieldChecks fields).map (·.name)).Nodup := by rwa [names_fieldChecks]
  rw [check, Check.record_object_eq_ok_iff distinct' single, names_fieldChecks]

theorem accounts_check_record {tag : ι} {extra : ExtraKeys} {failFast : Bool} {e : Failure}
    (failed : (record tag fields extra failFast).check (.object members) = .error e) :
    Failure.Accounts "record_invalid" failFast
      (Check.refused (fieldChecks fields) members ++
        if extra = .reject then Check.extras (fields.map (·.name)) members else []) e := by
  rw [← names_fieldChecks]
  exact Check.accounts_record failed

-- Where undeclared members are rejected nothing else changes: it accepts if there are none.
theorem check_record (tag : ι) (failFast : Bool) (fields : List (Field (Validator ι)))
    (members : Members Json) (distinct : (fields.map (·.name)).Nodup)
    (single : members.names.Nodup) :
    let checks := fieldChecks fields
    let names := fields.map (·.name)
    let answer extra := (record tag fields extra failFast).check (.object members)
    (∀ out, answer .ignore = .ok out ↔
      Check.Extracts checks members ∧ out = .object (Check.present checks members)) ∧
    (∀ out, answer .keep = .ok out ↔
      ∃ own, answer .ignore = .ok (.object own) ∧ out = .object (own ++ undeclared names members)) ∧
    (∀ out, answer .reject = .ok out ↔
      answer .ignore = .ok out ∧ undeclared names members = []) ∧
    (∀ e, answer .ignore = .error e ∨ answer .keep = .error e →
      Failure.Accounts "record_invalid" failFast (Check.refused checks members) e) ∧
    ∀ e, answer .reject = .error e →
      Failure.Accounts "record_invalid" failFast
        (Check.refused checks members ++ Check.extras names members) e := by
  intro checks names answer
  have accepts := check_record_eq_ok_iff tag failFast distinct single
  refine ⟨?_, ?_, ?_, ?_, ?_⟩
  · intro out
    simp [answer, checks, accepts]
  · intro out
    simp [answer, names, accepts]
  · intro out
    simp [answer, names, accepts]
    tauto
  · intro e failed
    rcases failed with failed | failed
    all_goals simpa using accounts_check_record failed
  · intro e failed
    simpa using accounts_check_record failed

-- One field is there, one has a default and one is left out; one member is not declared.
def letterFields : List (Field (Validator Unit)) :=
  [⟨"to", .required, some (.leaf () (.primitive .string))⟩,
    ⟨"copies", .default (.string "1"), some (.leaf () (.primitive .integer))⟩,
    ⟨"note", .optional, none⟩]

def letter : Members Json := [("stamp", .null), ("to", .string "Ada")]

theorem check_letter :
    ∃ one e, (record () letterFields .keep false).check (.object letter) =
        .ok (.object [("to", .string "Ada"), ("copies", .whole one), ("stamp", .null)]) ∧
      (record () letterFields .reject false).check (.object letter) = .error e ∧
      e.Counts "record_invalid" [Failure.extraKey.under (.key "stamp")] := by
  obtain ⟨-, kept, -, -, rejected⟩ :=
    check_record () false letterFields letter (by decide) (by decide)
  have stamp : undeclared (letterFields.map (·.name)) letter = [("stamp", .null)] := by
    simp [undeclared, letterFields, letter]
  obtain ⟨one, own⟩ : ∃ one, (record () letterFields .ignore false).check (.object letter) =
      .ok (.object [("to", .string "Ada"), ("copies", .whole one)]) := by
    with_unfolding_all exact ⟨_, rfl⟩
  obtain ⟨e, failed⟩ : ∃ e, (record () letterFields .reject false).check (.object letter) =
      .error e := by
    with_unfolding_all exact ⟨_, rfl⟩
  refine ⟨one, e, (kept _).mpr ⟨_, own, by rw [stamp]; rfl⟩, failed, ?_⟩
  have sound : Check.refused (fieldChecks letterFields) letter = [] := by
    with_unfolding_all rfl
  have accounts := rejected e failed
  rw [sound, Check.extras, stamp] at accounts
  exact accounts.2

end Validator

end Conform
