import Conform.Failure.Views
import Conform.Proofs.Related

set_option autoImplicit false

/-!
Where a failure begins, and containers that stop there. A container that stops at the first
failure accepts what one that gathers them all accepts, and its failure is the one where the
gathered failure begins.
-/

namespace Conform

namespace Failure

mutual

-- Goes to the first part as long as there are parts.
def innermost : Failure → Failure
  | ⟨code, message, path, params, nested⟩ =>
    (innermostOfFirst nested).getD ⟨code, message, path, params, nested⟩

def innermostOfFirst : List Failure → Option Failure
  | [] => none
  | e :: _ => some e.innermost

end

theorem innermost_of_flat {e : Failure} (flat : e.nested = []) : e.innermost = e := by
  obtain ⟨code, message, path, params, nested⟩ := e
  obtain rfl : nested = [] := flat
  rfl

theorem innermost_gathered (code : String) (message : Nat → String) (e : Failure)
    (rest : List Failure) : (gathered code message (e :: rest)).innermost = e.innermost := rfl

mutual

theorem nested_innermost : (e : Failure) → e.innermost.nested = []
  | ⟨_, _, _, _, nested⟩ => by
    rw [innermost]
    cases found : innermostOfFirst nested with
    | none =>
      cases nested with
      | nil => rfl
      | cons e rest => cases found
    | some e => exact nested_innermostOfFirst nested e found

theorem nested_innermostOfFirst :
    (parts : List Failure) → ∀ e ∈ innermostOfFirst parts, e.nested = []
  | [], _, found => by cases found
  | e :: _, _, found => by
    obtain rfl := Option.some.inj found
    exact nested_innermost e

end

mutual

theorem innermost_under (s : Segment) : (e : Failure) →
    (e.under s).innermost = e.innermost.under s
  | ⟨code, message, path, params, nested⟩ => by
    rw [under, innermost, innermost, innermostOfFirst_allUnder s nested]
    cases innermostOfFirst nested <;> rfl

theorem innermostOfFirst_allUnder (s : Segment) : (parts : List Failure) →
    innermostOfFirst (allUnder s parts) = (innermostOfFirst parts).map (under s)
  | [] => rfl
  | e :: _ => by rw [allUnder, innermostOfFirst, innermostOfFirst, innermost_under s e, Option.map]

end

theorem count_of_flat {e : Failure} (flat : e.nested = []) : e.count = 1 := by
  obtain ⟨code, message, path, params, nested⟩ := e
  obtain rfl : nested = [] := flat
  rfl

end Failure

-- The second failure is where the first one begins, as far as failures are compared at all.
def Begins (exact : Prop) (e f : Failure) : Prop := exact → f = e.innermost

variable {exact : Prop}

theorem Begins.of_flat {e : Failure} (flat : exact → e.nested = []) : Begins exact e e :=
  fun here => (Failure.innermost_of_flat (flat here)).symm

theorem Begins.under (place : Segment) (e f : Failure) (begins : Begins exact e f) :
    Begins exact (e.under place) (f.under place) := by
  intro here
  rw [begins here, Failure.innermost_under]

namespace Outcome

variable {α : Type}

theorem settle_begins (code : String) (message : Nat → String) {outcomes others : List (Outcome α)}
    (related : List.Forall₂ (Rel (Begins exact) Eq) outcomes others) :
    Rel (Begins exact) Eq (settle false (Failure.gathered code message) outcomes)
      (settle true (Failure.gathered code message) others) := by
  have failed := failures_forall₂ related
  have taken := values_forall₂ related
  rw [List.forall₂_eq_eq_eq] at taken
  rw [settle, settle]
  generalize failures outcomes = es at failed ⊢
  generalize failures others = fs at failed ⊢
  cases failed with
  | nil => exact .ok taken
  | cons first _ =>
    refine .error fun here => ?_
    simp only [if_true, Bool.false_eq_true, if_false, Failure.innermost_gathered]
    exact first here

end Outcome

namespace Check

open Outcome

-- Both give the same result, or both refuse and the second failure begins the first.
abbrev Shortens (exact : Prop) : Check → Check → Prop := Check.Rel (Begins exact) Eq

theorem shortens_self {check : Check}
    (flat : exact → ∀ value e, check value = .error e → e.nested = []) :
    Shortens exact check check := by
  rintro value _ rfl
  cases result : check value with
  | ok out => exact .ok rfl
  | error e => exact .error (.of_flat fun here => flat here value e result)

theorem settle_indexed_begins (code : String) (message : Nat → String)
    {outcomes others : List (Outcome Json)}
    (related : List.Forall₂ (Outcome.Rel (Begins exact) Eq) outcomes others) :
    Outcome.Rel (Begins exact) Eq
      ((settle false (Failure.gathered code message) (indexed outcomes)).map Json.array)
      ((settle true (Failure.gathered code message) (indexed others)).map Json.array) := by
  have settled := settle_begins code message (indexed_forall₂ Begins.under related)
  exact settled.map fun _ _ _ same => congrArg Json.array same

theorem each_shortens {full first : Check} (shortens : Shortens exact full first) :
    Shortens exact (each full false) (each first true) := by
  rintro value _ rfl
  cases value with
  | array items =>
    have pointwise : List.Forall₂ (Outcome.Rel (Begins exact) Eq) (items.map full)
        (items.map first) := by
      rw [List.forall₂_map_left_iff, List.forall₂_map_right_iff, List.forall₂_same]
      exact fun item _ => shortens item item rfl
    exact settle_indexed_begins _ _ pointwise
  | _ => exact .error fun _ => rfl

theorem tuple_shortens {fulls firsts : List Check}
    (shorten : List.Forall₂ (Shortens exact) fulls firsts) :
    Shortens exact (tuple fulls false) (tuple firsts true) := by
  rintro value _ rfl
  cases value with
  | array items =>
    have alike : List.Forall₂ Eq items items := List.forall₂_same.mpr fun _ _ => rfl
    rw [tuple, tuple, shorten.length_eq]
    split
    · exact settle_indexed_begins _ _ (zipWith_forall₂ shorten alike)
    · exact .error fun _ => rfl
  | _ => exact .error fun _ => rfl

theorem paired_eq {a b : Option (String × Json)} (paired : Option.Rel (Members.Paired Eq) a b) :
    a = b := by
  cases paired with
  | none => rfl
  | some same => exact congrArg some (Prod.ext same.1 same.2)

theorem record_shortens {fulls firsts : List (Field Check)}
    (related : List.Forall₂ (Field.Rel (Begins exact) Eq) fulls firsts) (extra : ExtraKeys) :
    Shortens exact (record fulls extra false) (record firsts extra true) := by
  rintro value _ rfl
  cases value with
  | object members =>
    have names : fulls.map (·.name) = firsts.map (·.name) := by
      rw [← List.forall₂_eq_eq_eq]
      exact List.rel_map (fun _ _ same => Field.Rel.name same) related
    have found (name : String) : Option.Rel Eq (members.lookup name) (members.lookup name) := by
      cases members.lookup name with
      | none => exact .none
      | some value => exact .some rfl
    have declared : List.Forall₂ (Outcome.Rel (Begins exact) Eq)
        (fulls.map (·.entry members)) (firsts.map (·.entry members)) := by
      refine List.rel_map (fun full first same => ?_) related
      have entries := Field.entry_rel same Begins.under (fun _ _ => rfl) found
      exact entries.imp fun _ _ => paired_eq
    have others : List.Forall₂ (Outcome.Rel (Begins exact) Eq)
        ((undeclared (fulls.map (·.name)) members).map extra.entry)
        ((undeclared (firsts.map (·.name)) members).map extra.entry) := by
      rw [names, List.forall₂_same]
      rintro _ kept
      obtain ⟨member, -, rfl⟩ := List.mem_map.mp kept
      cases extra with
      | reject => exact .error fun _ => rfl
      | ignore | keep => exact .ok rfl
    have settled := settle_begins "record_invalid" (fun n => s!"{n} field(s) failed validation")
      (List.rel_append declared others)
    exact settled.map fun _ _ _ same => by rw [same]
  | _ => exact .error fun _ => rfl

end Check

end Conform
