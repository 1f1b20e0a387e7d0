import Conform.Proofs.Leaves
import Conform.Proofs.Related

set_option autoImplicit false

/-!
What is reported where no failure ends a check: the failures of all the parts, each placed under
the step to its part. No two parts have one step, so no two failures have one path.
-/

namespace Conform

namespace Failure

-- The failures of the parts of a value, seen from the value.
def placed (groups : List (Segment × List Failure)) : List Failure :=
  groups.flatMap fun (s, parts) => parts.map (under s)

theorem mem_placed {groups : List (Segment × List Failure)} {leaf : Failure} :
    leaf ∈ placed groups ↔
      ∃ group ∈ groups, ∃ inner ∈ group.2, inner.under group.1 = leaf := by
  simp only [placed, List.mem_flatMap, List.mem_map]

theorem nodup_placed {groups : List (Segment × List Failure)}
    (steps : (groups.map (·.1)).Nodup)
    (inside : ∀ group ∈ groups, (group.2.map (·.path)).Nodup) :
    ((placed groups).map (·.path)).Nodup := by
  rw [placed, List.map_flatMap, List.nodup_flatMap]
  constructor
  · intro group member
    have extended : (group.2.map (under group.1)).map (·.path) =
        (group.2.map (·.path)).map (group.1 :: ·) := by
      simp only [List.map_map, Function.comp_def, path_under]
    rw [extended]
    exact (inside group member).map fun _ _ same => (List.cons.inj same).2
  · rw [List.Nodup, List.pairwise_map] at steps
    refine steps.imp fun {a b} apart p left right => ?_
    simp only [List.map_map, List.mem_map, Function.comp_apply, path_under] at left right
    obtain ⟨e, -, rfl⟩ := left
    obtain ⟨f, -, same⟩ := right
    exact apart (List.cons.inj same).1.symm

end Failure

namespace Outcome

variable {α β : Type}

def leaves : Outcome α → List Failure
  | .ok _ => []
  | .error e => e.leaves

@[simp] theorem leaves_ok (value : α) : leaves (.ok value) = [] := rfl

@[simp] theorem leaves_error (e : Failure) : leaves (.error e : Outcome α) = e.leaves := rfl

@[simp] theorem leaves_map (outcome : Outcome α) (f : α → β) :
    leaves (outcome.map f) = leaves outcome := by
  cases outcome <;> rfl

theorem leaves_under (outcome : Outcome α) (s : Segment) :
    leaves (outcome.mapError (Failure.under s)) = (leaves outcome).map (Failure.under s) := by
  cases outcome with
  | ok value => rfl
  | error e => exact e.leaves_under s

theorem flatMap_leaves (outcomes : List (Outcome α)) :
    outcomes.flatMap leaves = (failures outcomes).flatMap Failure.leaves := by
  induction outcomes with
  | nil => rfl
  | cons outcome rest ih => cases outcome <;> simp [failures, ih]

theorem leaves_settle (code : String) (message : Nat → String) (outcomes : List (Outcome α)) :
    leaves (settle false (Failure.gathered code message) outcomes) = outcomes.flatMap leaves := by
  rw [flatMap_leaves, settle]
  cases failures outcomes with
  | nil => rfl
  | cons first rest => exact Failure.leaves_of_nested (List.cons_ne_nil first rest)

theorem leaves_indexed (outcomes : List (Outcome α)) :
    (indexed outcomes).flatMap leaves =
      Failure.placed (outcomes.mapIdx fun i outcome => (.index i, leaves outcome)) := by
  have place (i : Nat) (outcome : Outcome α) :
      leaves (outcome.mapError (Failure.under (.index i))) =
        (leaves outcome).map (Failure.under (.index i)) := leaves_under outcome _
  simp only [indexed, Failure.placed, List.mapIdx_eq_zipIdx_map, List.flatMap_map, place]

end Outcome

-- What is wrong with the field of an object, seen from the field.
def Field.findings (field : Field Check) (members : Members Json) : List Failure :=
  match field.given members with
  | some value =>
    match field.inner with
    | some check => Outcome.leaves (check value)
    | none => []
  | none => if field.isRequired then [.required] else []

theorem Field.leaves_entry (field : Field Check) (members : Members Json) :
    Outcome.leaves (field.entry members) =
      (field.findings members).map (Failure.under (.key field.name)) := by
  have accept (value : Json) : Outcome.leaves (field.accept value) =
      (match field.inner with
        | some check => Outcome.leaves (check value)
        | none => []).map (Failure.under (.key field.name)) := by
    rw [Field.accept]
    cases field.inner with
    | none => rfl
    | some check => exact Outcome.leaves_under (check value) _
  rw [Field.entry, Outcome.leaves_map, extract_eq, findings]
  cases field.given members with
  | some value => rw [Outcome.leaves_map, accept]
  | none => cases field.isRequired <;> rfl

def ExtraKeys.findings (extra : ExtraKeys) : List Failure :=
  if extra = .reject then [.extraKey] else []

theorem ExtraKeys.leaves_entry (extra : ExtraKeys) (member : String × Json) :
    Outcome.leaves (extra.entry member) =
      extra.findings.map (Failure.under (.key member.1)) := by
  cases extra <;> rfl

namespace Check

open Outcome

theorem leaves_each (inner : Check) (items : List Json) :
    leaves (each inner false (.array items)) =
      Failure.placed ((items.map inner).mapIdx fun i outcome => (.index i, leaves outcome)) := by
  rw [each, leaves_map, leaves_settle, leaves_indexed]

theorem leaves_tuple {checks : List Check} {items : List Json}
    (fits : items.length = checks.length) :
    leaves (tuple checks false (.array items)) =
      Failure.placed ((List.zipWith (fun check value => check value) checks items).mapIdx
        fun i outcome => (.index i, leaves outcome)) := by
  rw [tuple, if_pos fits, leaves_map, leaves_settle, leaves_indexed]

theorem leaves_record (fields : List (Field Check)) (extra : ExtraKeys) (members : Members Json) :
    leaves (record fields extra false (.object members)) =
      Failure.placed (fields.map (fun field => (.key field.name, field.findings members)) ++
        (undeclared (fields.map (·.name)) members).map
          fun member => (.key member.1, extra.findings)) := by
  rw [record, leaves_map, leaves_settle, Failure.placed, List.flatMap_append, List.flatMap_append]
  simp only [List.flatMap_map, Field.leaves_entry, ExtraKeys.leaves_entry]

end Check

namespace Failure

/-- Failures without parts, one for each place where something is wrong. -/
structure Lists (misfit : Path → Failure → Prop) (leaves : List Failure) : Prop where
  flat : ∀ leaf ∈ leaves, leaf.nested = []
  distinct : (leaves.map (·.path)).Nodup
  alone : ∀ leaf ∈ leaves, leaf.path = [] → leaves = [leaf]
  mem_iff : ∀ leaf, leaf ∈ leaves ↔ ∃ p flaw, misfit p flaw ∧ leaf = { flaw with path := p }

theorem Lists.congr {misfit other : Path → Failure → Prop} {leaves : List Failure}
    (lists : Lists misfit leaves) (same : ∀ p flaw, other p flaw ↔ misfit p flaw) :
    Lists other leaves where
  flat := lists.flat
  distinct := lists.distinct
  alone := lists.alone
  mem_iff leaf := by simp only [lists.mem_iff leaf, same]

theorem lists_nil : Lists (fun _ _ => False) [] where
  flat := by simp
  distinct := List.nodup_nil
  alone := by simp
  mem_iff := by simp

theorem lists_single {e : Failure} (flat : e.path = [] ∧ e.nested = []) :
    Lists (fun p flaw => p = [] ∧ flaw = e) [e] where
  flat := by simp [flat.2]
  distinct := List.nodup_singleton _
  alone := by simp
  mem_iff leaf := by
    have here : e = { e with path := [] } := by
      obtain ⟨code, message, path, params, nested⟩ := e
      obtain rfl : path = [] := flat.1
      rfl
    rw [List.mem_singleton]
    constructor
    · rintro rfl
      exact ⟨[], leaf, ⟨rfl, rfl⟩, here⟩
    · rintro ⟨p, flaw, ⟨rfl, rfl⟩, rfl⟩
      exact here.symm

theorem lists_check {check : Check} {value : Json}
    (flat : ∀ e, check value = .error e → e.path = [] ∧ e.nested = []) :
    Lists (fun p flaw => p = [] ∧ check value = .error flaw) (Outcome.leaves (check value)) := by
  cases outcome : check value with
  | ok out => exact lists_nil.congr (by simp)
  | error e =>
    have here := flat e outcome
    rw [Outcome.leaves_error, leaves_of_flat here.2]
    exact (lists_single here).congr (by simp [eq_comm])

-- What each part lists, the value lists under the step to the part, if no misfit is elsewhere.
theorem lists_placed {misfit : Path → Failure → Prop} {groups : List (Segment × List Failure)}
    (steps : (groups.map (·.1)).Nodup)
    (inside : ∀ group ∈ groups, Lists (fun rest flaw => misfit (group.1 :: rest) flaw) group.2)
    (covered : ∀ p flaw, misfit p flaw → ∃ group ∈ groups, ∃ rest, p = group.1 :: rest) :
    Lists misfit (placed groups) := by
  have extended {group : Segment × List Failure} (member : group ∈ groups) {inner : Failure}
      (listed : inner ∈ group.2) :
      inner.under group.1 = { inner with path := group.1 :: inner.path } :=
    under_of_flat ((inside group member).flat inner listed) group.1
  refine ⟨?_, ?_, ?_, ?_⟩
  · intro leaf reported
    obtain ⟨group, member, inner, listed, rfl⟩ := mem_placed.mp reported
    rw [extended member listed]
    exact (inside group member).flat inner listed
  · exact nodup_placed steps fun group member => (inside group member).distinct
  -- the step in front leaves no failure of the value itself
  · intro leaf reported here
    obtain ⟨group, -, inner, -, rfl⟩ := mem_placed.mp reported
    rw [path_under] at here
    cases here
  · intro leaf
    rw [mem_placed]
    constructor
    · rintro ⟨group, member, inner, listed, rfl⟩
      obtain ⟨rest, flaw, found, rfl⟩ := ((inside group member).mem_iff inner).mp listed
      exact ⟨group.1 :: rest, flaw, found, extended member listed⟩
    · rintro ⟨p, flaw, found, rfl⟩
      obtain ⟨group, member, rest, rfl⟩ := covered p flaw found
      have listed := ((inside group member).mem_iff { flaw with path := rest }).mpr
        ⟨rest, flaw, found, rfl⟩
      exact ⟨group, member, _, listed, extended member listed⟩

theorem lists_indexed {misfit : Path → Failure → Prop} {outcomes : List (Outcome Json)}
    (inside : ∀ i outcome, outcomes[i]? = some outcome →
      Lists (fun rest flaw => misfit (.index i :: rest) flaw) (Outcome.leaves outcome))
    (covered : ∀ p flaw, misfit p flaw → ∃ i < outcomes.length, ∃ rest, p = .index i :: rest) :
    Lists misfit
      (placed (outcomes.mapIdx fun i outcome => (.index i, Outcome.leaves outcome))) := by
  apply lists_placed
  · have steps : (outcomes.mapIdx fun i outcome => (Segment.index i, Outcome.leaves outcome)).map
        (·.1) = (List.range' 0 outcomes.length).map .index := by
      rw [List.mapIdx_eq_zipIdx_map, List.map_map, ← List.zipIdx_map_snd, List.map_map]
      rfl
    rw [steps]
    exact List.Nodup.map (fun _ _ => Segment.index.inj) List.nodup_range'
  · intro group member
    obtain ⟨i, bound, rfl⟩ := List.mem_mapIdx.mp member
    exact inside i outcomes[i] (List.getElem?_eq_getElem bound)
  · intro p flaw found
    obtain ⟨i, bound, rest, rfl⟩ := covered p flaw found
    exact ⟨_, List.mem_mapIdx.mpr ⟨i, bound, rfl⟩, rest, rfl⟩

end Failure

end Conform
