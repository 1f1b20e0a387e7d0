import Conform.Proofs.Builtin
import Conform.Proofs.Leaves
import Conform.Proofs.Refusal

set_option autoImplicit false

/-!
Failures point at the data that is wrong. The path of each one leads through the value to the
part that was refused, or to the object where a member is missing.
-/

namespace Conform

namespace Json

def step? : Json → Segment → Option Json
  | array items, .index i => items[i]?
  | object members, .key name => members.lookup name
  | _, _ => none

-- The part of a value that a path leads to.
def at? : Json → Path → Option Json
  | value, [] => some value
  | value, s :: rest => (value.step? s).bind fun part => part.at? rest

theorem at?_cons_of_step {value part : Json} {s : Segment} (step : value.step? s = some part)
    (rest : Path) : value.at? (s :: rest) = part.at? rest := by
  rw [at?, step, Option.bind_some]

end Json

namespace Failure

-- Whether a path ends with the name of a member, present or not, of an object in the value.
def EndsAtMember (value : Json) (p : Path) (found : Option Json → Prop) : Prop :=
  ∃ front name members, p = front ++ [.key name] ∧ value.at? front = some (.object members) ∧
    found (members.lookup name)

structure PointsAt (e : Failure) (value : Json) (p : Path) : Prop where
  field : e.field? = p.field?
  missing : e.code = "required" → EndsAtMember value p (· = none)
  present : e.code ≠ "required" → ∃ part, value.at? p = some part ∧
    (e.code = "type_mismatch" → e.param? "actual" = some part.kind)
  extra : e.code = "extra_key" → EndsAtMember value p (·.isSome)

theorem EndsAtMember.cons {value part : Json} {s : Segment} {p : Path} {found : Option Json → Prop}
    (ends : EndsAtMember part p found) (step : value.step? s = some part) :
    EndsAtMember value (s :: p) found := by
  obtain ⟨front, name, members, rfl, object, holds⟩ := ends
  refine ⟨s :: front, name, members, rfl, ?_, holds⟩
  rw [Json.at?_cons_of_step step, object]

theorem PointsAt.under {e : Failure} {value part : Json} {s : Segment} {p : Path}
    (points : e.PointsAt part p) (step : value.step? s = some part) :
    (e.under s).PointsAt value (s :: p) := by
  obtain ⟨code, message, path, params, nested⟩ := e
  obtain rfl : path = p := Path.field?_injective points.field
  refine ⟨rfl, ?_, ?_, ?_⟩
  · exact fun required => (points.missing required).cons step
  · intro other
    obtain ⟨inner, found, actual⟩ := points.present other
    exact ⟨inner, (Json.at?_cons_of_step step path).trans found, actual⟩
  · exact fun extra => (points.extra extra).cons step

-- A failure of the value itself, for any reason but a member that is missing or not allowed.
theorem pointsAt_here {e : Failure} {value : Json} (code : String) (here : e.path = [])
    (same : e.code = code) (apart : code ≠ "required" ∧ code ≠ "extra_key")
    (actual : code = "type_mismatch" → e.param? "actual" = some value.kind) :
    e.PointsAt value [] where
  field := by rw [field?, here]
  missing required := absurd (same.symm.trans required) apart.1
  present _ := ⟨value, rfl, fun mismatch => actual (same.symm.trans mismatch)⟩
  extra extra := absurd (same.symm.trans extra) apart.2

theorem pointsAt_required {members : Members Json} {name : String}
    (absent : members.lookup name = none) :
    (required.under (.key name)).PointsAt (.object members) [.key name] where
  field := rfl
  missing _ := ⟨[], name, members, rfl, rfl, absent⟩
  present other := absurd rfl other
  extra extra := absurd extra (show "required" ≠ "extra_key" by decide)

theorem pointsAt_extraKey {members : Members Json} {name : String}
    (inside : name ∈ members.names) :
    (extraKey.under (.key name)).PointsAt (.object members) [.key name] := by
  obtain ⟨value, found⟩ : ∃ value, members.lookup name = some value := by
    rw [← Option.ne_none_iff_exists', ne_eq, Members.lookup_eq_none_iff, not_not]
    exact inside
  have step : (Json.object members).step? (.key name) = some value := found
  refine ⟨rfl, ?_, ?_, ?_⟩
  · exact fun required => absurd required (show "extra_key" ≠ "required" by decide)
  · intro _
    refine ⟨value, Json.at?_cons_of_step step [], ?_⟩
    exact fun mismatch => absurd mismatch (show "extra_key" ≠ "type_mismatch" by decide)
  · exact fun _ => ⟨[], name, members, rfl, rfl, by rw [found]; rfl⟩

theorem Gathers.pointsAt {e : Failure} {parts : List Failure} (gathers : e.Gathers parts)
    (value : Json) : e.PointsAt value [] := by
  have other (code : String)
      (apart : code ∉ ["record_invalid", "each_failed", "tuple_invalid", "any_of_failed"]) :
      e.code ≠ code := fun same => apart (same ▸ gathers.code)
  refine pointsAt_here e.code gathers.here rfl ⟨other _ (by decide), other _ (by decide)⟩ ?_
  exact fun mismatch => absurd mismatch (other _ (by decide))

-- Whether a failure and all those nested in it point into a value.
def Points (e : Failure) (value : Json) : Prop :=
  ∀ part ∈ e.flatten, ∃ p, part.PointsAt value p

theorem points_of_flat {e : Failure} {value : Json} {p : Path} (flat : e.nested = [])
    (points : e.PointsAt value p) : e.Points value := by
  intro part member
  rcases mem_flatten_iff.mp member with rfl | ⟨inner, inside, -⟩
  · exact ⟨p, points⟩
  · rw [flat] at inside
    cases inside

theorem points_typeMismatch (expected : String) (value : Json) :
    (typeMismatch expected value).Points value :=
  points_of_flat rfl (pointsAt_here "type_mismatch" rfl rfl (by decide) fun _ => rfl)

-- A failure that says nothing of the kind of the value or of its members.
theorem points_other {e : Failure} (code : String) (flat : e.path = [] ∧ e.nested = [])
    (same : e.code = code) (apart : code ∉ ["required", "extra_key", "type_mismatch"])
    (value : Json) : e.Points value := by
  simp only [List.mem_cons, List.not_mem_nil, or_false, not_or] at apart
  exact points_of_flat flat.2
    (pointsAt_here code flat.1 same ⟨apart.1, apart.2.1⟩ fun mismatch => absurd mismatch apart.2.2)

theorem Points.under {e : Failure} {value part : Json} {s : Segment} (points : e.Points part)
    (step : value.step? s = some part) : (e.under s).Points value := by
  intro other member
  rw [flatten_under] at member
  obtain ⟨inner, inside, rfl⟩ := List.mem_map.mp member
  obtain ⟨p, here⟩ := points inner inside
  exact ⟨s :: p, here.under step⟩

theorem Gathers.points {e : Failure} {parts : List Failure} {value : Json}
    (gathers : e.Gathers parts) (inside : ∀ part ∈ parts, part.Points value) : e.Points value := by
  intro part member
  rcases mem_flatten_iff.mp member with rfl | ⟨inner, nested, member⟩
  · exact ⟨[], gathers.pointsAt value⟩
  · rw [gathers.nested] at nested
    exact inside inner nested part member

theorem Sums.points {e : Failure} {parts : List Failure} {value : Json} (sums : e.Sums parts)
    (inside : ∀ part ∈ parts, part.Points value) : e.Points value := by
  rcases sums with member | ⟨-, gathers⟩
  · exact inside e member
  · exact gathers.points inside

end Failure

namespace Check

-- Whether whatever a check fails with points into the value that it was given.
def Points (check : Check) : Prop := ∀ value e, check value = .error e → e.Points value

theorem points_primitive (p : Primitive) : Points p.check := by
  intro value e refused
  rcases p.check_eq_error refused with ⟨expected, rfl⟩ | rfl | rfl
  · exact Failure.points_typeMismatch expected value
  · exact Failure.points_other "not_integer" ⟨rfl, rfl⟩ rfl (by decide) value
  · exact Failure.points_other "not_float" ⟨rfl, rfl⟩ rfl (by decide) value

theorem points_exact (expected : Json) : Points (exact expected) := by
  intro value e refused
  rw [exact] at refused
  split at refused <;> cases refused
  exact Failure.points_other "not_exact" ⟨rfl, rfl⟩ rfl (by decide) value

theorem points_each {inner : Check} (points : Points inner) (failFast : Bool) :
    Points (each inner failFast) := by
  intro value e refused
  rcases each_eq_error refused with rfl | ⟨items, parts, rfl, sums, from'⟩
  · exact Failure.points_typeMismatch "array" value
  · refine sums.points fun part member => ?_
    obtain ⟨i, item, f, found, failed, rfl⟩ := from' part member
    exact (points item f failed).under found

theorem points_tuple {checks : List Check} (points : ∀ check ∈ checks, Points check)
    (failFast : Bool) : Points (tuple checks failFast) := by
  intro value e refused
  rcases tuple_eq_error refused with rfl | ⟨items, rfl, -, rfl⟩ | ⟨items, parts, rfl, sums, from'⟩
  · exact Failure.points_typeMismatch "array" value
  · exact Failure.points_other "tuple_arity" ⟨rfl, rfl⟩ rfl (by decide) _
  · refine sums.points fun part member => ?_
    obtain ⟨i, check, item, f, declared, found, failed, rfl⟩ := from' part member
    exact (points check (List.mem_of_getElem? declared) item f failed).under found

theorem points_entry {field : Field Check} (supplied : field.default? = none)
    (points : ∀ check ∈ field.inner, Points check) {members : Members Json} {e : Failure}
    (failed : field.entry members = .error e) : e.Points (.object members) := by
  rcases Field.entry_eq_error failed with
    ⟨value, given, check, inner, part, refused, rfl⟩ | ⟨absent, -, rfl⟩
  · rw [Field.given, supplied, Option.or_none] at given
    exact (points check inner value part refused).under given
  · exact Failure.points_of_flat rfl (Failure.pointsAt_required absent)

theorem points_undeclared {extra : ExtraKeys} {members : Members Json} {member : String × Json}
    (inside : member ∈ members) {e : Failure} (failed : extra.entry member = .error e) :
    e.Points (.object members) := by
  obtain ⟨-, rfl⟩ := ExtraKeys.entry_eq_error failed
  exact Failure.points_of_flat rfl
    (Failure.pointsAt_extraKey (Members.mem_names_of_mem inside))

theorem points_record {fields : List (Field Check)}
    (points : ∀ field ∈ fields, field.default? = none ∧ ∀ check ∈ field.inner, Points check)
    (extra : ExtraKeys) (failFast : Bool) : Points (record fields extra failFast) := by
  intro value e refused
  rcases record_eq_error refused with rfl | ⟨members, parts, rfl, sums, from'⟩
  · exact Failure.points_typeMismatch "object" value
  · refine sums.points fun part member => ?_
    rcases from' part member with ⟨field, declared, failed⟩ | ⟨other, inside, failed⟩
    · obtain ⟨supplied, inner⟩ := points field declared
      exact points_entry supplied inner failed
    · exact points_undeclared inside failed

theorem points_anyOf {checks : List Check} (points : ∀ check ∈ checks, Points check) :
    Points (anyOf checks) := by
  intro value e refused
  obtain ⟨parts, gathers, from'⟩ := anyOf_eq_error refused
  refine gathers.points fun part member => ?_
  obtain ⟨check, inside, failed⟩ := from' part member
  exact points check inside value part failed

end Check

-- Leaves whose checks are known: no rules of the user's own.
def Leaf.IsBuiltin : Leaf → Prop
  | .primitive _ | .exact _ => True
  | .rule _ => False

namespace Validator

variable {ι : Type}

mutual

-- Whether all that is checked is part of the value: no defaults, no results of other checks.
def Straight : Validator ι → Prop
  | leaf _ l => l.IsBuiltin
  | record _ fields _ _ => StraightFields fields
  | each _ inner _ => inner.Straight
  | tuple _ items _ => StraightAll items
  | combinator _ mode children => mode = .anyOf ∧ StraightAll children

def StraightAll : List (Validator ι) → Prop
  | [] => True
  | v :: rest => v.Straight ∧ StraightAll rest

def StraightFields : List (Field (Validator ι)) → Prop
  | [] => True
  | ⟨_, absence, some v⟩ :: rest =>
    (∀ value, absence ≠ .default value) ∧ v.Straight ∧ StraightFields rest
  | ⟨_, absence, none⟩ :: rest => (∀ value, absence ≠ .default value) ∧ StraightFields rest

end

theorem default?_eq_none {α : Type} {field : Field α}
    (supplied : ∀ value, field.absence ≠ .default value) : field.default? = none := by
  rw [Field.default?]
  split
  next value same => exact absurd same (supplied value)
  next => rfl

theorem points_leaf {l : Leaf} (builtin : l.IsBuiltin) : l.check.Points := by
  cases l with
  | primitive p => exact Check.points_primitive p
  | exact expected => exact Check.points_exact expected
  | rule => cases builtin

mutual

theorem Straight.points : (v : Validator ι) → v.Straight → v.check.Points
  | leaf _ l, straight => points_leaf straight
  | record _ fields extra failFast, straight =>
    Check.points_record (StraightFields.points fields straight) extra failFast
  | each _ inner failFast, straight => Check.points_each (Straight.points inner straight) failFast
  | tuple _ items failFast, straight =>
    Check.points_tuple (StraightAll.points items straight) failFast
  | combinator _ _ children, straight => by
    obtain ⟨rfl, straight⟩ := straight
    exact Check.points_anyOf (StraightAll.points children straight)

theorem StraightAll.points : (vs : List (Validator ι)) → StraightAll vs →
    ∀ check ∈ checks vs, check.Points
  | [], _ => by simp [checks]
  | v :: rest, straight => by
    have first := Straight.points v straight.1
    have others := StraightAll.points rest straight.2
    exact List.forall_mem_cons.mpr ⟨first, others⟩

theorem StraightFields.points : (fields : List (Field (Validator ι))) → StraightFields fields →
    ∀ field ∈ fieldChecks fields, field.default? = none ∧ ∀ check ∈ field.inner, check.Points
  | [], _ => by simp [fieldChecks]
  | ⟨name, absence, some v⟩ :: rest, straight => by
    have first := Straight.points v straight.2.1
    have others := StraightFields.points rest straight.2.2
    refine List.forall_mem_cons.mpr ⟨⟨default?_eq_none straight.1, ?_⟩, others⟩
    rintro check ⟨⟩
    exact first
  | ⟨name, absence, none⟩ :: rest, straight => by
    have others := StraightFields.points rest straight.2
    refine List.forall_mem_cons.mpr ⟨⟨default?_eq_none straight.1, ?_⟩, others⟩
    rintro check ⟨⟩

end

theorem pointsAt_of_check {v : Validator ι} (straight : v.Straight) {value : Json} {e : Failure}
    (refused : v.check value = .error e) :
    ∀ part ∈ e.flatten, ∃ p, part.PointsAt value p :=
  Straight.points v straight value e refused

-- A list of orders or nothing. Alternatives blame the same value twice, at different depths.
def orders : Validator Unit :=
  .combinator () .anyOf
    [.each ()
      (.record ()
        [⟨"id", .required, some (.leaf () (.primitive .integer))⟩,
          ⟨"at", .optional, some (.tuple () [.leaf () (.primitive .float),
            .leaf () (.primitive .float)] true)⟩]
        .reject false) false,
      .leaf () (.primitive .null)]

def ordersRefused : Json :=
  .array
    [.object [("id", .bool true), ("at", .array [.null, .null])],
      .object [("a.b", .null)]]

theorem pointsAt_orders :
    ∃ e, orders.check ordersRefused = .error e ∧
      e.flatten.map (fun part => (part.code, part.field?)) =
        [("any_of_failed", none), ("each_failed", none), ("record_invalid", some "[0]"),
          ("type_mismatch", some "[0].id"), ("type_mismatch", some "[0].at[0]"),
          ("record_invalid", some "[1]"), ("required", some "[1].id"),
          ("extra_key", some "[1][\"a.b\"]"), ("type_mismatch", none)] ∧
      ∀ part ∈ e.flatten, ∃ p, part.PointsAt ordersRefused p := by
  have straight : orders.Straight := by
    simp [orders, Straight, StraightAll, StraightFields, Leaf.IsBuiltin]
  obtain ⟨e, refused, seen⟩ : ∃ e, orders.check ordersRefused = .error e ∧
      e.flatten.map (fun part => (part.code, part.field?)) =
        [("any_of_failed", none), ("each_failed", none), ("record_invalid", some "[0]"),
          ("type_mismatch", some "[0].id"), ("type_mismatch", some "[0].at[0]"),
          ("record_invalid", some "[1]"), ("required", some "[1].id"),
          ("extra_key", some "[1][\"a.b\"]"), ("type_mismatch", none)] := by
    with_unfolding_all exact ⟨_, rfl, rfl⟩
  exact ⟨e, refused, seen, pointsAt_of_check straight refused⟩

end Validator

end Conform
