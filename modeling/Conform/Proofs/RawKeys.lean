import Conform.Proofs.Keys
import Conform.Proofs.Members

set_option autoImplicit false

/-!
Keys as loose JSON. A loose key declares a field exactly if it has one of three shapes, and then
the field that a typed key of the same name and absence declares.
-/

namespace Conform

namespace KeySpec

-- The key with this name and no validator.
def typed (name : String) : Absence → KeySpec
  | .required => required name
  | .default value => default name value
  | .optional => optional name

theorem resolve_typed (name : String) (absence : Absence) :
    (typed name absence).resolve = bare name absence := by
  cases absence <;> rfl

-- What a default and a flag say of absence where they do not exclude each other.
def stated : Option Json → Option Bool → Absence
  | some value, _ => .default value
  | none, some true => .optional
  | none, _ => .required

def keyMembers (name : String) (fallback : Option Json) (flag : Option Bool) : Members Json :=
  ("name", .string name) ::
    (fallback.toList.map ("default", ·) ++ flag.toList.map fun b => ("optional", .bool b))

inductive Shape : Json → String → Absence → Prop
  | text (name : String) : Shape (.string name) name .required
  | pair (name : String) (fallback : Json) :
      Shape (.array [.string name, fallback]) name (.default fallback)
  | object {given : Members Json} {name : String} {fallback : Option Json} {flag : Option Bool}
      (order : given.Perm (keyMembers name fallback flag))
      (compatible : fallback.isSome → flag ≠ some true) :
      Shape (.object given) name (stated fallback flag)

theorem lookup_keyMembers (name : String) (fallback : Option Json) (flag : Option Bool)
    (other : String) :
    (keyMembers name fallback flag).lookup other =
      if other = "name" then some (.string name)
      else if other = "default" then fallback
      else if other = "optional" then flag.map .bool
      else none := by
  cases fallback <;> cases flag <;> simp [keyMembers, Members.lookup_cons]
  grind

theorem nodup_keyMembers (name : String) (fallback : Option Json) (flag : Option Bool) :
    (keyMembers name fallback flag).names.Nodup := by
  cases fallback <;> cases flag <;> simp [keyMembers]

theorem known_of_mem_keyMembers {name : String} {fallback : Option Json} {flag : Option Bool}
    {member : String × Json} (inside : member ∈ keyMembers name fallback flag) :
    member.1 ∈ ["name", "default", "optional"] := by
  have apart : (keyMembers name fallback flag).lookup member.1 ≠ none := by
    rw [Ne, Members.lookup_eq_none_iff, not_not]
    exact Members.mem_names_of_mem inside
  rw [lookup_keyMembers] at apart
  grind

theorem absence?_eq_some_iff {fallback said : Option Json} {absence : Absence} :
    absence? fallback said = some absence ↔ ∃ flag : Option Bool, said = flag.map .bool ∧
      (fallback.isSome → flag ≠ some true) ∧ stated fallback flag = absence := by
  constructor
  · intro read
    rw [absence?.eq_def] at read
    split at read <;> cases read
    next value => exact ⟨none, rfl, by simp, rfl⟩
    next value => exact ⟨some false, rfl, by simp, rfl⟩
    next => exact ⟨some true, rfl, by simp, rfl⟩
    next => exact ⟨none, rfl, by simp, rfl⟩
    next => exact ⟨some false, rfl, by simp, rfl⟩
  · rintro ⟨flag, rfl, compatible, rfl⟩
    rcases fallback with - | value <;> rcases flag with - | - | - <;>
      simp [absence?, stated] at compatible ⊢

theorem ofRaw_object {given : Members Json} {name : String} {absence : Absence}
    (known : ∀ member ∈ given, member.1 ∈ ["name", "default", "optional"])
    (named : given.lookup "name" = some (.string name))
    (said : absence? (given.lookup "default") (given.lookup "optional") = some absence) :
    ofRaw (.object given) = bare name absence := by
  have known : (given.any fun member => member.1 ∉ ["name", "default", "optional"]) = false := by
    simpa only [List.any_eq_false, decide_eq_true_eq, not_not] using known
  simp only [ofRaw, named, said, known]
  rfl

theorem Shape.ofRaw_eq {value : Json} {name : String} {absence : Absence}
    (shape : Shape value name absence) : ofRaw value = bare name absence := by
  cases shape with
  | text | pair => rfl
  | @object given _ fallback flag order compatible =>
    have found (other : String) :
        given.lookup other = (keyMembers name fallback flag).lookup other :=
      (Members.lookup_perm (nodup_keyMembers name fallback flag) order.symm other).symm
    apply ofRaw_object
    · exact fun member inside => known_of_mem_keyMembers (order.mem_iff.mp inside)
    · simp [found, lookup_keyMembers]
    · have said : absence? fallback (flag.map .bool) = some (stated fallback flag) :=
        absence?_eq_some_iff.mpr ⟨flag, rfl, compatible, rfl⟩
      simpa [found, lookup_keyMembers] using said

theorem shape_object {given : Members Json} {name : String} {absence : Absence}
    (distinct : given.names.Nodup)
    (known : ∀ member ∈ given, member.1 ∈ ["name", "default", "optional"])
    (named : given.lookup "name" = some (.string name))
    (said : absence? (given.lookup "default") (given.lookup "optional") = some absence) :
    Shape (.object given) name absence := by
  obtain ⟨flag, flagged, compatible, rfl⟩ := absence?_eq_some_iff.mp said
  refine .object ?_ compatible
  refine Members.perm_of_lookup distinct (nodup_keyMembers _ _ _) fun other => ?_
  rw [lookup_keyMembers, ← flagged]
  by_cases declared : other ∈ ["name", "default", "optional"]
  · grind
  · have absent : given.lookup other = none := by
      rw [Members.lookup_eq_none_iff]
      intro inside
      obtain ⟨member, found, rfl⟩ := List.mem_map.mp inside
      exact declared (known member found)
    grind

theorem shape_of_ofRaw {value : Json} {field : Field (Validator Handle)}
    (distinct : ∀ given ∈ value.members?, given.names.Nodup) (read : ofRaw value = .ok field) :
    Shape value field.name field.absence := by
  obtain ⟨-, -, ⟨rfl, said⟩ | ⟨fallback, rfl, said⟩ | ⟨given, rfl, known, named, said⟩⟩ :=
    ofRaw_eq_ok read
  · exact said ▸ .text field.name
  · exact said ▸ .pair field.name fallback
  · exact shape_object (distinct given rfl) known named said

-- The name that is told in advance is the one that is declared.
theorem States.name?_eq {key : KeySpec} {name : String} {absence : Absence}
    (states : States key name absence) : key.name? = some name := by
  cases states with
  | bareObject named | defaultObject named | optionalObject named => simp [name?, named]
  | _ => rfl

end KeySpec

namespace Compiler

open KeySpec

theorem compileKey_eq_ok_iff {key : KeySpec} {field : Field (Validator Handle)} :
    compileKey key = .ok field ↔ key.resolve = .ok field := by
  rw [compileKey]
  cases key.resolve <;> simp [Except.mapError]

theorem compileKey_raw_eq_ok_iff {value : Json}
    (distinct : ∀ given ∈ value.members?, given.names.Nodup) {field : Field (Validator Handle)} :
    compileKey (.raw value) = .ok field ↔
      Shape value field.name field.absence ∧ field.name ≠ "" ∧ field.inner = none := by
  rw [compileKey_eq_ok_iff, resolve]
  constructor
  · intro read
    obtain ⟨named, bare, -⟩ := ofRaw_eq_ok read
    exact ⟨shape_of_ofRaw distinct read, named, bare⟩
  · rintro ⟨shape, named, bare⟩
    obtain ⟨name, absence, inner⟩ := field
    obtain rfl : inner = none := bare
    rw [shape.ofRaw_eq, bare_eq_ok_iff]
    exact ⟨named, rfl⟩

-- The order of the members does not matter to the shape, so neither does it to the field.
theorem compileKey_raw_perm {given other : Members Json} (distinct : given.names.Nodup)
    (order : given.Perm other) {field : Field (Validator Handle)} :
    compileKey (.raw (.object given)) = .ok field ↔
      compileKey (.raw (.object other)) = .ok field := by
  have shape {xs ys : Members Json} (order : xs.Perm ys) {name : String} {absence : Absence}
      (shape : Shape (.object xs) name absence) : Shape (.object ys) name absence := by
    cases shape with
    | object inside compatible => exact .object (order.symm.trans inside) compatible
  have distinct' : other.names.Nodup := (order.map _).nodup_iff.mp distinct
  rw [compileKey_raw_eq_ok_iff (by simpa [Json.members?] using distinct),
    compileKey_raw_eq_ok_iff (by simpa [Json.members?] using distinct')]
  exact and_congr_left' ⟨shape order, shape order.symm⟩

/--
A loose key declares a field exactly if it has one of the shapes and a name that is not empty. The
field is that of a typed key and does not depend on the order of the members. All other loose keys
are refused at their own place, and every key tells the name of its field in advance.
-/
theorem compileKey_raw {value : Json} (distinct : ∀ given ∈ value.members?, given.names.Nodup) :
    (∀ field, compileKey (.raw value) = .ok field ↔
      Shape value field.name field.absence ∧ field.name ≠ "" ∧ field.inner = none) ∧
    (∀ name absence, Shape value name absence →
      compileKey (.raw value) = compileKey (typed name absence)) ∧
    (∀ given other : Members Json, value = .object given → given.Perm other → ∀ field,
      compileKey (.raw value) = .ok field ↔ compileKey (.raw (.object other)) = .ok field) ∧
    ((∀ name absence, Shape value name absence → name = "") →
      ∃ fault, fault.kind = .unrecognizedKey ∧ compileKey (.raw value) = .error ⟨[], fault⟩ ∧
        ∀ trail position seen rest, declared trail position seen (.raw value :: rest) =
          .error ⟨trail ++ [(KeySpec.raw value).step position], fault⟩) ∧
    ∀ key field, compileKey key = .ok field → key.name? = some field.name ∧ field.name ≠ "" := by
  refine ⟨fun field => compileKey_raw_eq_ok_iff distinct, ?_, ?_, ?_, ?_⟩
  · intro name absence shape
    rw [compileKey, compileKey, resolve_typed, resolve, shape.ofRaw_eq]
  · rintro given other rfl order field
    exact compileKey_raw_perm (distinct given rfl) order
  · intro shapeless
    cases read : ofRaw value with
    | ok field =>
      obtain ⟨named, -⟩ := ofRaw_eq_ok read
      exact absurd (shapeless _ _ (shape_of_ofRaw distinct read)) named
    | error fault =>
      have refused : (KeySpec.raw value).resolve = .error fault := read
      refine ⟨fault, kind_of_refused refused, ?_, fun trail position seen rest => ?_⟩
      · rw [compileKey, refused]
        rfl
      · rw [declared, refused]
  · intro key field made
    obtain ⟨states, named⟩ := states_of_resolve (compileKey_eq_ok_iff.mp made)
    exact ⟨states.name?_eq, named⟩

-- A default of null beside a flag that says nothing, in front of the name.
def looseKey : Json :=
  .object [("optional", .bool false), ("default", .null), ("name", .string "x")]

theorem compileKey_looseKey :
    (∀ given ∈ looseKey.members?, given.names.Nodup) ∧ Shape looseKey "x" (.default .null) ∧
      compileKey (.raw looseKey) = compileKey (typed "x" (.default .null)) ∧
      compileKey (.raw looseKey) = .ok ⟨"x", .default .null, none⟩ ∧
      (KeySpec.raw looseKey).name? = some "x" := by
  have distinct : ∀ given ∈ looseKey.members?, given.names.Nodup := by
    simp [looseKey, Json.members?]
  have shape : Shape looseKey "x" (.default .null) :=
    .object (List.reverse_perm (keyMembers "x" (some .null) (some false))) (by decide)
  obtain ⟨made, same, -, -, told⟩ := compileKey_raw distinct
  have compiled : compileKey (.raw looseKey) = .ok ⟨"x", .default .null, none⟩ :=
    (made ⟨"x", .default .null, none⟩).mpr ⟨shape, by decide, rfl⟩
  exact ⟨distinct, shape, same _ _ shape, compiled, (told _ _ compiled).1⟩

end Compiler

end Conform
