import Conform.Failure.Views
import Conform.Proofs.Accept

set_option autoImplicit false

/-!
A default that is written into an object is a default that is left out: whoever spells some of
them out, in an object and in the objects within it, gets the same answer.
-/

namespace Conform

-- The last list has the members of the other two, those of each in their order.
inductive Interleaved {α : Type} : List α → List α → List α → Prop
  | nil : Interleaved [] [] []
  | left {x : α} {xs ys all : List α} : Interleaved xs ys all → Interleaved (x :: xs) ys (x :: all)
  | right {y : α} {xs ys all : List α} : Interleaved xs ys all → Interleaved xs (y :: ys) (y :: all)

theorem Interleaved.filter_left {α : Type} {xs ys all : List α} {p : α → Bool}
    (mixed : Interleaved xs ys all) (dropped : ∀ y ∈ ys, p y = false) :
    all.filter p = xs.filter p := by
  induction mixed with
  | nil => rfl
  | left _ ih => rw [List.filter_cons, List.filter_cons, ih dropped]
  | @right y _ ys _ _ ih =>
    have here : p y = false := dropped y (by simp)
    have later : ∀ y ∈ ys, p y = false := fun y member => dropped y (by simp [member])
    simp [here, ih later]

theorem Interleaved.lookup {xs ys all : Members Json} (mixed : Interleaved xs ys all)
    (apart : ∀ name ∈ ys.names, name ∉ xs.names) (name : String) :
    all.lookup name = (xs.lookup name).or (ys.lookup name) := by
  induction mixed with
  | nil => rfl
  | @left member xs ys _ _ ih =>
    have others : ∀ name ∈ Members.names ys, name ∉ Members.names xs := by
      intro name inside here
      exact apart name inside (by simp [here])
    rw [Members.lookup_cons, Members.lookup_cons, ih others]
    split <;> rfl
  | @right member xs ys _ _ ih =>
    have others : ∀ name ∈ Members.names ys, name ∉ Members.names xs := by
      intro name inside
      exact apart name (by simp [inside])
    rw [Members.lookup_cons, Members.lookup_cons, ih others]
    by_cases here : name = member.1
    · have absent : List.lookup name xs = none :=
        Members.lookup_eq_none_iff.mpr (apart name (by simp [here]))
      simp [here ▸ absent, here]
    · simp [here]

namespace Field

-- All that a field does with an object is to accept the value that it is given, or not to.
theorem entry_congr {field : Field Check} {xs ys : Members Json}
    (same : (field.given ys).map field.accept = (field.given xs).map field.accept) :
    field.entry ys = field.entry xs := by
  rw [Field.entry, Field.entry, extract_eq, extract_eq]
  cases here : field.given ys <;> cases there : field.given xs
  all_goals simp_all

end Field

-- Members that a record would take from its defaults, as the object does not have them.
def Omits {α : Type} (fields : List (Field α)) (members written : Members Json) : Prop :=
  ∀ member ∈ written, member.1 ∉ members.names ∧
    ∃ field ∈ fields, field.name = member.1 ∧ field.default? = some member.2

namespace Omits

variable {fields : List (Field Check)} {members written all : Members Json}

theorem given_eq (omits : Omits fields members written)
    (distinct : (fields.map (·.name)).Nodup) (mixed : Interleaved members written all)
    {field : Field Check} (member : field ∈ fields) : field.given all = field.given members := by
  have apart : ∀ name ∈ written.names, name ∉ members.names := by
    intro name inside
    obtain ⟨entry, given, same⟩ := List.mem_map.mp inside
    rw [← same]
    exact (omits entry given).1
  have default : (written.lookup field.name).or field.default? = field.default? := by
    cases found : written.lookup field.name with
    | none => rfl
    | some value =>
      obtain ⟨before, after, listed, -⟩ := List.lookup_eq_some_iff.mp found
      have inside : (field.name, value) ∈ written := by simp [listed]
      obtain ⟨-, other, declared, same, default⟩ := omits _ inside
      have alike : other = field := List.inj_on_of_nodup_map distinct declared member same
      rw [← alike, default, Option.some_or]
  rw [Field.given, mixed.lookup apart, Option.or_assoc, default, Field.given]

theorem undeclared_eq (omits : Omits fields members written)
    (mixed : Interleaved members written all) :
    undeclared (fields.map (·.name)) all = undeclared (fields.map (·.name)) members := by
  apply mixed.filter_left
  intro member inside
  obtain ⟨-, field, declared, same, -⟩ := omits member inside
  have known : member.1 ∈ fields.map (·.name) := same ▸ List.mem_map_of_mem declared
  simpa using known

theorem fieldChecks {ι : Type} {fields : List (Field (Validator ι))}
    (omits : Omits fields members written) :
    Omits (Validator.fieldChecks fields) members written := by
  intro member inside
  obtain ⟨absent, field, declared, same, default⟩ := omits member inside
  refine ⟨absent, field.map Validator.check, ?_, same, default⟩
  rw [Validator.fieldChecks_eq_map]
  exact List.mem_map_of_mem declared

end Omits

theorem undeclared_cons_of_mem {names : List String} {name : String} (known : name ∈ names)
    (value : Json) (rest : Members Json) :
    undeclared names ((name, value) :: rest) = undeclared names rest := by
  simp [undeclared, known]

namespace Check

theorem record_congr {fields : List (Field Check)} {xs ys : Members Json}
    (entries : ∀ field ∈ fields, field.entry ys = field.entry xs)
    (others : undeclared (fields.map (·.name)) ys = undeclared (fields.map (·.name)) xs)
    (extra : ExtraKeys) (failFast : Bool) :
    record fields extra failFast (.object ys) = record fields extra failFast (.object xs) := by
  rw [record, record, others, List.map_congr_left entries]

theorem each_congr {check : Check} {xs ys : List Json} (same : ys.map check = xs.map check)
    (failFast : Bool) : each check failFast (.array ys) = each check failFast (.array xs) := by
  have length : ys.length = xs.length := by simpa using congrArg List.length same
  rw [each, each, same, length]

theorem tuple_congr {checks : List Check} {xs ys : List Json} (length : ys.length = xs.length)
    (same : List.zipWith (fun check item => check item) checks ys =
      List.zipWith (fun check item => check item) checks xs) (failFast : Bool) :
    tuple checks failFast (.array ys) = tuple checks failFast (.array xs) := by
  rw [tuple, tuple, same, length]

end Check

namespace Validator

variable {ι : Type}

theorem check_record_written (tag : ι) {fields : List (Field (Validator ι))}
    {members written all : Members Json} (distinct : (fields.map (·.name)).Nodup)
    (omits : Omits fields members written) (mixed : Interleaved members written all)
    (extra : ExtraKeys) (failFast : Bool) :
    (record tag fields extra failFast).check (.object all) =
      (record tag fields extra failFast).check (.object members) := by
  have omits' := omits.fieldChecks
  have distinct' : ((fieldChecks fields).map (·.name)).Nodup := by rwa [names_fieldChecks]
  rw [check]
  apply Check.record_congr _ (omits'.undeclared_eq mixed)
  intro field member
  apply Field.entry_congr
  rw [omits'.given_eq distinct' mixed member]

mutual

/-- The second value spells out defaults that the first leaves to the validator, at any depth. -/
inductive Spelled : Validator ι → Json → Json → Prop
  | same {v : Validator ι} {x : Json} : Spelled v x x
  | record {tag : ι} {fields : List (Field (Validator ι))} {extra : ExtraKeys} {failFast : Bool}
      {members inner written all : Members Json} (distinct : (fields.map (·.name)).Nodup)
      (within : SpelledMembers fields members inner) (omits : Omits fields inner written)
      (mixed : Interleaved inner written all) :
      Spelled (.record tag fields extra failFast) (.object members) (.object all)
  | each {tag : ι} {v : Validator ι} {failFast : Bool} {xs ys : List Json}
      (items : SpelledItems v xs ys) : Spelled (.each tag v failFast) (.array xs) (.array ys)
  | tuple {tag : ι} {vs : List (Validator ι)} {failFast : Bool} {xs ys : List Json}
      (positions : SpelledPositions vs xs ys) :
      Spelled (.tuple tag vs failFast) (.array xs) (.array ys)

inductive SpelledItems : Validator ι → List Json → List Json → Prop
  | nil {v : Validator ι} : SpelledItems v [] []
  | cons {v : Validator ι} {x y : Json} {xs ys : List Json} (first : Spelled v x y)
      (rest : SpelledItems v xs ys) : SpelledItems v (x :: xs) (y :: ys)

-- Positions without a value or a validator stay as they are: the arity is wrong before and after.
inductive SpelledPositions : List (Validator ι) → List Json → List Json → Prop
  | same {vs : List (Validator ι)} {xs : List Json} : SpelledPositions vs xs xs
  | cons {v : Validator ι} {vs : List (Validator ι)} {x y : Json} {xs ys : List Json}
      (first : Spelled v x y) (rest : SpelledPositions vs xs ys) :
      SpelledPositions (v :: vs) (x :: xs) (y :: ys)

inductive SpelledMembers : List (Field (Validator ι)) → Members Json → Members Json → Prop
  | nil {fields : List (Field (Validator ι))} : SpelledMembers fields [] []
  | same {fields : List (Field (Validator ι))} {member : String × Json} {xs ys : Members Json}
      (rest : SpelledMembers fields xs ys) : SpelledMembers fields (member :: xs) (member :: ys)
  | field {fields : List (Field (Validator ι))} {field : Field (Validator ι)} {v : Validator ι}
      {x y : Json} {xs ys : Members Json} (declared : field ∈ fields)
      (checked : field.inner = some v) (value : Spelled v x y)
      (rest : SpelledMembers fields xs ys) :
      SpelledMembers fields ((field.name, x) :: xs) ((field.name, y) :: ys)

end

theorem SpelledMembers.undeclared_eq {fields : List (Field (Validator ι))} {xs ys : Members Json} :
    SpelledMembers fields xs ys →
      undeclared (fields.map (·.name)) ys = undeclared (fields.map (·.name)) xs
  | .nil => rfl
  | .same rest => by
    have later := rest.undeclared_eq
    rw [undeclared, undeclared] at later
    rw [undeclared, undeclared, List.filter_cons, List.filter_cons, later]
  | .field declared _ _ rest => by
    have known : _ ∈ fields.map (·.name) := List.mem_map_of_mem declared
    rw [undeclared_cons_of_mem known, undeclared_cons_of_mem known, rest.undeclared_eq]

theorem SpelledPositions.length_eq {vs : List (Validator ι)} {xs ys : List Json} :
    SpelledPositions vs xs ys → ys.length = xs.length
  | .same => rfl
  | .cons _ rest => by rw [List.length_cons, List.length_cons, rest.length_eq]

theorem eq_of_mem_fieldChecks {fields : List (Field (Validator ι))}
    (distinct : (fields.map (·.name)).Nodup) {field : Field (Validator ι)} {other : Field Check}
    (declared : field ∈ fields) (member : other ∈ fieldChecks fields)
    (same : other.name = field.name) : other = field.map check := by
  rw [fieldChecks_eq_map] at member
  obtain ⟨origin, inside, made⟩ := List.mem_map.mp member
  have alike : origin = field := by
    apply List.inj_on_of_nodup_map distinct inside declared
    rw [← same, ← made]
    rfl
  rw [← made, alike]

mutual

theorem Spelled.check_eq {v : Validator ι} {x y : Json} : v.Spelled x y → v.check y = v.check x
  | .same => rfl
  | .record distinct within omits mixed => by
    rw [check_record_written _ distinct omits mixed, check]
    apply Check.record_congr
    · intro field member
      apply Field.entry_congr
      rw [Field.given, Field.given, Option.map_or, Option.map_or,
        within.accept_eq distinct member]
    · rw [names_fieldChecks]
      exact within.undeclared_eq
  | .each items => Check.each_congr items.checks_eq _
  | .tuple positions => Check.tuple_congr positions.length_eq positions.checks_eq _

theorem SpelledItems.checks_eq {v : Validator ι} {xs ys : List Json} :
    SpelledItems v xs ys → ys.map v.check = xs.map v.check
  | .nil => rfl
  | .cons first rest => by rw [List.map_cons, List.map_cons, first.check_eq, rest.checks_eq]

theorem SpelledPositions.checks_eq {vs : List (Validator ι)} {xs ys : List Json} :
    SpelledPositions vs xs ys → List.zipWith (fun check item => check item) (checks vs) ys =
      List.zipWith (fun check item => check item) (checks vs) xs
  | .same => rfl
  | .cons first rest => by
    rw [checks, List.zipWith_cons_cons, List.zipWith_cons_cons, first.check_eq, rest.checks_eq]

theorem SpelledMembers.accept_eq {fields : List (Field (Validator ι))} {xs ys : Members Json}
    (distinct : (fields.map (·.name)).Nodup) {field : Field Check}
    (member : field ∈ fieldChecks fields) : SpelledMembers fields xs ys →
    (ys.lookup field.name).map field.accept = (xs.lookup field.name).map field.accept
  | .nil => rfl
  | .same rest => by
    have later := rest.accept_eq distinct member
    rw [Members.lookup_cons, Members.lookup_cons]
    split
    · rfl
    · exact later
  | .field declared checked value rest => by
    have later := rest.accept_eq distinct member
    have again := value.check_eq
    rw [Members.lookup_cons, Members.lookup_cons]
    split
    next here =>
      rw [eq_of_mem_fieldChecks distinct declared member here]
      simp [Field.accept, Field.map, checked, again]
    next => exact later

end

theorem check_spelled :
    (∀ (tag : ι) (fields : List (Field (Validator ι))) (extra : ExtraKeys) (failFast : Bool)
      (members written all : Members Json), (fields.map (·.name)).Nodup →
      Omits fields members written → Interleaved members written all →
        (record tag fields extra failFast).check (.object all) =
          (record tag fields extra failFast).check (.object members)) ∧
    ∀ (v : Validator ι) (x y : Json), v.Spelled x y → v.check y = v.check x := by
  constructor
  · intro tag fields extra failFast members written all distinct omits mixed
    exact check_record_written tag distinct omits mixed extra failFast
  · intro v x y spelled
    exact spelled.check_eq

-- The first server leaves out its port, the second its host, and the fleet how often to retry.
def fleet : Validator Unit :=
  .record () [⟨"servers", .required, some (.each () (.record ()
      [⟨"host", .required, some (.leaf () (.primitive .string))⟩,
        ⟨"port", .default (.string "80"), some (.leaf () (.primitive .integer))⟩]
      .reject true) false)⟩,
    ⟨"retries", .default (.string "3"), some (.leaf () (.primitive .integer))⟩] .reject false

def fleetInput : Json :=
  .object [("servers", .array [.object [("host", .string "a")], .object [("port", .null)]])]

def fleetInputSpelled : Json :=
  .object [("retries", .string "3"),
    ("servers", .array [.object [("port", .string "80"), ("host", .string "a")],
      .object [("port", .null)]])]

theorem fleetInput_spelled : fleet.Spelled fleetInput fleetInputSpelled := by
  have server : Omits
      [⟨"host", .required, some (leaf () (.primitive .string))⟩,
        ⟨"port", .default (.string "80"), some (leaf () (.primitive .integer))⟩]
      [("host", .string "a")] [("port", .string "80")] := by
    simp [Omits, Field.default?, Members.names]
  refine .record (by decide) (.field List.mem_cons_self rfl ?_ .nil) ?_ (.right (.left .nil))
  · refine .each (.cons ?_ (.cons .same .nil))
    exact .record (by decide) (.same .nil) server (.right (.left .nil))
  · simp [Omits, Field.default?, Members.names]

theorem check_fleet :
    ∃ e, fleet.check fleetInput = .error e ∧ fleet.check fleetInputSpelled = .error e ∧
      e.flatten.map (·.path) =
        [[], [.key "servers"], [.key "servers", .index 1, .key "host"]] := by
  obtain ⟨e, failed, paths⟩ : ∃ e, fleet.check fleetInput = .error e ∧ e.flatten.map (·.path) =
      [[], [.key "servers"], [.key "servers", .index 1, .key "host"]] := by
    with_unfolding_all exact ⟨_, rfl, rfl⟩
  have same := check_spelled.2 fleet fleetInput fleetInputSpelled fleetInput_spelled
  exact ⟨e, failed, same.trans failed, paths⟩

end Validator

end Conform
