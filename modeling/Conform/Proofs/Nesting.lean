import Conform.Proofs.Combined
import Conform.Proofs.Declared
import Conform.Proofs.Parameters
import Conform.Proofs.Pointing
import Conform.Proofs.Positions
import Conform.Proofs.Reordered
import Mathlib.Data.List.Duplicate

set_option autoImplicit false

/-!
The failures nested in a failure are about parts of the value that it is about. Below the failure
of an array they go on with different indices that rise, below that of an object with the names of
different members; alternatives and requirements add no step. A step that is put in front of all of
them changes none of this.
-/

namespace Conform

namespace Failure

-- What a node tells of the nodes right below it, where `place` is the path that the text of a node
-- stands for. The names below an object differ, except for those that are `repeated`.
structure Spreads (place : Failure → Path) (repeated : String → Prop) (e : Failure) : Prop where
  field : e.field? = (place e).field?
  below : ∀ part ∈ e.nested, place e <+: place part
  items : e.code = "each_failed" ∨ e.code = "tuple_invalid" →
    ∃ indices : List Nat, indices.Pairwise (· < ·) ∧
      List.Forall₂ (fun part i => place e ++ [.index i] <+: place part) e.nested indices
  members : e.code = "record_invalid" →
    ∃ names : List String, (∀ name, names.Duplicate name → repeated name) ∧
      List.Forall₂ (fun part name => place e ++ [.key name] <+: place part) e.nested names

def Orderly (repeated : String → Prop) (e : Failure) : Prop :=
  ∀ node ∈ e.flatten, node.Spreads path repeated

variable {repeated : String → Prop} {e : Failure}

-- A step in front of two paths leaves the one at the beginning of the other.
theorem forall₂_under {α : Type} {step : α → Segment} {parts : List Failure} {xs : List α}
    {p : Path} (s : Segment)
    (steps : List.Forall₂ (fun part x => p ++ [step x] <+: part.path) parts xs) :
    List.Forall₂ (fun part x => (s :: p) ++ [step x] <+: part.path) (parts.map (under s)) xs := by
  rw [List.forall₂_map_left_iff]
  refine steps.imp fun part x leads => ?_
  rw [path_under, List.cons_append]
  exact List.cons_prefix_cons.mpr ⟨rfl, leads⟩

theorem Spreads.under (spreads : e.Spreads path repeated) (s : Segment) :
    (e.under s).Spreads path repeated where
  field := rfl
  below := by
    rw [nested_under, path_under, List.forall_mem_map]
    intro part member
    rw [path_under]
    exact List.cons_prefix_cons.mpr ⟨rfl, spreads.below part member⟩
  items array := by
    rw [code_under] at array
    obtain ⟨indices, rising, steps⟩ := spreads.items array
    rw [nested_under, path_under]
    exact ⟨indices, rising, forall₂_under s steps⟩
  members object := by
    rw [code_under] at object
    obtain ⟨names, differ, steps⟩ := spreads.members object
    rw [nested_under, path_under]
    exact ⟨names, differ, forall₂_under s steps⟩

theorem Orderly.under (orderly : e.Orderly repeated) (s : Segment) :
    (e.under s).Orderly repeated := by
  rw [Orderly, flatten_under, List.forall_mem_map]
  exact fun node member => (orderly node member).under s

theorem Orderly.foldr_under (orderly : e.Orderly repeated) (outer : Path) :
    (outer.foldr Failure.under e).Orderly repeated := by
  induction outer with
  | nil => exact orderly
  | cons s rest ih => exact ih.under s

theorem Spreads.orderly (spreads : e.Spreads path repeated)
    (inside : ∀ part ∈ e.nested, part.Orderly repeated) : e.Orderly repeated := by
  intro node member
  rcases mem_flatten_iff.mp member with rfl | ⟨part, nested, member⟩
  · exact spreads
  · exact inside part nested node member

theorem orderly_of_flat (flat : e.nested = []) : e.Orderly repeated := by
  apply Spreads.orderly
  · constructor
    case field => rfl
    case below => simp [flat]
    case items => exact fun _ => ⟨[], .nil, flat ▸ .nil⟩
    case members => exact fun _ => ⟨[], fun _ twice => absurd twice.mem (by simp), flat ▸ .nil⟩
  · simp [flat]

-- A container that stops at the first failure adds nothing to it.
theorem Accounts.orderly {code : String} {failFast : Bool} {parts : List Failure}
    (accounts : Accounts code failFast parts e) (inside : ∀ part ∈ parts, part.Orderly repeated)
    (spreads : e.Counts code parts → e.Spreads path repeated) : e.Orderly repeated := by
  cases failFast with
  | true => exact inside e (List.mem_of_mem_head? accounts)
  | false =>
    have counts := accounts.2
    refine (spreads counts).orderly ?_
    rwa [counts.nested]

end Failure

namespace Outcome

variable {repeated : String → Prop}

def Orderly (repeated : String → Prop) : Outcome Json → Prop
  | .ok out => out.Distinct
  | .error e => e.Orderly repeated

theorem orderly_intro {answer : Outcome Json} (accepts : ∀ out, answer = .ok out → out.Distinct)
    (refuses : ∀ e, answer = .error e → e.Orderly repeated) : Orderly repeated answer := by
  cases answer with
  | ok out => exact accepts out rfl
  | error e => exact refuses e rfl

theorem Orderly.mapError {answer : Outcome Json} (orderly : Orderly repeated answer)
    (s : Segment) : Orderly repeated (answer.mapError (Failure.under s)) := by
  cases answer with
  | ok out => exact orderly
  | error e => exact Failure.Orderly.under orderly s

-- The failures of an array are those of its elements, by rising index.
theorem Positionwise.orderly {code : String} {failFast : Bool} {outcomes : List (Outcome Json)}
    {answer : Outcome Json} (positions : Positionwise code failFast outcomes answer)
    (array : code ≠ "record_invalid") (inside : ∀ outcome ∈ outcomes, Orderly repeated outcome) :
    Orderly repeated answer := by
  apply orderly_intro
  · intro out accepted
    obtain ⟨outs, rfl, taken⟩ := (positions.accepts out).mp accepted
    refine Json.distinctItems_iff.mpr fun part member => ?_
    obtain ⟨i, here⟩ := List.getElem?_of_mem member
    obtain ⟨_, found, rfl⟩ := getElem?_related taken.flip here
    exact inside _ (List.mem_of_getElem? found)
  · intro e refused
    obtain ⟨indices, parts, itemizes, accounts⟩ := positions.refuses e refused
    have placed := itemizes.placed.flip
    refine accounts.orderly (fun part member => ?_) fun counts => ?_
    · obtain ⟨i, here⟩ := List.getElem?_of_mem member
      obtain ⟨_, -, own, failed, moves⟩ := getElem?_related placed here
      rw [moves.eq_under]
      exact Failure.Orderly.under (inside _ (List.mem_of_getElem? failed)) _
    · constructor
      case field => rfl
      case below => simp [counts.here]
      case members => exact fun object => absurd (counts.code.symm.trans object) array
      case items =>
        refine fun _ => ⟨indices, itemizes.rising, ?_⟩
        rw [counts.nested, counts.here]
        refine placed.imp fun part i ⟨own, _, moves⟩ => ?_
        rw [moves.eq_under, Failure.path_under]
        exact ⟨own.path, rfl⟩

end Outcome

namespace Check

open Outcome

variable {repeated : String → Prop}

def Orderly (repeated : String → Prop) (check : Check) : Prop :=
  ∀ value, value.Distinct → Outcome.Orderly repeated (check value)

theorem orderly_primitive (p : Primitive) : Orderly repeated p.check := by
  intro value distinct
  have ofKind (expected : String) : Outcome.Orderly repeated (ofKind expected value) := by
    rw [Check.ofKind]
    split
    · exact distinct
    · exact Failure.orderly_of_flat rfl
  cases p with
  | any => exact distinct
  | null | boolean | string | list | mapping => exact ofKind _
  | integer =>
    refine orderly_intro (fun out accepted => ?_) fun e refused =>
      Failure.orderly_of_flat (Primitive.check_flat .integer refused).2
    obtain ⟨n, rfl⟩ := whole_of_integer accepted
    trivial
  | float =>
    refine orderly_intro (fun out accepted => ?_) fun e refused =>
      Failure.orderly_of_flat (Primitive.check_flat .float refused).2
    obtain ⟨x, rfl⟩ := double_of_float accepted
    trivial

theorem orderly_exact {expected : Json} (distinct : expected.Distinct) :
    Orderly repeated (exact expected) := by
  intro value _
  rw [exact]
  split
  · exact distinct
  · exact Failure.orderly_of_flat rfl

theorem orderly_each {inner : Check} (orderly : Orderly repeated inner) (failFast : Bool) :
    Orderly repeated (each inner failFast) := by
  intro value distinct
  cases value with
  | array items =>
    refine (positionwise_each inner failFast items).orderly (by decide) ?_
    rw [List.forall_mem_map]
    exact fun item inside => orderly item (Json.distinctItems_iff.mp distinct item inside)
  | _ => exact Failure.orderly_of_flat rfl

theorem orderly_tuple {checks : List Check} (orderly : ∀ check ∈ checks, Orderly repeated check)
    (failFast : Bool) : Orderly repeated (tuple checks failFast) := by
  intro value distinct
  cases value with
  | array items =>
    by_cases fits : items.length = checks.length
    · refine (positionwise_tuple fits failFast).orderly (by decide) fun outcome member => ?_
      obtain ⟨i, here⟩ := List.getElem?_of_mem member
      obtain ⟨check, item, declared, found, rfl⟩ := List.getElem?_zipWith_eq_some.mp here
      exact orderly check (List.mem_of_getElem? declared) item
        (Json.distinctItems_iff.mp distinct item (List.mem_of_getElem? found))
    · rw [tuple, if_neg fits]
      exact Failure.orderly_of_flat rfl
  | _ => exact Failure.orderly_of_flat rfl

section

variable {fields : List (Field Check)} {members : Members Json} {extra : ExtraKeys}

abbrev Named (parts : List Failure) (names : List String) : Prop :=
  List.Forall₂ (fun part name => ∃ inner, part = Failure.under (.key name) inner) parts names

-- Each failing field is one of the declared fields, in their order.
theorem exists_named_refused (fields : List (Field Check)) (members : Members Json) :
    ∃ names, Named (refused fields members) names ∧ names.Sublist (fields.map (·.name)) := by
  induction fields with
  | nil => exact ⟨[], .nil, .slnil⟩
  | cons field rest ih =>
    obtain ⟨names, named, among⟩ := ih
    rw [refused, List.filterMap_cons, List.map_cons]
    cases extracted : field.extract members with
    | ok value => exact ⟨names, named, among.cons _⟩
    | error e =>
      have failed : field.entry members = .error e := map_eq_error_iff.mpr extracted
      obtain ⟨inner, here⟩ : ∃ inner, e = Failure.under (.key field.name) inner := by
        rcases Field.entry_eq_error failed with ⟨-, -, -, -, part, -, same⟩ | ⟨-, -, same⟩
        · exact ⟨part, same.symm⟩
        · exact ⟨_, same.symm⟩
      exact ⟨field.name :: names, .cons ⟨inner, here⟩ named, among.cons_cons _⟩

theorem exists_named_extras (single : members.names.Nodup) (declared : List String)
    (extra : ExtraKeys) :
    ∃ names, Named (if extra = .reject then extras declared members else []) names ∧
      names.Nodup ∧ ∀ name ∈ names, name ∉ declared := by
  by_cases rejects : extra = .reject
  · refine ⟨(undeclared declared members).names, ?_, ?_, fun name => mem_names_undeclared⟩
    · rw [if_pos rejects, extras, Members.names, Named, List.forall₂_map_left_iff,
        List.forall₂_map_right_iff]
      exact List.forall₂_same.mpr fun member _ => ⟨_, rfl⟩
    · exact (List.filter_sublist.map _).nodup single
  · rw [if_neg rejects]
    exact ⟨[], .nil, .nil, by simp⟩

-- A name that comes twice is one that is declared twice, as the others come once.
theorem duplicate_of_append {own others declared : List String} (among : own.Sublist declared)
    (single : others.Nodup) (apart : ∀ name ∈ others, name ∉ declared) {name : String}
    (twice : (own ++ others).Duplicate name) : declared.Duplicate name := by
  refine List.Duplicate.mono_sublist ?_ among
  rw [List.duplicate_iff_two_le_count] at twice ⊢
  rw [List.count_append] at twice
  by_cases other : name ∈ others
  · have absent : name ∉ own := fun inside => apart name other (among.subset inside)
    rw [List.count_eq_zero_of_not_mem absent, List.count_eq_one_of_mem single other] at twice
    omega
  · rwa [List.count_eq_zero_of_not_mem other] at twice

theorem spreads_record (single : members.names.Nodup)
    (twice : ∀ name, (fields.map (·.name)).Duplicate name → repeated name) {e : Failure}
    (counts : e.Counts "record_invalid" (refused fields members ++
      if extra = .reject then extras (fields.map (·.name)) members else [])) :
    e.Spreads Failure.path repeated := by
  obtain ⟨own, named, among⟩ := exists_named_refused fields members
  obtain ⟨others, named', single', apart⟩ :=
    exists_named_extras single (fields.map (·.name)) extra
  constructor
  case field => rfl
  case below => simp [counts.here]
  case items => exact fun array => by simp [counts.code] at array
  case members =>
    refine fun _ => ⟨own ++ others, fun name again =>
      twice name (duplicate_of_append among single' apart again), ?_⟩
    rw [counts.nested, counts.here]
    refine (List.rel_append named named').imp fun part name ⟨inner, under⟩ => ?_
    rw [under, Failure.path_under]
    exact ⟨inner.path, rfl⟩

end

end Check

namespace Field

variable {repeated : String → Prop} {field : Field Check} {members : Members Json}

structure Orderly (repeated : String → Prop) (field : Field Check) : Prop where
  supplied : ∀ value ∈ field.default?, value.Distinct
  inner : ∀ check ∈ field.inner, check.Orderly repeated

theorem Orderly.given (orderly : field.Orderly repeated) (distinct : Json.DistinctMembers members)
    {value : Json} (given : value ∈ field.given members) : value.Distinct := by
  rcases Option.or_eq_some_iff.mp given with present | ⟨-, default⟩
  · exact distinct.lookup present
  · exact orderly.supplied value default

theorem Orderly.accept (orderly : field.Orderly repeated) {value : Json}
    (distinct : value.Distinct) : Outcome.Orderly repeated (field.accept value) := by
  rw [Field.accept]
  cases inner : field.inner with
  | none => exact distinct
  | some check => exact (orderly.inner check inner value distinct).mapError _

end Field

namespace Check

open Outcome

variable {repeated : String → Prop} {fields : List (Field Check)} {members : Members Json}
  {extra : ExtraKeys}

theorem orderly_entry {field : Field Check} (orderly : field.Orderly repeated)
    (distinct : Json.DistinctMembers members) {e : Failure}
    (failed : field.entry members = .error e) : e.Orderly repeated := by
  rcases Field.entry_eq_error failed with
    ⟨value, given, check, inner, part, refused, rfl⟩ | ⟨-, -, rfl⟩
  · have answer := orderly.inner check inner value (orderly.given distinct given)
    rw [refused] at answer
    exact Failure.Orderly.under answer _
  · exact Failure.orderly_of_flat rfl

theorem orderly_record (orderly : ∀ field ∈ fields, field.Orderly repeated)
    (twice : ∀ name, (fields.map (·.name)).Duplicate name → repeated name) (failFast : Bool) :
    Orderly repeated (record fields extra failFast) := by
  intro value distinct
  cases value with
  | object members =>
    obtain ⟨single, distinct⟩ := distinct
    apply orderly_intro
    · intro out accepted
      obtain ⟨_, taken, kept, ⟨⟩, declared, others, rfl⟩ := record_eq_ok_iff.mp accepted
      refine ⟨Members.nodup_gather _, Json.distinctMembers_iff.mpr fun member inside => ?_⟩
      rcases List.mem_append.mp (Members.mem_gather inside) with inside | inside
      · have entry : some member ∈ taken := by simpa using inside
        have outcome : .ok (some member) ∈ fields.map (·.entry members) := by
          rw [declared]
          exact List.mem_map_of_mem entry
        obtain ⟨field, known, extracted⟩ := List.mem_map.mp outcome
        obtain ⟨value, given, part, accepted, rfl⟩ := Field.entry_eq_ok_some_iff.mp extracted
        have answer := (orderly field known).accept ((orderly field known).given distinct given)
        rwa [accepted] at answer
      · rw [kept_eq others] at inside
        split at inside
        · exact Json.distinctMembers_iff.mp distinct member (List.mem_of_mem_filter inside)
        · cases inside
    · intro e refused
      refine (accounts_record refused).orderly (fun part member => ?_) (spreads_record single twice)
      rcases List.mem_append.mp member with own | other
      · rw [← failures_declared, mem_failures_iff] at own
        obtain ⟨field, known, failed⟩ := List.mem_map.mp own
        exact orderly_entry (orderly field known) distinct failed
      · split at other
        · obtain ⟨member, -, rfl⟩ := List.mem_map.mp other
          exact Failure.orderly_of_flat rfl
        · cases other
  | _ => exact Failure.orderly_of_flat rfl

theorem orderly_anyOf {checks : List Check} (orderly : ∀ check ∈ checks, Orderly repeated check) :
    Orderly repeated (anyOf checks) := by
  intro value distinct
  apply orderly_intro
  · intro out accepted
    rw [← firstSuccess_eq_ok_iff] at accepted
    induction checks with
    | nil => cases accepted
    | cons check rest ih =>
      rw [List.forall_mem_cons] at orderly
      rw [firstSuccess] at accepted
      have answer := orderly.1 value distinct
      cases first : check value with
      | ok early =>
        rw [first] at accepted answer
        cases accepted
        exact answer
      | error e =>
        rw [first] at accepted
        refine ih orderly.2 ?_
        cases others : firstSuccess rest value <;> rw [others] at accepted <;> cases accepted
        rfl
  · intro e refused
    obtain ⟨parts, outcomes, rfl⟩ := anyOf_eq_error_iff.mp refused
    refine Failure.Spreads.orderly ?_ fun part member => ?_
    · constructor
      case field => rfl
      case below => exact fun part _ => List.nil_prefix
      case items => simp [noneAccepted]
      case members => simp [noneAccepted]
    · have outcome : (.error part : Outcome Json) ∈ checks.map fun check => check value := by
        rw [outcomes]
        exact List.mem_map_of_mem member
      obtain ⟨check, inside, failed⟩ := List.mem_map.mp outcome
      have answer := orderly check inside value distinct
      rwa [failed] at answer

-- Each check gets a value from the one before it, in order again.
theorem orderly_allOf {checks : List Check} (orderly : ∀ check ∈ checks, Orderly repeated check) :
    Orderly repeated (allOf checks) := by
  intro value distinct
  induction checks generalizing value with
  | nil => exact distinct
  | cons check rest ih =>
    rw [List.forall_mem_cons] at orderly
    have answer := orderly.1 value distinct
    rw [allOf]
    cases first : check value with
    | ok out =>
      rw [first] at answer
      exact ih orderly.2 out answer
    | error e =>
      rw [first] at answer
      exact answer

theorem orderly_combine {checks : List Check} (orderly : ∀ check ∈ checks, Orderly repeated check)
    (mode : Combine) : Orderly repeated (combine mode checks) := by
  cases mode with
  | anyOf => exact orderly_anyOf orderly
  | allOf => exact orderly_allOf orderly

end Check

-- Leaves whose checks are known, with values that have no two members of one name.
def Leaf.Plain : Leaf → Prop
  | .primitive _ => True
  | .exact expected => expected.Distinct
  | .rule _ => False

theorem Leaf.Plain.orderly {repeated : String → Prop} :
    (l : Leaf) → l.Plain → l.check.Orderly repeated
  | .primitive p, _ => Check.orderly_primitive p
  | .exact _, distinct => Check.orderly_exact distinct

namespace Validator

variable {ι : Type}

mutual

def Plain : Validator ι → Prop
  | leaf _ l => l.Plain
  | record _ fields _ _ => PlainFields fields
  | each _ inner _ => inner.Plain
  | tuple _ items _ => PlainAll items
  | combinator _ _ children => PlainAll children

def PlainAll : List (Validator ι) → Prop
  | [] => True
  | v :: rest => v.Plain ∧ PlainAll rest

def PlainFields : List (Field (Validator ι)) → Prop
  | [] => True
  | ⟨_, absence, some v⟩ :: rest =>
    (∀ value, absence = .default value → value.Distinct) ∧ v.Plain ∧ PlainFields rest
  | ⟨_, absence, none⟩ :: rest =>
    (∀ value, absence = .default value → value.Distinct) ∧ PlainFields rest

end

mutual

-- Whether some record in a validator declares a name more than once.
def Repeats : Validator ι → String → Prop
  | leaf _ _, _ => False
  | record _ fields _ _, name =>
    (fields.map (·.name)).Duplicate name ∨ RepeatsInFields fields name
  | each _ inner _, name => inner.Repeats name
  | tuple _ items _, name => RepeatsInAll items name
  | combinator _ _ children, name => RepeatsInAll children name

def RepeatsInAll : List (Validator ι) → String → Prop
  | [], _ => False
  | v :: rest, name => v.Repeats name ∨ RepeatsInAll rest name

def RepeatsInFields : List (Field (Validator ι)) → String → Prop
  | [], _ => False
  | ⟨_, _, some v⟩ :: rest, name => v.Repeats name ∨ RepeatsInFields rest name
  | ⟨_, _, none⟩ :: rest, name => RepeatsInFields rest name

end

section

variable {repeated : String → Prop}

theorem distinct_default {α : Type} {field : Field α}
    (supplied : ∀ value, field.absence = .default value → value.Distinct) :
    ∀ value ∈ field.default?, value.Distinct := by
  intro value member
  rw [Field.default?] at member
  split at member
  next same =>
    cases member
    exact supplied _ same
  next => cases member

mutual

theorem Plain.orderly : (v : Validator ι) → v.Plain → (∀ name, v.Repeats name → repeated name) →
    v.check.Orderly repeated
  | leaf _ l, plain, _ => Leaf.Plain.orderly l plain
  | record _ fields extra failFast, plain, twice => by
    rw [check]
    apply Check.orderly_record
    · exact PlainFields.orderly fields plain fun name again => twice name (.inr again)
    · rw [names_fieldChecks]
      exact fun name again => twice name (.inl again)
  | each _ inner failFast, plain, twice =>
    Check.orderly_each (Plain.orderly inner plain twice) failFast
  | tuple _ items failFast, plain, twice =>
    Check.orderly_tuple (PlainAll.orderly items plain twice) failFast
  | combinator _ mode children, plain, twice =>
    Check.orderly_combine (PlainAll.orderly children plain twice) mode

theorem PlainAll.orderly : (vs : List (Validator ι)) → PlainAll vs →
    (∀ name, RepeatsInAll vs name → repeated name) →
      ∀ check ∈ checks vs, check.Orderly repeated
  | [], _, _ => by simp [checks]
  | v :: rest, plain, twice => by
    have first := Plain.orderly v plain.1 fun name again => twice name (.inl again)
    have others := PlainAll.orderly rest plain.2 fun name again => twice name (.inr again)
    exact List.forall_mem_cons.mpr ⟨first, others⟩

theorem PlainFields.orderly : (fields : List (Field (Validator ι))) → PlainFields fields →
    (∀ name, RepeatsInFields fields name → repeated name) →
      ∀ field ∈ fieldChecks fields, field.Orderly repeated
  | [], _, _ => by simp [fieldChecks]
  | ⟨name, absence, some v⟩ :: rest, plain, twice => by
    have first := Plain.orderly v plain.2.1 fun name again => twice name (.inl again)
    have others := PlainFields.orderly rest plain.2.2 fun name again => twice name (.inr again)
    refine List.forall_mem_cons.mpr ⟨⟨distinct_default plain.1, ?_⟩, others⟩
    rintro check ⟨⟩
    exact first
  | ⟨name, absence, none⟩ :: rest, plain, twice => by
    have others := PlainFields.orderly rest plain.2 twice
    refine List.forall_mem_cons.mpr ⟨⟨distinct_default plain.1, ?_⟩, others⟩
    rintro check ⟨⟩

end

end

theorem spreads_of_check {v : Validator ι} (plain : v.Plain) {value : Json}
    (distinct : value.Distinct) {e : Failure} (refused : v.check value = .error e) :
    ∃ place : Failure → Path, ∀ outer : Path,
      ∀ node ∈ (outer.foldr Failure.under e).flatten, node.Spreads place v.Repeats := by
  have answer := Plain.orderly v plain (fun _ => id) value distinct
  rw [refused] at answer
  exact ⟨Failure.path, Failure.Orderly.foldr_under answer⟩

-- A list of records that stop at their first failure, beside two alternatives for one member.
def stops : Validator Unit :=
  .record ()
    [⟨"stops", .required, some (.each ()
        (.record ()
          [⟨"at", .required, some (.tuple () [.leaf () (.primitive .float),
              .leaf () (.primitive .float)] false)⟩,
            ⟨"name", .required, some (.leaf () (.primitive .string))⟩]
          .ignore true) false)⟩,
      ⟨"kind", .default (.string "bus"), some (.combinator () .anyOf
        [.leaf () (.exact (.string "bus")), .leaf () (.exact (.string "tram"))])⟩]
    .reject false

def stopsRefused : Json :=
  .object
    [("stops", .array
        [.object [("name", .string "Elm")],
          .object [("name", .string "Oak"), ("at", .array [.null, .null])]]),
      ("kind", .null), ("a.b", .null)]

theorem spreads_stops :
    ∃ e, stops.check stopsRefused = .error e ∧
      e.flatten.map (fun node => (node.code, node.field?)) =
        [("record_invalid", none), ("each_failed", some "stops"), ("required", some "stops[0].at"),
          ("tuple_invalid", some "stops[1].at"), ("type_mismatch", some "stops[1].at[0]"),
          ("type_mismatch", some "stops[1].at[1]"), ("any_of_failed", some "kind"),
          ("not_exact", some "kind"), ("not_exact", some "kind"),
          ("extra_key", some "[\"a.b\"]")] ∧
      (∀ name, ¬ stops.Repeats name) ∧
      ∃ place : Failure → Path, ∀ outer : Path,
        ∀ node ∈ (outer.foldr Failure.under e).flatten, node.Spreads place stops.Repeats := by
  have plain : stops.Plain := by
    simp [stops, Plain, PlainAll, PlainFields, Leaf.Plain, Json.Distinct]
  have distinct : stopsRefused.Distinct := by
    simp [stopsRefused, Json.Distinct, Json.DistinctItems, Json.DistinctMembers]
  have once (name : String) : ¬ stops.Repeats name := by
    have apart : (["stops", "kind"] : List String).Nodup := by decide
    have apart' : (["at", "name"] : List String).Nodup := by decide
    rw [List.nodup_iff_forall_not_duplicate] at apart apart'
    simp [stops, Repeats, RepeatsInAll, RepeatsInFields, apart, apart']
  obtain ⟨e, refused, seen⟩ : ∃ e, stops.check stopsRefused = .error e ∧
      e.flatten.map (fun node => (node.code, node.field?)) =
        [("record_invalid", none), ("each_failed", some "stops"), ("required", some "stops[0].at"),
          ("tuple_invalid", some "stops[1].at"), ("type_mismatch", some "stops[1].at[0]"),
          ("type_mismatch", some "stops[1].at[1]"), ("any_of_failed", some "kind"),
          ("not_exact", some "kind"), ("not_exact", some "kind"),
          ("extra_key", some "[\"a.b\"]")] := by
    with_unfolding_all exact ⟨_, rfl, rfl⟩
  exact ⟨e, refused, seen, once, spreads_of_check plain distinct refused⟩

end Validator

end Conform
