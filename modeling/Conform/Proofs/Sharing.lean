import Conform.Proofs.Ledger

set_option autoImplicit false

/-!
What a compiled validator shares. Mentions of one slot and of one validator that is given have
the same validator. What the compiler makes itself it makes once for each place where a fragment
stands, apart from all else that it makes.
-/

namespace Conform

open Relation

-- The same trail leads to a fragment in a specification and to its validator in the whole.
def Stands (slots : Slots) (spec : Spec) (v : Validator Handle) (o : Occurrence) (fragment : Spec)
    (w : Validator Handle) : Prop :=
  ∃ trail, Leads slots .root spec trail o fragment ∧ v.at? trail = some w

-- A fragment whose validator is made for it, and not looked up.
def Spec.IsMade : Spec → Prop
  | record _ _ | sequence _ | combinator _ _ | literal _ => True
  | validator _ | marker _ | slot _ => False

namespace Compiler

/--
A validator shares what its specification shares. What is looked up is the same one everywhere,
what is made is another one at each occurrence, with a tag of this run, and each slot that is
reached is opened in one call.
-/
structure Mirrors (c : Compiler) (spec : Spec) (next after : Handle) (v : Validator Handle) :
    Prop where
  reached : ∀ fragment, Reaches c.slots spec fragment →
    ∃ trail o, Leads c.slots .root spec trail o fragment
  found : ∀ trail o fragment, Leads c.slots .root spec trail o fragment →
    ∃ w, v.at? trail = some w
  slots : ∀ slot o w o' w', Stands c.slots spec v o (.slot slot) w →
    Stands c.slots spec v o' (.slot slot) w' → w = w'
  opened : ∀ slot, Reaches c.slots spec (.slot slot) →
    ∃! inner, c.Opens (c.start spec next) slot inner
  given : ∀ shared o w, Stands c.slots spec v o (.validator shared) w → w = shared
  registered : ∀ marker shared, c.registry.find? marker = some (.shared shared) →
    ∀ o w, Stands c.slots spec v o (.marker marker) w → w = shared
  fresh : ∀ o fragment w, Stands c.slots spec v o fragment w → fragment.IsMade →
    next ≤ w.tag ∧ w.tag < after
  apart : ∀ o fragment w o' fragment' w', Stands c.slots spec v o fragment w → fragment.IsMade →
    Stands c.slots spec v o' fragment' w' → fragment'.IsMade → (w.tag = w'.tag ↔ o = o')

variable {c : Compiler} {ledger : Ledger} {done : List (Slot × Validator Handle)}

theorem Placed.of_stands {spec fragment : Spec} {v w : Validator Handle} {o : Occurrence}
    (placed : c.Placed ledger done .root spec v) (stands : Stands c.slots spec v o fragment w) :
    c.Placed ledger done o fragment w := by
  obtain ⟨trail, leads, here⟩ := stands
  obtain ⟨other, found, inner⟩ := placed.at leads
  cases here.symm.trans found
  exact inner

theorem Placed.of_slot {o : Occurrence} {slot : Slot} {v : Validator Handle}
    (placed : c.Placed ledger done o (.slot slot) v) : done.lookup slot = some v := by
  cases placed with
  | shared planned | made planned | container planned => cases planned
  | slot finished => exact finished

theorem Placed.of_shared {o : Occurrence} {spec : Spec} {v w : Validator Handle}
    (placed : c.Placed ledger done o spec w) (planned : c.plan spec = .leaf (.shared v)) :
    w = v := by
  cases placed with
  | shared planned' =>
    cases planned.symm.trans planned'
    rfl
  | made planned' | container planned' => cases planned.symm.trans planned'
  | slot => cases planned

theorem Placed.entered {o : Occurrence} {spec : Spec} {v : Validator Handle}
    (placed : c.Placed ledger done o spec v) (made : spec.IsMade) : (o, v.tag) ∈ ledger := by
  cases placed with
  | made _ entered => exact entered
  | slot => cases made
  | container _ entered =>
    rw [Frame.join_tag]
    exact entered
  | shared planned =>
    rcases plan_leaf_cases planned with
      ⟨given, rfl, -⟩ | ⟨marker, rfl, -⟩ | ⟨value, rfl, -, other⟩
    · cases made
    · cases made
    · cases other

theorem mirrors_of_compile {spec : Spec} {next after : Handle} {v : Validator Handle}
    (compiled : c.compile spec next = .ok (v, after)) : c.Mirrors spec next after v := by
  obtain ⟨ledger, done, bounds, occurrences, tags, placed⟩ := placed_of_compile compiled
  refine ⟨?_, ?_, ?_, ?_, ?_, ?_, ?_, ?_⟩
  · exact fun fragment reaches => (denotes_of_compile compiled).leads reaches .root
  · exact fun trail o fragment leads => (placed.at leads).imp fun _ => And.left
  · intro slot o w o' w' stands stands'
    have finished := (placed.of_stands stands).of_slot
    exact Option.some.inj (finished.symm.trans (placed.of_stands stands').of_slot)
  · exact fun slot reaches => existsUnique_opens compiled reaches
  · exact fun shared o w stands => (placed.of_stands stands).of_shared rfl
  · intro marker shared found o w stands
    have planned : c.plan (.marker marker) = .leaf (.shared shared) := by rw [plan, found]
    exact (placed.of_stands stands).of_shared planned
  · exact fun o fragment w stands made => bounds _ ((placed.of_stands stands).entered made)
  · intro o fragment w o' fragment' w' stands made stands' made'
    have entered := (placed.of_stands stands).entered made
    have entered' := (placed.of_stands stands').entered made'
    constructor
    · intro same
      exact congrArg Prod.fst (List.inj_on_of_nodup_map tags entered entered' same)
    · intro same
      exact congrArg Prod.snd (List.inj_on_of_nodup_map occurrences entered entered' same)

-- A list in a slot that is mentioned by itself and under an alias, a marker with one validator,
-- and the same list once more where no slot is.
def braid : Compiler where
  registry := ⟨[("flag", .shared (.leaf 3 (.primitive .boolean))),
    ("int", .factory (.leaf () (.primitive .integer)))]⟩
  options := {}
  slots := ⟨[some (.listOf (.marker "int")), some (.slot 0)]⟩

def braidSpec : Spec :=
  .record [(.required "left", .slot 0), (.required "own", .listOf (.marker "int")),
    (.required "right", .sequence [.marker "flag", .slot 1, .marker "flag",
      .validator (.leaf 4 (.primitive .string))])] none

def braidValidator : Validator Handle :=
  let shared : Validator Handle := .each 11 (.leaf 10 (.primitive .integer)) false
  .record 15 [⟨"left", .required, some shared⟩,
    ⟨"own", .required, some (.each 13 (.leaf 12 (.primitive .integer)) false)⟩,
    ⟨"right", .required, some (.tuple 14 [.leaf 3 (.primitive .boolean), shared,
      .leaf 3 (.primitive .boolean), .leaf 4 (.primitive .string)] false)⟩] .reject false

theorem mirrors_braid :
    braid.compile braidSpec 10 = .ok (braidValidator, 16) ∧
      braid.Mirrors braidSpec 10 16 braidValidator := by
  have compiled : braid.compile braidSpec 10 = .ok (braidValidator, 16) := by
    with_unfolding_all rfl
  exact ⟨compiled, mirrors_of_compile compiled⟩

end Compiler

end Conform
