import Conform.Proofs.Pointing

set_option autoImplicit false

/-!
When two failures share a message. A place has an entry of its own among the messages, unless it
is the value itself or the member `$` and both of them are at fault. The two are at fault
together only where alternatives are tried on the value itself.
-/

namespace Conform

namespace Failure

-- Whether a failure of the value itself is the only one.
def RootAlone (e : Failure) : Prop := ∀ leaf ∈ e.leaves, leaf.path = [] → e.leaves = [leaf]

theorem rootAlone_of_flat {e : Failure} (flat : e.nested = []) : e.RootAlone := by
  intro leaf member _
  rw [leaves_of_flat flat] at member ⊢
  rw [List.mem_singleton.mp member]

theorem Sums.rootAlone {e : Failure} {parts : List Failure} (sums : e.Sums parts)
    (outside : ∀ part ∈ parts, ∃ s inner, under s inner = part) : e.RootAlone := by
  have below (part : Failure) (member : part ∈ parts) (leaf : Failure)
      (inside : leaf ∈ part.leaves) : leaf.path ≠ [] := by
    obtain ⟨s, inner, rfl⟩ := outside part member
    rw [leaves_under] at inside
    obtain ⟨own, -, rfl⟩ := List.mem_map.mp inside
    rw [path_under]
    exact List.cons_ne_nil s own.path
  intro leaf member here
  rcases sums with single | ⟨nonempty, gathers⟩
  · exact absurd here (below e single leaf member)
  · rw [← gathers.nested] at nonempty
    rw [leaves_of_nested nonempty, List.mem_flatMap, gathers.nested] at member
    obtain ⟨part, inside, member⟩ := member
    exact absurd here (below part inside leaf member)

theorem RootAlone.not_clash {e a b : Failure} (alone : e.RootAlone) (first : a ∈ e.leaves)
    (second : b ∈ e.leaves) : ¬ a.path.Clash b.path := by
  have single {a b : Failure} (first : a ∈ e.leaves) (second : b ∈ e.leaves) (here : a.path = []) :
      b.path = [] := by
    rw [alone a first here, List.mem_singleton] at second
    rw [second, here]
  rintro (⟨here, there⟩ | ⟨there, here⟩)
  · rw [single first second here] at there
    cases there
  · rw [single second first here] at there
    cases there

theorem RootAlone.nodup_places {e : Failure} (alone : e.RootAlone)
    (distinct : (e.leaves.map (·.path)).Nodup) : (e.leaves.map place).Nodup := by
  rw [List.Nodup, List.pairwise_map] at distinct ⊢
  refine distinct.imp_of_mem fun first second apart same => ?_
  exact apart ((place_eq_iff.mp same).resolve_right (alone.not_clash first second))

-- The entry of a place is the message of the first leaf that is written like it.
theorem lookup_place {e a : Failure} (member : a ∈ e.leaves) :
    ∃ b ∈ e.leaves, e.leaves.find? (·.place = a.place) = some b ∧
      (b.path = a.path ∨ b.path.Clash a.path) ∧
      e.fieldMessages.lookup a.place = some b.message := by
  obtain ⟨b, inside, found, same⟩ := find?_place member
  refine ⟨b, inside, found, place_eq_iff.mp same, ?_⟩
  rw [lookup_fieldMessages, found, Option.map_some]

end Failure

namespace Check

-- Whether a check that blames the value itself blames nothing else.
def RootAlone (check : Check) : Prop := ∀ value e, check value = .error e → e.RootAlone

theorem rootAlone_leaf {l : Leaf} (builtin : l.IsBuiltin) : RootAlone l.check := by
  intro value e refused
  cases l with
  | primitive p => exact Failure.rootAlone_of_flat (p.check_flat refused).2
  | exact expected => exact Failure.rootAlone_of_flat (Check.exact_flat refused).2
  | rule => cases builtin

theorem rootAlone_each (inner : Check) (failFast : Bool) : RootAlone (each inner failFast) := by
  intro value e refused
  rcases each_eq_error refused with rfl | ⟨items, parts, -, sums, from'⟩
  · exact Failure.rootAlone_of_flat rfl
  · refine sums.rootAlone fun part member => ?_
    obtain ⟨i, -, f, -, -, placed⟩ := from' part member
    exact ⟨_, f, placed⟩

theorem rootAlone_tuple (checks : List Check) (failFast : Bool) :
    RootAlone (tuple checks failFast) := by
  intro value e refused
  rcases tuple_eq_error refused with rfl | ⟨items, -, -, rfl⟩ | ⟨items, parts, -, sums, from'⟩
  · exact Failure.rootAlone_of_flat rfl
  · exact Failure.rootAlone_of_flat rfl
  · refine sums.rootAlone fun part member => ?_
    obtain ⟨i, -, -, f, -, -, -, placed⟩ := from' part member
    exact ⟨_, f, placed⟩

theorem rootAlone_record (fields : List (Field Check)) (extra : ExtraKeys) (failFast : Bool) :
    RootAlone (record fields extra failFast) := by
  intro value e refused
  rcases record_eq_error refused with rfl | ⟨members, parts, -, sums, from'⟩
  · exact Failure.rootAlone_of_flat rfl
  · refine sums.rootAlone fun part member => ?_
    rcases from' part member with ⟨field, -, failed⟩ | ⟨other, -, failed⟩
    · rcases Field.entry_eq_error failed with ⟨-, -, -, -, f, -, placed⟩ | ⟨-, -, placed⟩
      · exact ⟨_, f, placed⟩
      · exact ⟨_, _, placed⟩
    · exact ⟨_, _, (ExtraKeys.entry_eq_error failed).2⟩

theorem rootAlone_allOf {checks : List Check} (alone : ∀ check ∈ checks, RootAlone check) :
    RootAlone (allOf checks) := by
  intro value e refused
  obtain ⟨check, member, given, failed⟩ := allOf_eq_error refused
  exact alone check member given e failed

end Check

namespace Validator

variable {ι : Type}

mutual

-- Whether no alternatives are tried on the value itself; for its parts they may be.
def Committed : Validator ι → Prop
  | leaf _ l => l.IsBuiltin
  | record _ _ _ _ | each _ _ _ | tuple _ _ _ => True
  | combinator _ mode children => mode = .allOf ∧ CommittedAll children

def CommittedAll : List (Validator ι) → Prop
  | [] => True
  | v :: rest => v.Committed ∧ CommittedAll rest

end

mutual

theorem Committed.rootAlone : (v : Validator ι) → v.Committed → v.check.RootAlone
  | leaf _ _, committed => Check.rootAlone_leaf committed
  | record _ fields extra failFast, _ => Check.rootAlone_record (fieldChecks fields) extra failFast
  | each _ inner failFast, _ => Check.rootAlone_each inner.check failFast
  | tuple _ items failFast, _ => Check.rootAlone_tuple (checks items) failFast
  | combinator _ _ children, committed => by
    obtain ⟨rfl, committed⟩ := committed
    exact Check.rootAlone_allOf (CommittedAll.rootAlone children committed)

theorem CommittedAll.rootAlone : (vs : List (Validator ι)) → CommittedAll vs →
    ∀ check ∈ checks vs, check.RootAlone
  | [], _ => by simp [checks]
  | v :: rest, committed => by
    have first := Committed.rootAlone v committed.1
    have others := CommittedAll.rootAlone rest committed.2
    exact List.forall_mem_cons.mpr ⟨first, others⟩

end

theorem place_eq_iff_of_check {v : Validator ι} {value : Json} {e : Failure}
    (refused : v.check value = .error e) :
    (∀ a ∈ e.leaves, ∀ b ∈ e.leaves,
        a.place = b.place ↔ a.path = b.path ∨ a.path.Clash b.path) ∧
      (∀ a ∈ e.leaves, ∃ b ∈ e.leaves, e.leaves.find? (·.place = a.place) = some b ∧
        (b.path = a.path ∨ b.path.Clash a.path) ∧
        e.fieldMessages.lookup a.place = some b.message) ∧
      (v.Committed → ∀ a ∈ e.leaves, ∀ b ∈ e.leaves, a.place = b.place → a.path = b.path) := by
  refine ⟨fun _ _ _ _ => Failure.place_eq_iff, fun _ member => Failure.lookup_place member, ?_⟩
  intro committed a first b second same
  have alone := Committed.rootAlone v committed value e refused
  exact (Failure.place_eq_iff.mp same).resolve_right (alone.not_clash first second)

-- The member `$` of a member `$`. Alternatives for a part of the value do no harm.
def price : Validator Unit :=
  .record ()
    [⟨"$", .required, some (.combinator () .anyOf [.leaf () (.primitive .integer),
      .record () [⟨"$", .required, some (.leaf () (.primitive .integer))⟩] .reject false])⟩]
    .reject false

def priceRefused : Json := .object [("$", .object [("$", .string "x")])]

theorem place_price :
    ∃ e, price.check priceRefused = .error e ∧
      e.leaves.map (·.path) = [[.key "$"], [.key "$", .key "$"]] ∧
      (∀ a ∈ e.leaves, ∀ b ∈ e.leaves, a.place = b.place → a.path = b.path) ∧
      e.fieldMessages.map (·.1) = ["$", "$.$"] := by
  obtain ⟨e, refused, paths, places⟩ : ∃ e, price.check priceRefused = .error e ∧
      e.leaves.map (·.path) = [[.key "$"], [.key "$", .key "$"]] ∧
      e.fieldMessages.map (·.1) = ["$", "$.$"] := by
    with_unfolding_all exact ⟨_, rfl, rfl, rfl⟩
  have committed : price.Committed := trivial
  exact ⟨e, refused, paths, (place_eq_iff_of_check refused).2.2 committed, places⟩

-- The same alternatives on the value itself.
def amount : Validator Unit :=
  .combinator () .anyOf [.leaf () (.primitive .integer),
    .record () [⟨"$", .required, some (.leaf () (.primitive .integer))⟩] .reject false]

theorem place_clash :
    ∃ e a b, amount.check (.object [("$", .string "x")]) = .error e ∧ e.leaves = [a, b] ∧
      a.path ≠ b.path ∧ a.place = b.place ∧ e.fieldMessages = [(b.place, a.message)] := by
  with_unfolding_all exact ⟨_, _, _, rfl, rfl, by simp, rfl, rfl⟩

end Validator

end Conform
