import Conform.Failure.Outcome
import Conform.Failure.Views
import Conform.Proofs.PathText
import Mathlib.Data.List.Nodup
import Mathlib.Data.String.Basic
import Mathlib.Tactic.Tauto

set_option autoImplicit false

/-!
The failures without parts, which say what is wrong and where, and the messages that are kept
of them. One place can be written like another only if one is the value itself and the other
its member `$`.
-/

namespace Conform

namespace Sorted

variable {α : Type}

theorem lookup_put (key : String) (value : α) (entries : List (String × α)) (other : String) :
    (put key value entries).lookup other =
      if other = key then some value else entries.lookup other := by
  induction entries with
  | nil => rw [put, Members.lookup_cons]
  | cons entry rest ih =>
    obtain ⟨name, old⟩ := entry
    rw [put]
    split
    · rw [Members.lookup_cons]
    split
    next same =>
      subst same
      rw [Members.lookup_cons, Members.lookup_cons]
      split <;> rfl
    next apart =>
      rw [Members.lookup_cons, Members.lookup_cons, ih]
      split <;> split <;> simp_all

theorem length_put {key : String} {entries : List (String × α)}
    (absent : entries.lookup key = none) (value : α) :
    (put key value entries).length = entries.length + 1 := by
  induction entries with
  | nil => rfl
  | cons entry rest ih =>
    obtain ⟨name, old⟩ := entry
    rw [Members.lookup_cons] at absent
    rw [put]
    split
    · rfl
    split
    next same => simp [same] at absent
    next apart =>
      rw [if_neg apart] at absent
      simp [ih absent]

theorem mem_put {key : String} {value : α} {entries : List (String × α)} {entry : String × α}
    (member : entry ∈ put key value entries) :
    entry = (key, value) ∨ entry ∈ entries := by
  induction entries with
  | nil => exact .inl (by simpa [put] using member)
  | cons first rest ih =>
    rw [put] at member
    split at member
    · simpa using member
    · split at member <;> simp at member ⊢ <;> tauto

theorem pairwise_put {key : String} {value : α} {entries : List (String × α)}
    (sorted : (entries.map (·.1)).Pairwise (· < ·)) :
    ((put key value entries).map (·.1)).Pairwise (· < ·) := by
  induction entries with
  | nil => simp [put]
  | cons entry rest ih =>
    obtain ⟨other, old⟩ := entry
    obtain ⟨above, others⟩ := List.pairwise_cons.mp sorted
    rw [put]
    split
    next before =>
      refine List.pairwise_cons.mpr ⟨fun name member => ?_, sorted⟩
      rcases List.mem_cons.mp member with rfl | member
      · exact before
      · exact before.trans (above name member)
    split
    next same =>
      subst same
      exact sorted
    next before apart =>
      refine List.pairwise_cons.mpr ⟨fun name member => ?_, ih others⟩
      obtain ⟨added, inside, rfl⟩ := List.mem_map.mp member
      rcases mem_put inside with rfl | inside
      · exact lt_of_le_of_ne (not_lt.mp before) (Ne.symm apart)
      · exact above _ (List.mem_map_of_mem inside)

end Sorted

-- Whether two paths are written alike without being the same.
def Path.Clash (p q : Path) : Prop := p = [] ∧ q = [.key "$"] ∨ p = [.key "$"] ∧ q = []

namespace Failure

theorem field?_eq_dollar_iff {e : Failure} : e.field? = some "$" ↔ e.path = [.key "$"] := by
  have written : Path.field? [.key "$"] = some "$" := rfl
  rw [field?, ← written, Path.field?_injective.eq_iff]

theorem field?_eq_none_iff {e : Failure} : e.field? = none ↔ e.path = [] := by
  have empty : Path.field? [] = none := rfl
  rw [field?, ← empty, Path.field?_injective.eq_iff]

theorem place_eq_iff {e f : Failure} :
    e.place = f.place ↔ e.path = f.path ∨ e.path.Clash f.path := by
  have same : e.path = f.path ↔ e.field? = f.field? := Path.field?_injective.eq_iff.symm
  rw [Path.Clash, same, ← field?_eq_dollar_iff, ← field?_eq_dollar_iff, ← field?_eq_none_iff,
    ← field?_eq_none_iff, place, place]
  cases e.field? <;> cases f.field? <;> simp [eq_comm]

theorem flatten_eq (e : Failure) : e.flatten = e :: e.nested.flatMap flatten := by
  obtain ⟨code, message, path, params, nested⟩ := e
  rw [flatten, flattenAll_eq_flatMap]

theorem mem_flatten_iff {e part : Failure} :
    part ∈ e.flatten ↔ part = e ∨ ∃ inner ∈ e.nested, part ∈ inner.flatten := by
  rw [flatten_eq, List.mem_cons, List.mem_flatMap]

def leaves (e : Failure) : List Failure := e.flatten.filter fun part => !part.hasNested

theorem fieldMessages_eq (e : Failure) : e.fieldMessages = e.leaves.foldl addMessage [] := rfl

theorem leaves_of_flat {e : Failure} (flat : e.nested = []) : e.leaves = [e] := by
  obtain ⟨code, message, path, params, nested⟩ := e
  obtain rfl : nested = [] := flat
  rfl

theorem leaves_of_nested {e : Failure} (parts : e.nested ≠ []) :
    e.leaves = e.nested.flatMap leaves := by
  obtain ⟨code, message, path, params, nested⟩ := e
  have here : hasNested ⟨code, message, path, params, nested⟩ = true := by
    simpa [hasNested] using parts
  rw [leaves, flatten, List.filter_cons, here, flattenAll_eq_flatMap, List.filter_flatMap]
  rfl

mutual

theorem flatten_under (s : Segment) : (e : Failure) →
    (e.under s).flatten = e.flatten.map (under s)
  | ⟨_, _, _, _, nested⟩ => by
    rw [under, flatten, flatten, List.map_cons, under, flattenAll_under s nested]

theorem flattenAll_under (s : Segment) : (parts : List Failure) →
    flattenAll (allUnder s parts) = (flattenAll parts).map (under s)
  | [] => rfl
  | e :: rest => by
    rw [allUnder, flattenAll, flattenAll, List.map_append, flatten_under s e,
      flattenAll_under s rest]

end

theorem under_of_flat {e : Failure} (flat : e.nested = []) (s : Segment) :
    e.under s = { e with path := s :: e.path } := by
  obtain ⟨code, message, path, params, nested⟩ := e
  obtain rfl : nested = [] := flat
  rfl

theorem path_under (s : Segment) (e : Failure) : (e.under s).path = s :: e.path := by
  cases e
  rfl

theorem code_under (s : Segment) (e : Failure) : (e.under s).code = e.code := by
  cases e
  rfl

theorem message_under (s : Segment) (e : Failure) : (e.under s).message = e.message := by
  cases e
  rfl

theorem params_under (s : Segment) (e : Failure) : (e.under s).params = e.params := by
  cases e
  rfl

theorem nested_under (s : Segment) (e : Failure) :
    (e.under s).nested = e.nested.map (under s) := by
  obtain ⟨code, message, path, params, nested⟩ := e
  exact allUnder_eq_map s nested

theorem hasNested_under (s : Segment) (e : Failure) : (e.under s).hasNested = e.hasNested := by
  rw [hasNested, hasNested, nested_under, List.isEmpty_map]

theorem leaves_under (s : Segment) (e : Failure) : (e.under s).leaves = e.leaves.map (under s) := by
  rw [leaves, leaves, flatten_under, List.filter_map]
  simp only [Function.comp_def, hasNested_under]

theorem lookup_addMessage (entries : List (String × String)) (leaf : Failure) (key : String) :
    (addMessage entries leaf).lookup key =
      (entries.lookup key).or (if leaf.place = key then some leaf.message else none) := by
  rw [addMessage]
  split
  next found =>
    split
    next same => rw [← same, found]; rfl
    next => rw [Option.or_none]
  next absent =>
    rw [Sorted.lookup_put]
    split
    next same => rw [same, absent, if_pos rfl, Option.none_or]
    next apart => rw [if_neg (Ne.symm apart), Option.or_none]

theorem lookup_foldl_addMessage (leaves : List Failure) (entries : List (String × String))
    (key : String) :
    (leaves.foldl addMessage entries).lookup key =
      (entries.lookup key).or ((leaves.find? (·.place = key)).map (·.message)) := by
  induction leaves generalizing entries with
  | nil => simp
  | cons leaf rest ih =>
    rw [List.foldl_cons, ih, lookup_addMessage, Option.or_assoc, List.find?_cons]
    by_cases same : leaf.place = key <;> simp [same]

-- Of the leaves at a place the first gives the message.
theorem lookup_fieldMessages (e : Failure) (key : String) :
    e.fieldMessages.lookup key = (e.leaves.find? (·.place = key)).map (·.message) := by
  rw [fieldMessages_eq, lookup_foldl_addMessage, List.lookup_nil, Option.none_or]

theorem length_foldl_addMessage {leaves : List Failure} {entries : List (String × String)}
    (distinct : (leaves.map place).Nodup)
    (absent : ∀ leaf ∈ leaves, entries.lookup leaf.place = none) :
    (leaves.foldl addMessage entries).length = entries.length + leaves.length := by
  induction leaves generalizing entries with
  | nil => rfl
  | cons leaf rest ih =>
    simp only [List.map_cons, List.nodup_cons] at distinct
    have here : entries.lookup leaf.place = none := absent leaf (by simp)
    have longer : (addMessage entries leaf).length = entries.length + 1 := by
      rw [addMessage, here]
      exact Sorted.length_put here leaf.message
    rw [List.foldl_cons, ih distinct.2, longer, List.length_cons]
    · omega
    · intro other member
      have apart : leaf.place ≠ other.place := fun same =>
        distinct.1 (same ▸ List.mem_map_of_mem member)
      rw [lookup_addMessage, absent other (List.mem_cons_of_mem _ member), if_neg apart]
      rfl

theorem length_fieldMessages {e : Failure} (distinct : (e.leaves.map place).Nodup) :
    e.fieldMessages.length = e.leaves.length := by
  rw [fieldMessages_eq, length_foldl_addMessage distinct (by simp)]
  simp

theorem find?_place {e a : Failure} (member : a ∈ e.leaves) :
    ∃ b ∈ e.leaves, e.leaves.find? (·.place = a.place) = some b ∧ b.place = a.place := by
  have found : (e.leaves.find? (·.place = a.place)).isSome :=
    List.find?_isSome.mpr ⟨a, member, by simp⟩
  obtain ⟨b, found⟩ := Option.isSome_iff_exists.mp found
  exact ⟨b, List.mem_of_find?_eq_some found, found, by simpa using List.find?_some found⟩

theorem lookup_place_of_nodup {e : Failure} (distinct : (e.leaves.map place).Nodup)
    {leaf : Failure} (member : leaf ∈ e.leaves) :
    e.fieldMessages.lookup leaf.place = some leaf.message := by
  obtain ⟨first, inside, found, same⟩ := find?_place member
  rw [lookup_fieldMessages, found, Option.map_some,
    List.inj_on_of_nodup_map distinct inside member same]

end Failure

end Conform
