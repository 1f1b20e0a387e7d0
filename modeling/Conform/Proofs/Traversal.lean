import Conform.Proofs.Members
import Conform.Proofs.Rerooting

set_option autoImplicit false

/-!
The views of a failure go through its nodes in one order and leave none out. A step that is put in
front of a failure changes the paths of the nodes and nothing else that is seen of them.
-/

namespace Conform

def FirstOf {α : Type} (p : α → Prop) (xs : List α) (x : α) : Prop :=
  p x ∧ ∃ before after, xs = before ++ x :: after ∧ ∀ y ∈ before, ¬ p y

section

variable {α : Type} {p : α → Prop}

theorem find?_eq_some_iff_firstOf {xs : List α} {x : α} [DecidablePred p] :
    xs.find? (fun y => p y) = some x ↔ FirstOf p xs x := by
  simp [List.find?_eq_some_iff_append, FirstOf]

theorem exists_firstOf {xs : List α} {x : α} (member : x ∈ xs) (holds : p x) :
    ∃ first, FirstOf p xs first := by
  classical
  have found : (xs.find? fun y => p y).isSome := List.find?_isSome.mpr ⟨x, member, by simpa⟩
  obtain ⟨first, found⟩ := Option.isSome_iff_exists.mp found
  exact ⟨first, find?_eq_some_iff_firstOf.mp found⟩

theorem FirstOf.mem {xs : List α} {x : α} (first : FirstOf p xs x) : x ∈ xs := by
  obtain ⟨-, before, after, rfl, -⟩ := first
  simp

end

namespace Failure

def LeafAt (key : String) (node : Failure) : Prop :=
  node.nested = [] ∧ node.field?.getD "$" = key

instance (key : String) : DecidablePred (LeafAt key) := fun node =>
  inferInstanceAs (Decidable (node.nested = [] ∧ node.field?.getD "$" = key))

theorem sorted_fieldMessages (e : Failure) : (e.fieldMessages.map (·.1)).Pairwise (· < ·) := by
  have added (leaves : List Failure) (entries : List (String × String))
      (sorted : (entries.map (·.1)).Pairwise (· < ·)) :
      ((leaves.foldl addMessage entries).map (·.1)).Pairwise (· < ·) := by
    induction leaves generalizing entries with
    | nil => exact sorted
    | cons leaf rest ih =>
      apply ih
      rw [addMessage]
      split
      · exact sorted
      · exact Sorted.pairwise_put sorted
  rw [fieldMessages_eq]
  exact added e.leaves [] .nil

theorem mem_fieldMessages_iff {e : Failure} {key message : String} :
    (key, message) ∈ e.fieldMessages ↔
      ∃ node, FirstOf (LeafAt key) e.flatten node ∧ node.message = message := by
  have distinct : (Members.names e.fieldMessages).Nodup :=
    e.sorted_fieldMessages.imp fun less => less.ne
  have same (node : Failure) : ((!node.hasNested) = true ∧ decide (node.place = key) = true) ↔
      LeafAt key node := by
    rw [decide_eq_true_iff]
    simp [hasNested, LeafAt, place]
  rw [← Members.lookup_eq_some_iff distinct, lookup_fieldMessages, leaves, List.find?_filter]
  simp only [same, Option.map_eq_some_iff, find?_eq_some_iff_firstOf]

theorem views_agree (e : Failure) :
    e.flatten = e :: e.nested.flatMap flatten ∧
    (∀ s, List.Forall₂ (MovedUnder s) e.flatten (e.under s).flatten ∧
      (e.under s).count = e.count) ∧
    e.count = e.flatten.length ∧
    (∀ path node, e.find? path = some node ↔ FirstOf (·.field? = some path) e.flatten node) ∧
    (e.fieldMessages.map (·.1)).Pairwise (· < ·) ∧
    (∀ key, key ∈ e.fieldMessages.map (·.1) ↔ ∃ node ∈ e.flatten, node.LeafAt key) ∧
    ∀ key message, (key, message) ∈ e.fieldMessages ↔
      ∃ node, FirstOf (LeafAt key) e.flatten node ∧ node.message = message := by
  refine ⟨e.flatten_eq, fun s => ⟨?_, ?_⟩, e.count_eq_length_flatten, fun path node => ?_,
    e.sorted_fieldMessages, fun key => ⟨?_, ?_⟩, fun key message => mem_fieldMessages_iff⟩
  · rw [flatten_under, List.forall₂_map_right_iff]
    exact List.forall₂_same.mpr fun node _ => movedUnder_under s node
  · rw [count_eq_length_flatten, count_eq_length_flatten, flatten_under, List.length_map]
  · exact find?_eq_some_iff_firstOf
  · intro member
    obtain ⟨⟨_, message⟩, inside, rfl⟩ := List.mem_map.mp member
    obtain ⟨node, first, -⟩ := mem_fieldMessages_iff.mp inside
    exact ⟨node, first.mem, first.1⟩
  · intro ⟨node, member, leaf⟩
    obtain ⟨first, found⟩ := exists_firstOf member leaf
    exact List.mem_map_of_mem (mem_fieldMessages_iff.mpr ⟨first, found, rfl⟩)

end Failure

end Conform
