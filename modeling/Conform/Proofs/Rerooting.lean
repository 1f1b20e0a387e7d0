import Conform.Proofs.Leaves

set_option autoImplicit false

/-!
A failure that is seen from further outside, one step after another. Its text grows at the front,
and the steps can be told from the text.
-/

namespace Conform

-- A step in front of a text that there may be already.
def Segment.join (s : Segment) : Option String → String
  | none => String.ofList s.text
  | some written => String.ofList (s.before written.toList)

namespace Failure

-- The text of the old path is enough to write the new one.
theorem field?_under (s : Segment) (e : Failure) : (e.under s).field? = some (s.join e.field?) := by
  rw [field?, field?, path_under]
  cases e.path with
  | nil => rfl
  | cons t rest => simp [Path.field?, Segment.join, Path.text]

structure MovedUnder (s : Segment) (before after : Failure) : Prop where
  code : after.code = before.code
  message : after.message = before.message
  params : after.params = before.params
  field : after.field? = some (s.join before.field?)

theorem movedUnder_under (s : Segment) (e : Failure) : e.MovedUnder s (e.under s) where
  code := code_under s e
  message := message_under s e
  params := params_under s e
  field := field?_under s e

-- The nodes of one failure are those of the other, moved one by one to the same places in the tree.
inductive Moves (s : Segment) : Failure → Failure → Prop
  | node {before after : Failure} (moved : before.MovedUnder s after)
      (path : after.path = s :: before.path)
      (parts : List.Forall₂ (Moves s) before.nested after.nested) : Moves s before after

mutual

theorem moves_under (s : Segment) : (e : Failure) → Moves s e (e.under s)
  | ⟨_, _, _, _, nested⟩ =>
    .node (movedUnder_under s _) (path_under s _) (moves_allUnder s nested)

theorem moves_allUnder (s : Segment) :
    (parts : List Failure) → List.Forall₂ (Moves s) parts (allUnder s parts)
  | [] => .nil
  | e :: rest => .cons (moves_under s e) (moves_allUnder s rest)

end

mutual

theorem Moves.eq_under {s : Segment} : {e f : Failure} → Moves s e f → f = e.under s
  | ⟨_, _, _, _, _⟩, ⟨_, _, _, _, _⟩, .node moved path parts => by
    rw [under, mk.injEq]
    exact ⟨moved.code, moved.message, path, moved.params, Moves.eq_allUnder parts⟩

theorem Moves.eq_allUnder {s : Segment} :
    {parts moved : List Failure} → List.Forall₂ (Moves s) parts moved → moved = allUnder s parts
  | [], [], .nil => rfl
  | _ :: _, _ :: _, .cons first others => by
    rw [allUnder, first.eq_under, Moves.eq_allUnder others]

end

theorem path_foldr_under (p : Path) (e : Failure) : (p.foldr under e).path = p ++ e.path := by
  induction p with
  | nil => rfl
  | cons s rest ih => rw [List.foldr_cons, path_under, ih, List.cons_append]

theorem field?_foldr_under (p : Path) (e : Failure) :
    (p.foldr under e).field? = p.foldr (fun s written => some (s.join written)) e.field? := by
  induction p with
  | nil => rfl
  | cons s rest ih => rw [List.foldr_cons, field?_under, ih, List.foldr_cons]

/--
A failure of the value itself that is seen from outside, past the last of some steps first. Its
text is put together from the back, and the steps can be read from it, so that no other steps
give the same text.
-/
theorem field?_rerooted (p q : Path) {e f : Failure} (here : e.path = []) (there : f.path = []) :
    (p.foldr under e).field? = p.foldr (fun s written => some (s.join written)) none ∧
      Path.ofField? (p.foldr under e).field? = some p ∧
      ((p.foldr under e).field? = (q.foldr under f).field? ↔ p = q) := by
  have first : (p.foldr under e).path = p := by rw [path_foldr_under, here, List.append_nil]
  have second : (q.foldr under f).path = q := by rw [path_foldr_under, there, List.append_nil]
  have absent : e.field? = none := field?_eq_none_iff.mpr here
  refine ⟨?_, ?_, ?_⟩
  · rw [field?_foldr_under, absent]
  · rw [field?, first, Path.ofField?_field?]
  · rw [field?, field?, first, second, Path.field?_injective.eq_iff]

-- A member of a member, and a member whose name has a point in it.
theorem field?_rerooted_dotted :
    required.path = [] ∧ extraKey.path = [] ∧
      ([Segment.key "a", .index 0, .key "b"].foldr under required).field? = some "a[0].b" ∧
      ([Segment.key "a[0].b"].foldr under extraKey).field? = some "[\"a[0].b\"]" ∧
      Path.ofField? (some "[\"a[0].b\"]") = some [.key "a[0].b"] ∧
      ([Segment.key "a", .index 0, .key "b"].foldr under required).field? ≠
        ([Segment.key "a[0].b"].foldr under extraKey).field? := by
  have here : required.path = [] := rfl
  have there : extraKey.path = [] := rfl
  have plain : ([Segment.key "a", .index 0, .key "b"].foldr under required).field? =
      some "a[0].b" := by
    decide
  have quoted : ([Segment.key "a[0].b"].foldr under extraKey).field? =
      some "[\"a[0].b\"]" := by
    decide
  obtain ⟨-, -, apart⟩ := field?_rerooted [.key "a", .index 0, .key "b"] [.key "a[0].b"] here there
  obtain ⟨-, read, -⟩ := field?_rerooted [.key "a[0].b"] [] there there
  refine ⟨here, there, plain, quoted, quoted ▸ read, ?_⟩
  exact apart.not.mpr (by decide)

end Failure

end Conform
