import Conform.Proofs.Plan

set_option autoImplicit false

/-!
Shapes of validators that are newly made: an instance has the shape that it was made from and
tags that are new, and a container the shape that its frame gives to those of its parts.
-/

namespace Conform

-- The tags that have been handed out between two next ones, all of them in order.
structure Numbered (next : Handle) (tags : List Handle) (after : Handle) : Prop where
  order : tags = List.range' next tags.length
  last : after = next + tags.length

theorem numbered_nil (next : Handle) : Numbered next [] next := ⟨rfl, rfl⟩

theorem Numbered.cons {next after : Handle} {tags : List Handle}
    (inner : Numbered (next + 1) tags after) : Numbered next (next :: tags) after := by
  constructor
  · rw [List.length_cons, List.range'_succ, ← inner.order]
  · rw [inner.last, List.length_cons, Nat.add_right_comm, Nat.add_assoc]

theorem Numbered.append {next middle after : Handle} {tags others : List Handle}
    (first : Numbered next tags middle) (second : Numbered middle others after) :
    Numbered next (tags ++ others) after := by
  constructor
  · rw [List.length_append, ← List.range'_append_1, ← first.order, ← first.last, ← second.order]
  · rw [second.last, first.last, List.length_append, Nat.add_assoc]

namespace Validator

variable {ι : Type}

theorem shapes_eq_map (vs : List (Validator ι)) : shapes vs = vs.map shape := by
  induction vs with
  | nil => rfl
  | cons v rest ih => rw [shapes, ih, List.map_cons]

theorem shapesOfFields_attach {α : Type} (fields : List (Field α)) (vs : List (Validator ι)) :
    shapesOfFields (List.zipWith Field.attach fields vs) =
      List.zipWith Field.attach fields (vs.map shape) := by
  induction fields generalizing vs with
  | nil => rfl
  | cons field fields ih =>
    cases vs with
    | nil => rfl
    | cons v vs =>
      simp only [List.zipWith_cons_cons, List.map_cons, ← ih]
      rfl

mutual

theorem instantiate_shape : (pattern : Validator Unit) → (next : Handle) →
    (pattern.instantiate.run next).1.shape = pattern
  | leaf _ _, _ => rfl
  | record _ fields extra failFast, next => by
    change record () (shapesOfFields ((instantiateFields fields).run (next + 1)).1) _ _ = _
    rw [instantiate_shapesOfFields fields]
  | each _ inner failFast, next => by
    change each () (inner.instantiate.run (next + 1)).1.shape _ = _
    rw [instantiate_shape inner]
  | tuple _ items failFast, next => by
    change tuple () (shapes ((instantiateAll items).run (next + 1)).1) _ = _
    rw [instantiate_shapes items]
  | combinator _ mode children, next => by
    change combinator () mode (shapes ((instantiateAll children).run (next + 1)).1) = _
    rw [instantiate_shapes children]

theorem instantiate_shapes : (patterns : List (Validator Unit)) → (next : Handle) →
    shapes ((instantiateAll patterns).run next).1 = patterns
  | [], _ => rfl
  | v :: rest, next => by
    change (v.instantiate.run next).1.shape ::
      shapes ((instantiateAll rest).run (v.instantiate.run next).2).1 = _
    rw [instantiate_shape v, instantiate_shapes rest]

theorem instantiate_shapesOfFields : (patterns : List (Field (Validator Unit))) →
    (next : Handle) → shapesOfFields ((instantiateFields patterns).run next).1 = patterns
  | [], _ => rfl
  | ⟨name, absence, some v⟩ :: rest, next => by
    change (⟨name, absence, some (v.instantiate.run next).1.shape⟩ : Field (Validator Unit)) ::
      shapesOfFields ((instantiateFields rest).run (v.instantiate.run next).2).1 = _
    rw [instantiate_shape v, instantiate_shapesOfFields rest]
  | ⟨name, absence, none⟩ :: rest, next => by
    change (⟨name, absence, none⟩ : Field (Validator Unit)) ::
      shapesOfFields ((instantiateFields rest).run next).1 = _
    rw [instantiate_shapesOfFields rest]

end

mutual

theorem instantiate_numbered : (pattern : Validator Unit) → (next : Handle) →
    Numbered next (pattern.instantiate.run next).1.tags (pattern.instantiate.run next).2
  | leaf _ _, next => (numbered_nil (next + 1)).cons
  | record _ fields _ _, next => (instantiateFields_numbered fields (next + 1)).cons
  | each _ inner _, next => (instantiate_numbered inner (next + 1)).cons
  | tuple _ items _, next => (instantiateAll_numbered items (next + 1)).cons
  | combinator _ _ children, next => (instantiateAll_numbered children (next + 1)).cons

theorem instantiateAll_numbered : (patterns : List (Validator Unit)) → (next : Handle) →
    Numbered next (tagsOfAll ((instantiateAll patterns).run next).1)
      ((instantiateAll patterns).run next).2
  | [], next => numbered_nil next
  | v :: rest, next => (instantiate_numbered v next).append (instantiateAll_numbered rest _)

theorem instantiateFields_numbered : (patterns : List (Field (Validator Unit))) →
    (next : Handle) → Numbered next (tagsOfFields ((instantiateFields patterns).run next).1)
      ((instantiateFields patterns).run next).2
  | [], next => numbered_nil next
  | ⟨_, _, some v⟩ :: rest, next =>
    (instantiate_numbered v next).append (instantiateFields_numbered rest _)
  | ⟨_, _, none⟩ :: rest, next => instantiateFields_numbered rest next

end

end Validator

def Entry.shape : Entry → Validator Unit
  | shared v => v.shape
  | factory pattern => pattern

theorem Entry.instantiate_shape {entry : Entry} {next after : Handle} {v : Validator Handle}
    (made : entry.instantiate.run next = (v, after)) : v.shape = entry.shape := by
  cases entry with
  | shared w =>
    cases made
    rfl
  | factory pattern =>
    have same : v = (pattern.instantiate.run next).1 := (congrArg Prod.fst made).symm
    rw [same, Validator.instantiate_shape, Entry.shape]

theorem Frame.join_shape {ι : Type} (failFast : Bool) (tag : ι) (frame : Frame)
    (vs : List (Validator ι)) :
    (frame.join failFast tag vs).shape = frame.join failFast () (vs.map Validator.shape) := by
  cases frame with
  | record fields extra =>
    simp only [join, Validator.shape, Validator.shapesOfFields_attach]
  | combinator mode => simp only [join, Validator.shape, Validator.shapes_eq_map]
  | sequence =>
    cases vs with
    | nil => rfl
    | cons v rest =>
      cases rest with
      | nil => rfl
      | cons w rest => simp only [join, Validator.shape, Validator.shapes_eq_map, List.map_cons]

end Conform
