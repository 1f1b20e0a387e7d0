import Conform.Validator.Basic

set_option autoImplicit false

/-!
Which validators are one and the same. Every instance of a node carries a tag of its own,
a copy carries the tag of its source, and the shape of a validator is what is left without.
-/

namespace Conform

namespace Validator

variable {ι : Type}

mutual

-- Every tag of the tree, each node before its parts.
def tags : Validator ι → List ι
  | leaf tag _ => [tag]
  | record tag fields _ _ => tag :: tagsOfFields fields
  | each tag inner _ => tag :: inner.tags
  | tuple tag items _ => tag :: tagsOfAll items
  | combinator tag _ children => tag :: tagsOfAll children

def tagsOfAll : List (Validator ι) → List ι
  | [] => []
  | v :: rest => v.tags ++ tagsOfAll rest

def tagsOfFields : List (Field (Validator ι)) → List ι
  | [] => []
  | ⟨_, _, some v⟩ :: rest => v.tags ++ tagsOfFields rest
  | ⟨_, _, none⟩ :: rest => tagsOfFields rest

end

-- For each node in order, the position of the first node with its tag.
def sharing [DecidableEq ι] (v : Validator ι) : List Nat :=
  v.tags.map fun tag => v.tags.idxOf tag

mutual

-- The tree without its tags: validators of one structure have one shape.
def shape : Validator ι → Validator Unit
  | leaf _ l => leaf () l
  | record _ fields extra failFast => record () (shapesOfFields fields) extra failFast
  | each _ inner failFast => each () inner.shape failFast
  | tuple _ items failFast => tuple () (shapes items) failFast
  | combinator _ mode children => combinator () mode (shapes children)

def shapes : List (Validator ι) → List (Validator Unit)
  | [] => []
  | v :: rest => v.shape :: shapes rest

def shapesOfFields : List (Field (Validator ι)) → List (Field (Validator Unit))
  | [] => []
  | ⟨name, absence, some v⟩ :: rest => ⟨name, absence, some v.shape⟩ :: shapesOfFields rest
  | ⟨name, absence, none⟩ :: rest => ⟨name, absence, none⟩ :: shapesOfFields rest

end

end Validator

-- Tags that are handed out in order, so that each is new.
abbrev Handle := Nat

def fresh : StateM Handle Handle := modifyGet fun next => (next, next + 1)

namespace Validator

mutual

-- A new instance of a shape.
def instantiate : Validator Unit → StateM Handle (Validator Handle)
  | leaf _ l => return leaf (← fresh) l
  | record _ fields extra failFast => do
    let tag ← fresh
    return record tag (← instantiateFields fields) extra failFast
  | each _ inner failFast => do
    let tag ← fresh
    return each tag (← inner.instantiate) failFast
  | tuple _ items failFast => do
    let tag ← fresh
    return tuple tag (← instantiateAll items) failFast
  | combinator _ mode children => do
    let tag ← fresh
    return combinator tag mode (← instantiateAll children)

def instantiateAll : List (Validator Unit) → StateM Handle (List (Validator Handle))
  | [] => return []
  | v :: rest => do
    let first ← v.instantiate
    return first :: (← instantiateAll rest)

def instantiateFields :
    List (Field (Validator Unit)) → StateM Handle (List (Field (Validator Handle)))
  | [] => return []
  | ⟨name, absence, some v⟩ :: rest => do
    let inner ← v.instantiate
    return ⟨name, absence, some inner⟩ :: (← instantiateFields rest)
  | ⟨name, absence, none⟩ :: rest =>
    return ⟨name, absence, none⟩ :: (← instantiateFields rest)

end

end Validator

end Conform
