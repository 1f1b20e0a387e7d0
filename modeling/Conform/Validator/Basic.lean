import Conform.Failure.Outcome
import Conform.Validator.Field
import Conform.Validator.Primitive

set_option autoImplicit false

/-!
Validators: trees whose leaves check a value and whose nodes say how the parts of a value
are checked. A validator is data; `Validator.check` gives it its meaning.
-/

namespace Conform

abbrev Check := Json → Outcome Json

/-- A check of the user's own, with the settings that it was made with. -/
structure Rule where
  name : String
  title : String
  settings : List (String × Int) := []
  check : Check

inductive Leaf where
  | primitive (kind : Primitive)
  | exact (expected : Json)
  | rule (rule : Rule)

/-- Whether one alternative is enough or each requirement has to hold in turn. -/
inductive Combine where
  | anyOf
  | allOf
deriving DecidableEq

namespace Combine

def name : Combine → String
  | anyOf => "any_of"
  | allOf => "all_of"

def named? (name : String) : Option Combine := [anyOf, allOf].find? (·.name = name)

end Combine

/-- A tree of checks. Each node has a tag, which tells one instance from another. -/
inductive Validator (ι : Type) where
  | leaf (tag : ι) (leaf : Leaf)
  | record (tag : ι) (fields : List (Field (Validator ι))) (extra : ExtraKeys) (failFast : Bool)
  | each (tag : ι) (inner : Validator ι) (failFast : Bool)
  | tuple (tag : ι) (items : List (Validator ι)) (failFast : Bool)
  | combinator (tag : ι) (mode : Combine) (children : List (Validator ι))

namespace Validator

variable {ι : Type}

def tag : Validator ι → ι
  | leaf tag _ => tag
  | record tag _ _ _ => tag
  | each tag _ _ => tag
  | tuple tag _ _ => tag
  | combinator tag _ _ => tag

def fields? : Validator ι → Option (List (Field (Validator ι)))
  | record _ fields _ _ => some fields
  | _ => none

-- The operands that a combinator of this mode stands for; any other validator is one.
def operands (mode : Combine) : Validator ι → List (Validator ι)
  | combinator tag other children =>
    if other = mode then children else [combinator tag other children]
  | v => [v]

-- Joins two validators and takes over the children of operands with the same mode.
def chain (tag : ι) (mode : Combine) (left right : Validator ι) : Validator ι :=
  combinator tag mode (left.operands mode ++ right.operands mode)

end Validator

end Conform
