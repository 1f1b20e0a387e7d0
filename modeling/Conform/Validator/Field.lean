import Conform.Json.Basic

set_option autoImplicit false

/-!
What a record declares: its fields, what happens when one is absent, and what happens
to members that are not declared.
-/

namespace Conform

inductive Absence where
  | required
  | default (value : Json)
  | optional

/-- A declared field of a record. Without an inner check it takes any value. -/
structure Field (α : Type) where
  name : String
  absence : Absence
  inner : Option α

namespace Field

def map {α β : Type} (f : α → β) (field : Field α) : Field β :=
  ⟨field.name, field.absence, field.inner.map f⟩

def attach {α β : Type} (field : Field α) (inner : β) : Field β :=
  ⟨field.name, field.absence, some inner⟩

def isRequired {α : Type} (field : Field α) : Bool :=
  match field.absence with
  | .required => true
  | _ => false

def default? {α : Type} (field : Field α) : Option Json :=
  match field.absence with
  | .default value => some value
  | _ => none

end Field

inductive ExtraKeys where
  | reject
  | ignore
  | keep
deriving DecidableEq

namespace ExtraKeys

def name : ExtraKeys → String
  | reject => "reject"
  | ignore => "ignore"
  | keep => "keep"

def named? (name : String) : Option ExtraKeys :=
  [reject, ignore, keep].find? (·.name = name)

end ExtraKeys

end Conform
