import Conform.Schema.Key

set_option autoImplicit false

/-!
Specifications of validators, and the slots through which they share fragments.
-/

namespace Conform

-- The place of a specification that may be given after it is mentioned.
abbrev Slot := Nat

inductive Spec where
  | validator (v : Validator Handle)
  | marker (marker : String)
  | record (fields : List (KeySpec × Spec)) (extra : Option ExtraKeys)
  | sequence (items : List Spec)
  | combinator (mode : Combine) (children : List Spec)
  | literal (value : Json)
  | slot (slot : Slot)

namespace Spec

def kind : Spec → String
  | validator _ => "validator"
  | marker _ => "type"
  | record _ _ => "record"
  | sequence _ => "sequence"
  | combinator _ _ => "combinator"
  | literal _ => "literal"
  | slot _ => "deferred"

def listOf (element : Spec) : Spec := sequence [element]

mutual

-- Texts are markers, arrays sequences, objects records of required fields, all else literals.
def ofJson : Json → Spec
  | .string name => marker name
  | .array items => sequence (ofItems items)
  | .object members => record (ofMembers members) none
  | .null => literal .null
  | .bool b => literal (.bool b)
  | .number n => literal (.number n)

def ofItems : List Json → List Spec
  | [] => []
  | item :: rest => ofJson item :: ofItems rest

def ofMembers : List (String × Json) → List (KeySpec × Spec)
  | [] => []
  | (name, value) :: rest => (.required name, ofJson value) :: ofMembers rest

end

-- The operands that a combinator of this mode stands for; any other specification is one.
def operands (mode : Combine) : Spec → List Spec
  | combinator other children => if other = mode then children else [combinator other children]
  | s => [s]

-- Joins two specifications; operands of the same mode give their children, one level deep.
def combine (mode : Combine) (a b : Spec) : Spec :=
  combinator mode (a.operands mode ++ b.operands mode)

end Spec

/-- The definitions of all slots, where each is given once at most. -/
structure Slots where
  definitions : List (Option Spec)

namespace Slots

def empty : Slots := ⟨[]⟩

def size (s : Slots) : Nat := s.definitions.length

def get? (s : Slots) (slot : Slot) : Option Spec := s.definitions[slot]?.join

def isDefined (s : Slots) (slot : Slot) : Bool := (s.get? slot).isSome

-- A new slot without a definition.
def create (s : Slots) : Slot × Slots := (s.size, ⟨s.definitions ++ [none]⟩)

-- Defines a slot; a slot that has a definition keeps it.
def define? (s : Slots) (slot : Slot) (spec : Spec) : Option Slots :=
  match s.definitions[slot]? with
  | some none => some ⟨s.definitions.set slot (some spec)⟩
  | _ => none

theorem get?_define {s t : Slots} {slot : Slot} {spec : Spec} (h : s.define? slot spec = some t)
    (other : Slot) : t.get? other = if other = slot then some spec else s.get? other := by
  unfold define? at h
  split at h
  · next undefined =>
    cases h
    have inside := (List.getElem?_eq_some_iff.mp undefined).1
    by_cases same : other = slot
    · subst same
      simp [get?, inside]
    · simp [get?, same, Ne.symm same]
  · cases h

theorem size_define {s t : Slots} {slot : Slot} {spec : Spec} (h : s.define? slot spec = some t) :
    t.size = s.size := by
  unfold define? at h
  split at h <;> cases h
  simp [size]

theorem define?_eq_none {s : Slots} {slot : Slot} {definition : Spec}
    (defined : s.get? slot = some definition) (spec : Spec) : s.define? slot spec = none := by
  unfold define?
  split
  · next undefined => simp [get?, undefined] at defined
  · rfl

theorem define?_isSome {s : Slots} {slot : Slot} (inside : slot < s.size)
    (undefined : s.get? slot = none) (spec : Spec) : ∃ t, s.define? slot spec = some t := by
  have found : s.definitions[slot]? = some none := by
    cases held : s.definitions[slot]? with
    | none => exact absurd (List.getElem?_eq_none_iff.mp held) (Nat.not_le.mpr inside)
    | some definition => simpa [get?, held] using undefined
  simp [define?, found]

theorem size_create (s : Slots) : s.create.2.size = s.size + 1 := by
  simp [create, size]

theorem get?_create (s : Slots) (slot : Slot) : s.create.2.get? slot = s.get? slot := by
  by_cases inside : slot < s.definitions.length
  · simp [create, get?, List.getElem?_append_left inside]
  · have outside : s.definitions.length ≤ slot := Nat.le_of_not_lt inside
    rw [create, get?, get?, List.getElem?_append_right outside,
      List.getElem?_eq_none (l := s.definitions) outside]
    cases slot - s.definitions.length <;> rfl

-- Defines a slot, or hands the specification back.
def define (s : Slots) (slot : Slot) (spec : Spec) : Except Spec Slots :=
  match s.define? slot spec with
  | some t => .ok t
  | none => .error spec

end Slots

end Conform
