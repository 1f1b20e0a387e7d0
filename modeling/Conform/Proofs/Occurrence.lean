import Conform.Proofs.Denotation

set_option autoImplicit false

/-!
Where fragments stand, in the root of a specification or in the definition of a slot, and where
their validators stand in the validator of the whole. The same trail leads to both.
-/

namespace Conform

open Relation

/-- A place in the definition of a slot, or in the root where there is no such slot. -/
structure Occurrence where
  home : Option Slot
  place : Trail
deriving DecidableEq

namespace Occurrence

def root : Occurrence := ⟨none, []⟩

def inside (slot : Slot) : Occurrence := ⟨some slot, []⟩

def part (o : Occurrence) (step : Step) : Occurrence := ⟨o.home, o.place ++ [step]⟩

-- The other one is this one or stands within its fragment.
def Covers (o other : Occurrence) : Prop := other.home = o.home ∧ o.place <+: other.place

theorem covers_self (o : Occurrence) : o.Covers o := ⟨rfl, List.prefix_rfl⟩

theorem covers_of_part {o other : Occurrence} {step : Step} (covers : (o.part step).Covers other) :
    o.Covers other :=
  ⟨covers.1, (List.prefix_append o.place [step]).trans covers.2⟩

theorem not_part_covers (o : Occurrence) (step : Step) : ¬ (o.part step).Covers o := by
  intro covers
  have longer := covers.2.length_le
  rw [part, List.length_append, List.length_singleton] at longer
  omega

theorem eq_of_parts_cover {o other : Occurrence} {a b : Step} (first : (o.part a).Covers other)
    (second : (o.part b).Covers other) : a = b := by
  have same : o.place ++ [a] = o.place ++ [b] :=
    (List.prefix_of_prefix_length_le first.2 second.2 (by simp [part])).eq_of_length
      (by simp [part])
  simpa using same

end Occurrence

inductive Leads (slots : Slots) : Occurrence → Spec → Trail → Occurrence → Spec → Prop
  | here {o : Occurrence} {spec : Spec} : Leads slots o spec [] o spec
  | through {o target : Occurrence} {slot : Slot} {definition fragment : Spec} {trail : Trail}
      (defined : slots.get? slot = some definition)
      (rest : Leads slots (.inside slot) definition trail target fragment) :
      Leads slots o (.slot slot) trail target fragment
  | into {o target : Occurrence} {spec part fragment : Spec} {step : Step} {trail : Trail}
      (member : (step, part) ∈ spec.parts)
      (rest : Leads slots (o.part step) part trail target fragment) :
      Leads slots o spec (step :: trail) target fragment

namespace Validator

variable {ι : Type}

def step? : Validator ι → Step → Option (Validator ι)
  | record _ fields _ _, .field name => (fields.find? (·.name = name)).bind (·.inner)
  | each _ inner _, .index 0 => some inner
  | tuple _ items _, .index i => items[i]?
  | combinator _ mode children, .child other i => if other = mode then children[i]? else none
  | _, _ => none

-- The validator of the fragment that a trail leads to.
def at? : Validator ι → Trail → Option (Validator ι)
  | v, [] => some v
  | v, step :: rest => (v.step? step).bind fun part => part.at? rest

theorem at?_cons_of_step {v part : Validator ι} {step : Step} (found : v.step? step = some part)
    (rest : Trail) : v.at? (step :: rest) = part.at? rest := by
  rw [at?, found, Option.bind_some]

end Validator

theorem Spec.numbered_getElem? (step : Nat → Step) (position : Nat) (specs : List Spec) (i : Nat) :
    (numbered step position specs)[i]? =
      specs[i]?.map fun spec => (step (position + i), spec) := by
  induction specs generalizing position i with
  | nil => rfl
  | cons spec rest ih =>
    cases i with
    | zero => rfl
    | succ i =>
      rw [numbered, List.getElem?_cons_succ, ih, List.getElem?_cons_succ, Nat.add_right_comm,
        Nat.add_assoc]

theorem Frame.join_tag {ι : Type} (failFast : Bool) (tag : ι) (frame : Frame)
    (vs : List (Validator ι)) : (frame.join failFast tag vs).tag = tag := by
  cases frame with
  | record | combinator => rfl
  | sequence =>
    match vs with
    | [] => rfl
    | [_] => rfl
    | _ :: _ :: _ => rfl

theorem Frame.step?_join_sequence {ι : Type} (failFast : Bool) (tag : ι) {vs : List (Validator ι)}
    {w : Validator ι} {i : Nat} (found : vs[i]? = some w) :
    (Frame.sequence.join failFast tag vs).step? (.index i) = some w := by
  match vs, i with
  | [_], 0 => exact found
  | [_], i + 1 => simp at found
  | _ :: _ :: _, _ => exact found

-- No two fields have the same name, so a name finds the field that has it.
theorem step?_attach {fields : List (Field (Validator Handle))} {vs : List (Validator Handle)}
    (nodup : (fields.map (·.name)).Nodup) {i : Nat} {field : Field (Validator Handle)}
    {w : Validator Handle} (found : fields[i]? = some field) (given : vs[i]? = some w) :
    ((List.zipWith Field.attach fields vs).find? (·.name = field.name)).bind (·.inner) =
      some w := by
  induction fields generalizing vs i with
  | nil => cases found
  | cons first rest ih =>
    cases vs with
    | nil => cases given
    | cons head tail =>
      rw [List.map_cons, List.nodup_cons] at nodup
      cases i with
      | zero =>
        cases found
        cases given
        simp [Field.attach]
      | succ i =>
        rw [List.getElem?_cons_succ] at found given
        have apart : first.name ≠ field.name := fun same =>
          nodup.1 (same ▸ List.mem_map_of_mem (List.mem_of_getElem? found))
        have other : decide ((first.attach head).name = field.name) = false := decide_eq_false apart
        simp only [List.zipWith_cons_cons, List.find?_cons, other]
        exact ih nodup.2 found given

namespace Compiler

variable {c : Compiler}

-- A step to a part of a container leads to the validator of that part.
theorem step?_join {spec part : Spec} {frame : Frame} {vs : List (Validator Handle)} {step : Step}
    {i : Nat} {w : Validator Handle} (planned : c.plan spec = .container frame)
    (found : spec.parts[i]? = some (step, part)) (given : vs[i]? = some w) (failFast : Bool)
    (tag : Handle) : (frame.join failFast tag vs).step? step = some w := by
  rcases plan_container_cases planned with
    ⟨items, rfl, rfl⟩ | ⟨mode, children, rfl, -, rfl⟩ |
      ⟨entries, extra, fields, rfl, declares, rfl⟩
  · rw [Spec.parts, Spec.numbered_getElem?, Nat.zero_add] at found
    obtain ⟨_, -, same⟩ := Option.map_eq_some_iff.mp found
    cases same
    exact Frame.step?_join_sequence failFast tag given
  · rw [Spec.parts, Spec.numbered_getElem?, Nat.zero_add] at found
    obtain ⟨_, -, same⟩ := Option.map_eq_some_iff.mp found
    cases same
    exact (if_pos rfl).trans given
  · rw [parts_record declares, List.getElem?_map] at found
    obtain ⟨⟨field, entry⟩, both, same⟩ := Option.map_eq_some_iff.mp found
    cases same
    exact step?_attach declares.nodup (List.getElem?_zip_eq_some.mp both).1 given

theorem parts_leaf {spec : Spec} {entry : Entry} (planned : c.plan spec = .leaf entry) :
    spec.parts = [] := by
  rcases plan_leaf_cases planned with ⟨v, rfl, -⟩ | ⟨marker, rfl, -⟩ | ⟨value, rfl, -⟩ <;> rfl

-- What stands for a shape has sound keys, so that a trail leads to each fragment it reaches.
theorem Denotes.leads {spec fragment : Spec} {shape : Validator Unit}
    (denotes : c.Denotes spec shape) (reaches : Reaches c.slots spec fragment) (o : Occurrence) :
    ∃ trail target, Leads c.slots o spec trail target fragment := by
  induction reaches using ReflTransGen.head_induction_on generalizing shape o with
  | refl => exact ⟨[], o, .here⟩
  | @head spec next mentions _ ih =>
    obtain ⟨other, further⟩ := denotes.mentioned mentions
    cases mentions with
    | definition defined =>
      obtain ⟨trail, target, leads⟩ := ih further (.inside _)
      exact ⟨trail, target, .through defined leads⟩
    | child member =>
      cases denotes with
      | leaf planned =>
        rw [children_leaf planned] at member
        cases member
      | slot => cases member
      | container planned _ =>
        rw [← (parts_container planned).1] at member
        obtain ⟨⟨step, part⟩, inside, rfl⟩ := List.mem_map.mp member
        obtain ⟨trail, target, leads⟩ := ih further (o.part step)
        exact ⟨step :: trail, target, .into inside leads⟩

end Compiler

end Conform
