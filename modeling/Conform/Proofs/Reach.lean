import Conform.Proofs.Plan
import Mathlib.Logic.Relation

set_option autoImplicit false

/-!
Which fragments a specification reaches, through its parts and through what its slots are
defined as.
-/

namespace Conform

open Relation

inductive Mentions (slots : Slots) : Spec → Spec → Prop
  | child {spec next : Spec} (member : next ∈ spec.children) : Mentions slots spec next
  | definition {slot : Slot} {next : Spec} (defined : slots.get? slot = some next) :
      Mentions slots (.slot slot) next

abbrev Reaches (slots : Slots) : Spec → Spec → Prop := ReflTransGen (Mentions slots)

variable {slots : Slots}

theorem mentions_slot {slot : Slot} {next : Spec} :
    Mentions slots (.slot slot) next ↔ slots.get? slot = some next := by
  constructor
  · rintro (⟨⟨⟩⟩ | ⟨defined⟩)
    exact defined
  · exact .definition

theorem mentions_iff_child {spec next : Spec} (apart : ∀ slot, spec ≠ .slot slot) :
    Mentions slots spec next ↔ next ∈ spec.children := by
  constructor
  · rintro (⟨member⟩ | ⟨-⟩)
    · exact member
    · exact absurd rfl (apart _)
  · exact .child

theorem reaches_slot_iff_child {spec : Spec} {slot : Slot} (apart : ∀ slot, spec ≠ .slot slot) :
    Reaches slots spec (.slot slot) ↔
      ∃ child ∈ spec.children, Reaches slots child (.slot slot) := by
  rw [Reaches, ReflTransGen.cases_head_iff]
  constructor
  · rintro (same | ⟨next, mentions, reaches⟩)
    · exact absurd same (apart slot)
    · exact ⟨next, (mentions_iff_child apart).mp mentions, reaches⟩
  · rintro ⟨child, member, reaches⟩
    exact .inr ⟨child, .child member, reaches⟩

theorem reaches_slot_of_defined {slot other : Slot} {definition : Spec}
    (defined : slots.get? slot = some definition) :
    Reaches slots (.slot slot) (.slot other) ↔
      other = slot ∨ Reaches slots definition (.slot other) := by
  rw [Reaches, ReflTransGen.cases_head_iff]
  constructor
  · rintro (same | ⟨next, mentions, reaches⟩)
    · exact .inl (Spec.slot.inj same).symm
    · rw [mentions_slot, defined, Option.some.injEq] at mentions
      exact .inr (mentions ▸ reaches)
  · rintro (rfl | reaches)
    · exact .inl rfl
    · exact .inr ⟨definition, .definition defined, reaches⟩

theorem not_rel_self_of_acc {α : Type} {r : α → α → Prop} {x : α} (acc : Acc r x) : ¬ r x x := by
  induction acc with
  | intro x _ ih => exact fun loop => ih x loop loop

theorem not_reaches_self_of_acc {slot : Slot} {definition : Spec}
    (acc : Acc (Function.swap (Mentions slots)) (.slot slot))
    (defined : slots.get? slot = some definition) : ¬ Reaches slots definition (.slot slot) := by
  intro reaches
  have loop : TransGen (Mentions slots) (.slot slot) (.slot slot) :=
    .head' (.definition defined) reaches
  exact not_rel_self_of_acc acc.transGen (transGen_swap.mpr loop)

namespace Compiler

variable {c : Compiler} {spec : Spec}

theorem ne_slot_of_plan_container {frame : Frame} (planned : c.plan spec = .container frame)
    (slot : Slot) : spec ≠ .slot slot := by
  rintro rfl
  cases planned

theorem ne_slot_of_plan_leaf {entry : Entry} (planned : c.plan spec = .leaf entry)
    (slot : Slot) : spec ≠ .slot slot := by
  rintro rfl
  cases planned

theorem not_reaches_slot_of_leaf {entry : Entry} (planned : c.plan spec = .leaf entry)
    (slot : Slot) : ¬ Reaches slots spec (.slot slot) := by
  rw [reaches_slot_iff_child (ne_slot_of_plan_leaf planned), children_leaf planned]
  simp

end Compiler

end Conform
