import Conform.Proofs.Reach
import Conform.Proofs.Run
import Conform.Proofs.Shape

set_option autoImplicit false

/-!
The shape that a specification stands for once its slots are followed, and why every run
that succeeds gives a validator of that shape, whether or not it meets a slot again.
-/

namespace Conform

theorem Progress.lookup_done_eq_none {p : Progress} {slot : Slot} :
    p.done.lookup slot = none ↔ slot ∉ p.done.map (·.1) := by
  simp only [List.lookup_eq_none_iff, List.mem_map, Prod.forall, not_exists, not_and]
  grind

theorem Progress.mem_done_of_lookup {p : Progress} {slot : Slot} {v : Validator Handle}
    (finished : p.done.lookup slot = some v) : slot ∈ p.done.map (·.1) := by
  by_contra missing
  rw [← Progress.lookup_done_eq_none, finished] at missing
  cases missing

-- What is true of a slot that is finished now and of those finished before is true of all.
theorem Progress.forall_lookup_cons {done : List (Slot × Validator Handle)} {slot : Slot}
    {v : Validator Handle} {holds : Slot → Validator Handle → Prop} (here : holds slot v)
    (before : ∀ other w, done.lookup other = some w → holds other w) :
    ∀ other w, ((slot, v) :: done).lookup other = some w → holds other w := by
  intro other w found
  rw [List.lookup_cons] at found
  split at found
  next same =>
    obtain rfl := eq_of_beq same
    cases found
    exact here
  next => exact before other w found

namespace Compiler

open Relation

mutual

inductive Denotes (c : Compiler) : Spec → Validator Unit → Prop
  | leaf {spec : Spec} {entry : Entry} (planned : c.plan spec = .leaf entry) :
      Denotes c spec entry.shape
  | container {spec : Spec} {frame : Frame} {shapes : List (Validator Unit)}
      (planned : c.plan spec = .container frame) (parts : DenotesAll c spec.children shapes) :
      Denotes c spec (frame.join c.options.failFast () shapes)
  | slot {slot : Slot} {definition : Spec} {shape : Validator Unit}
      (defined : c.slots.get? slot = some definition) (inner : Denotes c definition shape) :
      Denotes c (.slot slot) shape

inductive DenotesAll (c : Compiler) : List Spec → List (Validator Unit) → Prop
  | nil : DenotesAll c [] []
  | cons {spec : Spec} {rest : List Spec} {shape : Validator Unit} {shapes : List (Validator Unit)}
      (first : Denotes c spec shape) (others : DenotesAll c rest shapes) :
      DenotesAll c (spec :: rest) (shape :: shapes)

end

variable {c : Compiler}

theorem DenotesAll.mem {specs : List Spec} {shapes : List (Validator Unit)} {spec : Spec}
    (denotes : DenotesAll c specs shapes) (member : spec ∈ specs) :
    ∃ shape, Denotes c spec shape := by
  induction specs generalizing shapes with
  | nil => cases member
  | cons head rest ih =>
    cases denotes with
    | cons first others =>
      rcases List.mem_cons.mp member with rfl | member
      · exact ⟨_, first⟩
      · exact ih others member

theorem Denotes.mentioned {spec next : Spec} {shape : Validator Unit}
    (denotes : Denotes c spec shape) (mentions : Mentions c.slots spec next) :
    ∃ other, Denotes c next other := by
  cases denotes with
  | leaf planned =>
    rw [mentions_iff_child (ne_slot_of_plan_leaf planned), children_leaf planned] at mentions
    cases mentions
  | container planned parts =>
    rw [mentions_iff_child (ne_slot_of_plan_container planned)] at mentions
    exact parts.mem mentions
  | slot defined inner =>
    rw [mentions_slot, defined, Option.some.injEq] at mentions
    exact ⟨_, mentions ▸ inner⟩

theorem Denotes.reached {spec fragment : Spec} {shape : Validator Unit}
    (denotes : Denotes c spec shape) (reaches : Reaches c.slots spec fragment) :
    ∃ other, Denotes c fragment other := by
  induction reaches with
  | refl => exact ⟨shape, denotes⟩
  | tail _ mentions ih =>
    obtain ⟨_, inner⟩ := ih
    exact inner.mentioned mentions

mutual

theorem Denotes.acc {spec : Spec} {shape : Validator Unit} :
    Denotes c spec shape → Acc (Function.swap (Mentions c.slots)) spec
  | .leaf planned => by
    refine ⟨_, fun next mentions => ?_⟩
    change Mentions c.slots _ next at mentions
    rw [mentions_iff_child (ne_slot_of_plan_leaf planned),
      children_leaf planned] at mentions
    cases mentions
  | .container planned parts => by
    have below := parts.acc
    refine ⟨_, fun next mentions => ?_⟩
    change Mentions c.slots _ next at mentions
    rw [mentions_iff_child (ne_slot_of_plan_container planned)] at mentions
    exact below next mentions
  | .slot defined inner => by
    have below := inner.acc
    refine ⟨_, fun next mentions => ?_⟩
    change Mentions c.slots _ next at mentions
    rw [mentions_slot, defined, Option.some.injEq] at mentions
    exact mentions ▸ below

theorem DenotesAll.acc {specs : List Spec} {shapes : List (Validator Unit)} :
    DenotesAll c specs shapes → ∀ spec ∈ specs, Acc (Function.swap (Mentions c.slots)) spec
  | .nil => by simp
  | .cons first others => by
    have head := first.acc
    have tail := others.acc
    exact List.forall_mem_cons.mpr ⟨head, tail⟩

end

theorem Denotes.eq_of_leaf {spec : Spec} {entry : Entry} {shape : Validator Unit}
    (denotes : c.Denotes spec shape) (planned : c.plan spec = .leaf entry) :
    shape = entry.shape := by
  cases denotes with
  | leaf planned' =>
    cases planned.symm.trans planned'
    rfl
  | container planned' => cases planned.symm.trans planned'
  | slot => cases planned

theorem Denotes.of_container {spec : Spec} {frame : Frame} {shape : Validator Unit}
    (denotes : c.Denotes spec shape) (planned : c.plan spec = .container frame) :
    ∃ shapes, c.DenotesAll spec.children shapes ∧
      shape = frame.join c.options.failFast () shapes := by
  cases denotes with
  | leaf planned' => cases planned.symm.trans planned'
  | container planned' parts =>
    cases planned.symm.trans planned'
    exact ⟨_, parts, rfl⟩
  | slot => cases planned

theorem Denotes.of_slot {slot : Slot} {definition : Spec} {shape : Validator Unit}
    (denotes : c.Denotes (.slot slot) shape) (defined : c.slots.get? slot = some definition) :
    c.Denotes definition shape := by
  cases denotes with
  | leaf planned | container planned => cases planned
  | slot defined' inner =>
    cases defined.symm.trans defined'
    exact inner

mutual

theorem Denotes.unique {spec : Spec} {a b : Validator Unit} :
    Denotes c spec a → Denotes c spec b → a = b
  | .leaf planned, other => (other.eq_of_leaf planned).symm
  | .container planned parts, other => by
    obtain ⟨shapes, others, rfl⟩ := other.of_container planned
    rw [parts.unique others]
  | .slot defined inner, other => inner.unique (other.of_slot defined)

theorem DenotesAll.unique {specs : List Spec} {as bs : List (Validator Unit)} :
    DenotesAll c specs as → DenotesAll c specs bs → as = bs
  | .nil, .nil => rfl
  | .cons first rest, .cons first' rest' => by rw [first.unique first', rest.unique rest']

end

-- The finished slots have the shapes they stand for, with all that they reach finished too.
structure Settled (c : Compiler) (idle : List Slot) (p : Progress) : Prop where
  denoted : ∀ slot v, p.done.lookup slot = some v → Denotes c (.slot slot) v.shape
  closed : ∀ slot ∈ p.done.map (·.1), ∀ other,
    Reaches c.slots (.slot slot) (.slot other) → other ∈ p.done.map (·.1)
  waiting : ∀ slot ∈ p.done.map (·.1), slot ∈ idle

-- From one progress to a later one, exactly these slots were finished if they were not yet.
structure Advanced (c : Compiler) (idle : List Slot) (p q : Progress) (met : Slot → Prop) :
    Prop where
  settled : c.Settled idle q
  finished : ∀ slot, slot ∈ q.done.map (·.1) ↔ slot ∈ p.done.map (·.1) ∨ met slot

theorem Settled.of_done {idle : List Slot} {p q : Progress} (settled : c.Settled idle p)
    (same : q.done = p.done) : c.Settled idle q := by
  obtain ⟨denoted, closed, waiting⟩ := settled
  rw [← same] at denoted closed waiting
  exact ⟨denoted, closed, waiting⟩

theorem Settled.open {idle : List Slot} {p : Progress} {slot : Slot}
    (settled : c.Settled idle p) (unfinished : p.done.lookup slot = none) :
    c.Settled (idle.erase slot) p := by
  refine ⟨settled.denoted, settled.closed, fun other finished => ?_⟩
  rw [Progress.lookup_done_eq_none] at unfinished
  have apart : other ≠ slot := fun same => unfinished (same ▸ finished)
  exact (List.mem_erase_of_ne apart).mpr (settled.waiting other finished)

-- While the slot was open it could not be finished, so nothing that was finished before
-- or inside it reaches it, and the table stays closed when it is added.
theorem Advanced.finish {idle : List Slot} {p q : Progress} {slot : Slot} {definition : Spec}
    {v : Validator Handle} (defined : c.slots.get? slot = some definition) (waits : slot ∈ idle)
    (denotes : Denotes c definition v.shape)
    (advanced : c.Advanced (idle.erase slot) p q fun other =>
      Reaches c.slots definition (.slot other)) :
    c.Advanced idle p { q with done := (slot, v) :: q.done } fun other =>
      Reaches c.slots (.slot slot) (.slot other) := by
  obtain ⟨⟨denoted, closed, waiting⟩, finished⟩ := advanced
  refine ⟨⟨?_, ?_, ?_⟩, ?_⟩
  · exact Progress.forall_lookup_cons (.slot defined denotes) denoted
  · intro other member target reaches
    simp only [List.map_cons, List.mem_cons] at member ⊢
    rcases member with rfl | member
    · rw [reaches_slot_of_defined defined] at reaches
      exact reaches.imp_right fun reaches => (finished target).mpr (.inr reaches)
    · exact .inr (closed other member target reaches)
  · intro other member
    simp only [List.map_cons, List.mem_cons] at member
    rcases member with rfl | member
    · exact waits
    · exact List.mem_of_mem_erase (waiting other member)
  · intro other
    simp only [List.map_cons, List.mem_cons, finished, reaches_slot_of_defined defined]
    exact or_left_comm

mutual

theorem Yields.completed {idle : List Slot} {spec : Spec} {trail : Trail} {depth : Nat}
    {p q : Progress} {v : Validator Handle} :
    c.Yields idle spec trail depth p v q → c.Settled idle p →
      c.Denotes spec v.shape ∧
        c.Advanced idle p q fun slot => Reaches c.slots spec (.slot slot)
  | .leaf fits planned made, settled => by
    refine ⟨Entry.instantiate_shape made ▸ .leaf planned, settled.of_done rfl, fun slot => ?_⟩
    simp only [not_reaches_slot_of_leaf planned slot, or_false]
  | .container fits planned parts, settled => by
    obtain ⟨denotes, advanced⟩ := parts.completed settled
    rw [(parts_container planned).1] at denotes advanced
    refine ⟨?_, advanced.settled.of_done rfl, fun slot => ?_⟩
    · rw [Frame.join_shape]
      exact .container planned denotes
    · rw [reaches_slot_iff_child (ne_slot_of_plan_container planned)]
      exact advanced.finished slot
  | .again fits finished, settled => by
    have member := Progress.mem_done_of_lookup finished
    refine ⟨settled.denoted _ _ finished, settled, fun other => (or_iff_left_of_imp ?_).symm⟩
    exact settled.closed _ member other
  | .opened fits unfinished defined waits inner, settled => by
    obtain ⟨denotes, advanced⟩ := inner.completed (settled.open unfinished)
    exact ⟨.slot defined denotes, advanced.finish defined waits denotes⟩

theorem YieldsAll.completed {idle : List Slot} {parts : List (Step × Spec)} {trail : Trail}
    {depth : Nat} {p q : Progress} {vs : List (Validator Handle)} :
    c.YieldsAll idle parts trail depth p vs q → c.Settled idle p →
      c.DenotesAll (parts.map (·.2)) (vs.map Validator.shape) ∧
        c.Advanced idle p q fun slot =>
          ∃ spec ∈ parts.map (·.2), Reaches c.slots spec (.slot slot)
  | .nil, settled => ⟨.nil, settled, by simp⟩
  | .cons first others, settled => by
    obtain ⟨denotes, advanced⟩ := first.completed settled
    obtain ⟨denotesAll, further⟩ := others.completed advanced.settled
    refine ⟨.cons denotes denotesAll, further.settled, fun slot => ?_⟩
    rw [further.finished, advanced.finished, List.map_cons]
    simp only [List.mem_cons, exists_eq_or_imp, or_assoc]

end

theorem settled_start (c : Compiler) (next : Handle) : c.Settled c.allSlots ⟨next, []⟩ :=
  ⟨by simp, by simp, by simp⟩

theorem denotes_of_compile {spec : Spec} {next after : Handle} {v : Validator Handle}
    (compiled : c.compile spec next = .ok (v, after)) : c.Denotes spec v.shape := by
  obtain ⟨q, yields⟩ := yields_of_compile compiled
  exact (yields.completed (c.settled_start next)).1

end Compiler

end Conform
