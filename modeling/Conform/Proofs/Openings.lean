import Conform.Proofs.Descent

set_option autoImplicit false

/-!
How often definitions are compiled. A run that succeeds opens each slot that it finishes in one
call and in no other, however often the slot is mentioned.
-/

namespace Conform.Compiler

open Relation

-- A call on the definition of a slot, among all the calls that a call leads to.
def Opens (c : Compiler) (outer : Call) (slot : Slot) (inner : Call) : Prop :=
  ∃ call, ReflTransGen c.Makes outer call ∧ call.spec = .slot slot ∧ c.Makes call inner

-- The same for the calls on some parts, each of them made once those before it are compiled.
def OpensPart (c : Compiler) (idle : List Slot) (parts : List (Step × Spec)) (trail : Trail)
    (depth : Nat) (p : Progress) (slot : Slot) (inner : Call) : Prop :=
  ∃ before step part after vs q, parts = before ++ (step, part) :: after ∧
    (c.buildParts (c.openSlot idle) trail depth before).run p = .ok (vs, q) ∧
    c.Opens ⟨idle, part, trail ++ [step], depth, q⟩ slot inner

variable {c : Compiler} {idle : List Slot} {spec : Spec} {trail : Trail} {depth : Nat}
  {p q : Progress} {slot : Slot} {inner : Call}

theorem opens_iff {outer : Call} :
    c.Opens outer slot inner ↔ (outer.spec = .slot slot ∧ c.Makes outer inner) ∨
      ∃ next, c.Makes outer next ∧ c.Opens next slot inner := by
  constructor
  · rintro ⟨call, made, mention, last⟩
    rcases ReflTransGen.cases_head made with rfl | ⟨next, first, rest⟩
    · exact .inl ⟨mention, last⟩
    · exact .inr ⟨next, first, call, rest, mention, last⟩
  · rintro (⟨mention, last⟩ | ⟨next, first, call, rest, mention, last⟩)
    · exact ⟨outer, .refl, mention, last⟩
    · exact ⟨call, .head first rest, mention, last⟩

theorem not_opens_of_quiet {outer : Call} (quiet : ∀ next, ¬ c.Makes outer next) :
    ¬ c.Opens outer slot inner := by
  rw [opens_iff]
  rintro (⟨-, last⟩ | ⟨next, first, -⟩)
  · exact quiet _ last
  · exact quiet next first

theorem opens_container {frame : Frame} (fits : depth ≤ c.options.maxDepth)
    (planned : c.plan spec = .container frame) :
    c.Opens ⟨idle, spec, trail, depth, p⟩ slot inner ↔
      c.OpensPart idle spec.parts trail (depth + 1) p slot inner := by
  have apart := ne_slot_of_plan_container planned
  rw [opens_iff]
  constructor
  · rintro (⟨mention, -⟩ | ⟨next, first, opens⟩)
    · exact absurd mention (apart slot)
    · cases first with
      | part _ _ split passed => exact ⟨_, _, _, _, _, _, split, passed, opens⟩
      | definition _ mention => exact absurd mention (apart _)
  · rintro ⟨before, step, part, after, vs, q, split, passed, opens⟩
    exact .inr ⟨_, .part fits planned split passed, opens⟩

theorem opens_slot {other : Slot} {definition : Spec} (fits : depth ≤ c.options.maxDepth)
    (unfinished : p.done.lookup slot = none) (defined : c.slots.get? slot = some definition)
    (waits : slot ∈ idle) :
    c.Opens ⟨idle, .slot slot, trail, depth, p⟩ other inner ↔
      (other = slot ∧ inner = ⟨idle.erase slot, definition, trail, depth, p⟩) ∨
        c.Opens ⟨idle.erase slot, definition, trail, depth, p⟩ other inner := by
  have only (next : Call) : c.Makes ⟨idle, .slot slot, trail, depth, p⟩ next ↔
      next = ⟨idle.erase slot, definition, trail, depth, p⟩ := by
    constructor
    · intro made
      cases made with
      | part _ planned => cases planned
      | definition _ mention _ defined' =>
        cases mention
        cases defined.symm.trans defined'
        rfl
    · rintro rfl
      exact .definition fits rfl unfinished defined waits
  rw [opens_iff]
  simp only [only, exists_eq_left, Spec.slot.injEq, eq_comm (a := slot)]

theorem not_opensPart_nil : ¬ c.OpensPart idle [] trail depth p slot inner := by
  rintro ⟨before, step, part, after, vs, q, split, -⟩
  simp at split

theorem opensPart_cons {step : Step} {rest : List (Step × Spec)} {v : Validator Handle}
    (first : c.Yields idle spec (trail ++ [step]) depth p v q) :
    c.OpensPart idle ((step, spec) :: rest) trail depth p slot inner ↔
      c.Opens ⟨idle, spec, trail ++ [step], depth, p⟩ slot inner ∨
        c.OpensPart idle rest trail depth q slot inner := by
  constructor
  · rintro ⟨before, other, part, after, vs, r, split, passed, opens⟩
    cases before with
    | nil =>
      cases split
      cases passed
      exact .inl opens
    | cons head before =>
      cases split
      rw [buildParts_run_cons, first.run] at passed
      cases others : (c.buildParts (c.openSlot idle) trail depth before).run q with
      | error e =>
        simp only [others] at passed
        cases passed
      | ok made =>
        simp only [others] at passed
        cases passed
        exact .inr ⟨before, other, part, after, made.1, made.2, rfl, others, opens⟩
  · rintro (opens | ⟨before, other, part, after, vs, r, rfl, passed, opens⟩)
    · exact ⟨[], step, spec, rest, [], p, rfl, rfl, opens⟩
    · refine ⟨(step, spec) :: before, other, part, after, v :: vs, r, rfl, ?_, opens⟩
      rw [buildParts_run_cons, first.run]
      simp only [passed]
      rfl

-- The calls that open slots between two moments, one for each slot that is finished by then.
structure OpensOnce (p q : Progress) (opens : Slot → Call → Prop) : Prop where
  new : ∀ slot inner, opens slot inner → slot ∉ p.done.map (·.1) ∧ slot ∈ q.done.map (·.1)
  found : ∀ slot ∉ p.done.map (·.1), slot ∈ q.done.map (·.1) → ∃ inner, opens slot inner
  once : ∀ slot a b, opens slot a → opens slot b → a = b

theorem opensOnce_nothing {opens : Slot → Call → Prop} (same : q.done = p.done)
    (quiet : ∀ slot inner, ¬ opens slot inner) : OpensOnce p q opens where
  new slot inner opened := absurd opened (quiet slot inner)
  found _ missing finished := absurd (same ▸ finished) missing
  once slot a _ opened := absurd opened (quiet slot a)

theorem OpensOnce.congr {r : Progress} {opens others : Slot → Call → Prop}
    (once : OpensOnce p q opens) (same : r.done = q.done)
    (agree : ∀ slot inner, others slot inner ↔ opens slot inner) : OpensOnce p r others := by
  obtain rfl : others = opens := by
    funext slot inner
    exact propext (agree slot inner)
  obtain ⟨new, found, once⟩ := once
  rw [← same] at new found
  exact ⟨new, found, once⟩

theorem OpensOnce.append {r : Progress} {first second : Slot → Call → Prop}
    (opens : OpensOnce p q first) (further : OpensOnce q r second)
    (kept : ∀ slot ∈ p.done.map (·.1), slot ∈ q.done.map (·.1))
    (later : ∀ slot ∈ q.done.map (·.1), slot ∈ r.done.map (·.1)) :
    OpensOnce p r fun slot inner => first slot inner ∨ second slot inner := by
  refine ⟨?_, ?_, ?_⟩
  · rintro slot inner (opened | opened)
    · exact (opens.new slot inner opened).imp_right (later slot)
    · exact (further.new slot inner opened).imp_left fun missing done => missing (kept slot done)
  · intro slot missing finished
    by_cases between : slot ∈ q.done.map (·.1)
    · exact (opens.found slot missing between).imp fun _ => .inl
    · exact (further.found slot between finished).imp fun _ => .inr
  · rintro slot a b (openedA | openedA) (openedB | openedB)
    · exact opens.once slot a b openedA openedB
    · exact absurd (opens.new slot a openedA).2 (further.new slot b openedB).1
    · exact absurd (opens.new slot b openedB).2 (further.new slot a openedA).1
    · exact further.once slot a b openedA openedB

-- The slot itself is finished last, by a call that none of those inside its definition is.
theorem OpensOnce.finish {opens : Slot → Call → Prop} {slot : Slot}
    (inner : OpensOnce p q opens) (before : p.done.lookup slot = none)
    (unfinished : q.done.lookup slot = none) (v : Validator Handle) (call : Call) :
    OpensOnce p { q with done := (slot, v) :: q.done } fun other inner =>
      (other = slot ∧ inner = call) ∨ opens other inner := by
  rw [Progress.lookup_done_eq_none] at before unfinished
  refine ⟨?_, ?_, ?_⟩
  · rintro other inside (⟨rfl, -⟩ | opened)
    · exact ⟨before, List.mem_cons_self⟩
    · exact (inner.new other inside opened).imp_right (List.mem_cons_of_mem _)
  · intro other missing finished
    rcases List.mem_cons.mp finished with rfl | finished
    · exact ⟨call, .inl ⟨rfl, rfl⟩⟩
    · exact (inner.found other missing finished).imp fun _ => .inr
  · rintro other a b (⟨rfl, rfl⟩ | openedA) (⟨same, rfl⟩ | openedB)
    · rfl
    · exact absurd (inner.new other b openedB).2 unfinished
    · exact absurd (inner.new other a openedA).2 (same ▸ unfinished)
    · exact inner.once other a b openedA openedB

theorem Advanced.kept {met : Slot → Prop} (advanced : c.Advanced idle p q met) :
    ∀ slot ∈ p.done.map (·.1), slot ∈ q.done.map (·.1) :=
  fun slot done => (advanced.finished slot).mpr (.inl done)

-- A definition does not reach its own slot, or compiling it would not end.
theorem unfinished_inside {definition : Spec} {v : Validator Handle} (settled : c.Settled idle p)
    (unfinished : p.done.lookup slot = none) (defined : c.slots.get? slot = some definition)
    (inner : c.Yields (idle.erase slot) definition trail depth p v q) :
    q.done.lookup slot = none := by
  obtain ⟨denotes, advanced⟩ := inner.completed (settled.open unfinished)
  rw [Progress.lookup_done_eq_none] at unfinished ⊢
  rw [advanced.finished, not_or]
  exact ⟨unfinished, not_reaches_self_of_acc (Denotes.slot defined denotes).acc defined⟩

mutual

theorem Yields.opens {idle : List Slot} {spec : Spec} {trail : Trail} {depth : Nat}
    {p q : Progress} {v : Validator Handle} :
    c.Yields idle spec trail depth p v q → c.Settled idle p →
      OpensOnce p q (c.Opens ⟨idle, spec, trail, depth, p⟩)
  | .leaf fits planned made, settled => by
    refine opensOnce_nothing rfl fun slot inner => not_opens_of_quiet fun next made => ?_
    cases made with
    | part _ planned' => cases planned.symm.trans planned'
    | definition _ mention => exact ne_slot_of_plan_leaf planned _ mention
  | .container fits planned parts, settled => by
    have opens := parts.opens settled
    exact opens.congr rfl fun _ _ => opens_container fits planned
  | .again fits finished, settled => by
    refine opensOnce_nothing rfl fun slot inner => not_opens_of_quiet fun next made => ?_
    cases made with
    | part _ planned => cases planned
    | definition _ mention unfinished =>
      cases mention
      cases finished.symm.trans unfinished
  | .opened fits unfinished defined waits inner, settled => by
    have opens := inner.opens (settled.open unfinished)
    have inside := unfinished_inside settled unfinished defined inner
    exact (opens.finish unfinished inside _ _).congr rfl fun _ _ =>
      opens_slot fits unfinished defined waits

theorem YieldsAll.opens {idle : List Slot} {parts : List (Step × Spec)} {trail : Trail}
    {depth : Nat} {p q : Progress} {vs : List (Validator Handle)} :
    c.YieldsAll idle parts trail depth p vs q → c.Settled idle p →
      OpensOnce p q (c.OpensPart idle parts trail depth p)
  | .nil, settled => opensOnce_nothing rfl fun _ _ => not_opensPart_nil
  | .cons first others, settled => by
    have head := first.opens settled
    obtain ⟨-, advanced⟩ := first.completed settled
    have tail := others.opens advanced.settled
    have later := (others.completed advanced.settled).2.kept
    exact (head.append tail advanced.kept later).congr rfl fun _ _ => opensPart_cons first

end

theorem existsUnique_opens {spec : Spec} {next after : Handle} {v : Validator Handle}
    (compiled : c.compile spec next = .ok (v, after)) {slot : Slot}
    (reaches : Reaches c.slots spec (.slot slot)) :
    ∃! inner, c.Opens (c.start spec next) slot inner := by
  obtain ⟨q, yields⟩ := yields_of_compile compiled
  have settled := c.settled_start next
  have opens := yields.opens settled
  have finished := ((yields.completed settled).2.finished slot).mpr (.inr reaches)
  obtain ⟨inner, opened⟩ := opens.found slot (by simp) finished
  exact ⟨inner, opened, fun other opened' => opens.once slot other inner opened' opened⟩

end Conform.Compiler
