import Conform.Proofs.Blame
import Conform.Proofs.Resume

set_option autoImplicit false

/-!
Compilers that know more markers or more definitions. A run that gives a validator goes the same
way again, and so does one that fails, if its error is not for want of a definition. The tags that
a run begins with make no difference to either.
-/

namespace Conform

-- All that is defined in the one table is defined in the other, as the same.
def Slots.Le (s t : Slots) : Prop :=
  ∀ slot definition, s.get? slot = some definition → t.get? slot = some definition

namespace Compiler

structure Extends (c d : Compiler) : Prop where
  options : d.options = c.options
  markers : ∀ marker entry,
    c.registry.find? marker = some entry → d.registry.find? marker = some entry
  definitions : c.slots.Le d.slots

variable {c d : Compiler} {spec : Spec}

theorem Extends.plan_leaf {entry : Entry} (more : c.Extends d)
    (planned : c.plan spec = .leaf entry) : d.plan spec = .leaf entry := by
  rcases plan_leaf_cases planned with
    ⟨v, rfl, rfl⟩ | ⟨marker, rfl, found⟩ | ⟨value, rfl, scalar, rfl⟩
  · rfl
  · simp [plan, more.markers marker entry found]
  · simp [plan, scalar]

theorem Extends.plan_container {frame : Frame} (more : c.Extends d)
    (planned : c.plan spec = .container frame) : d.plan spec = .container frame := by
  rw [← planned]
  rcases plan_container_cases planned with
    ⟨items, rfl, -⟩ | ⟨mode, children, rfl, -, -⟩ | ⟨entries, extra, fields, rfl, -, -⟩
  · rfl
  · rfl
  · simp [plan, more.options]

theorem Extends.fits {depth : Nat} (more : c.Extends d) (fits : depth ≤ c.options.maxDepth) :
    depth ≤ d.options.maxDepth := by
  rw [more.options]
  exact fits

mutual

-- Slots may have been added meanwhile; they are idle behind those that there were.
theorem Yields.extend (more : c.Extends d) (added : List Slot) {idle : List Slot} {spec : Spec}
    {trail : Trail} {depth : Nat} {p q : Progress} {v : Validator Handle} :
    c.Yields idle spec trail depth p v q → d.Yields (idle ++ added) spec trail depth p v q
  | .leaf fits planned made => .leaf (more.fits fits) (more.plan_leaf planned) made
  | .container fits planned parts => by
    have inside := parts.extend more added
    rw [← more.options]
    exact .container (more.fits fits) (more.plan_container planned) inside
  | .again fits finished => .again (more.fits fits) finished
  | .opened fits unfinished defined waits inner => by
    have inside := inner.extend more added
    rw [← List.erase_append_left _ waits] at inside
    exact .opened (more.fits fits) unfinished (more.definitions _ _ defined)
      (List.mem_append_left _ waits) inside

theorem YieldsAll.extend (more : c.Extends d) (added : List Slot) {idle : List Slot}
    {parts : List (Step × Spec)} {trail : Trail} {depth : Nat} {p q : Progress}
    {vs : List (Validator Handle)} :
    c.YieldsAll idle parts trail depth p vs q →
      d.YieldsAll (idle ++ added) parts trail depth p vs q
  | .nil => .nil
  | .cons first others => .cons (first.extend more added) (others.extend more added)

end

mutual

theorem Denotes.extend (more : c.Extends d) {spec : Spec} {shape : Validator Unit} :
    c.Denotes spec shape → d.Denotes spec shape
  | .leaf planned => .leaf (more.plan_leaf planned)
  | .container planned parts => by
    rw [← more.options]
    exact .container (more.plan_container planned) (parts.extend more)
  | .slot defined inner => .slot (more.definitions _ _ defined) (inner.extend more)

theorem DenotesAll.extend (more : c.Extends d) {specs : List Spec}
    {shapes : List (Validator Unit)} : c.DenotesAll specs shapes → d.DenotesAll specs shapes
  | .nil => .nil
  | .cons first others => .cons (first.extend more) (others.extend more)

end

theorem extends_withSlots {slots : Slots} (later : c.slots.Le slots) :
    c.Extends (c.withSlots slots) :=
  ⟨rfl, fun _ _ found => found, later⟩

-- A slot that closes a cycle has its definition by then, so it is not among those added.
theorem Fails.extend {slots : Slots} (later : c.slots.Le slots) {added : List Slot}
    (new : ∀ slot ∈ added, c.slots.get? slot = none) {idle : List Slot} {trail : Trail}
    {depth : Nat} {p : Progress} {e : CompileError} (fails : c.Fails idle spec trail depth p e) :
    e.fault ≠ .undefinedSlot →
      (c.withSlots slots).Fails (idle ++ added) spec trail depth p e := by
  have more := extends_withSlots later
  induction fails with
  | tooDeep deep =>
    intro _
    exact .tooDeep deep
  | faulty fits planned =>
    intro _
    exact .faulty fits planned
  | part fits planned split passed failed ih =>
    intro known
    exact .part fits planned split (passed.extend more added) (ih known)
  | undefined =>
    intro known
    exact absurd rfl known
  | @cyclic _ slot _ _ _ _ fits unfinished defined busy =>
    intro _
    refine .cyclic fits unfinished (later _ _ defined) fun waits => ?_
    rcases List.mem_append.mp waits with waits | among
    · exact busy waits
    · simp [new slot among] at defined
  | inside fits unfinished defined waits failed ih =>
    intro known
    refine .inside fits unfinished (later _ _ defined) (List.mem_append_left _ waits) ?_
    rw [List.erase_append_left _ waits]
    exact ih known

theorem Fails.restart {idle : List Slot} {trail : Trail} {depth : Nat} {p : Progress}
    {e : CompileError} (fails : c.Fails idle spec trail depth p e) :
    c.Settled idle p → ∀ p', c.Settled idle p' → p'.met = p.met →
      c.Fails idle spec trail depth p' e := by
  have missing {slot : Slot} {p p' : Progress} (same : p'.met = p.met)
      (unfinished : p.done.lookup slot = none) : p'.done.lookup slot = none := by
    rw [Progress.lookup_done_eq_none] at unfinished ⊢
    exact fun finished => unfinished (same.subset finished)
  induction fails with
  | tooDeep deep =>
    intro _ p' _ _
    exact .tooDeep deep
  | faulty fits planned =>
    intro _ p' _ _
    exact .faulty fits planned
  | @part _ _ _ place depth _ _ _ _ _ _ _ _ fits planned split passed failed ih =>
    intro settled p' settled' same
    obtain ⟨vs, q', passed'⟩ := passed.resume c.options.maxDepth settled _ rfl place (depth + 1) p'
      (Nat.le_refl _) settled' same.superset
    have advanced := (passed.completed settled).2
    have advanced' := (passed'.completed settled').2
    refine .part fits planned split passed' (ih advanced.settled q' advanced'.settled ?_)
    rw [advanced.met_eq, advanced'.met_eq, same]
    rfl
  | undefined fits unfinished missing' =>
    intro _ p' _ same
    exact .undefined fits (missing same unfinished) missing'
  | cyclic fits unfinished defined busy =>
    intro _ p' _ same
    exact .cyclic fits (missing same unfinished) defined busy
  | inside fits unfinished defined waits failed ih =>
    intro settled p' settled' same
    have unfinished' := missing same unfinished
    exact .inside fits unfinished' defined waits
      (ih (settled.open unfinished) p' (settled'.open unfinished') same)

theorem outcome_compile_tags (c : Compiler) (spec : Spec) (next next' : Handle) :
    outcome (c.compile spec next') = outcome (c.compile spec next) := by
  have met : (⟨next', []⟩ : Progress).met = (⟨next, []⟩ : Progress).met := rfl
  cases compiled : c.compile spec next with
  | error e =>
    have fails := fails_of_compile compiled
    have again := fails.restart (c.settled_start next) _ (c.settled_start next') met
    rw [compile_of_fails again]
  | ok made =>
    obtain ⟨v, after⟩ := made
    obtain ⟨q, yields⟩ := yields_of_compile compiled
    obtain ⟨v', q', again⟩ := yields.resume c.options.maxDepth (c.settled_start next) [] 0
      ⟨next', []⟩ (Nat.le_refl _) (c.settled_start next') met.superset
    have compiled' : c.compile spec next' = .ok (v', q'.next) := compile_of_yields again
    have same := (denotes_of_compile compiled').unique (denotes_of_compile compiled)
    rw [compiled']
    exact congrArg Except.ok same

theorem allSlots_extend (grown : c.slots.size ≤ d.slots.size) :
    ∃ added, d.allSlots = c.allSlots ++ added ∧ ∀ slot ∈ added, c.slots.get? slot = none := by
  refine ⟨(List.range (d.slots.size - c.slots.size)).map (c.slots.size + ·), ?_, ?_⟩
  · rw [allSlots, allSlots, ← List.range_add, Nat.add_sub_cancel' grown]
  · intro slot member
    obtain ⟨i, -, rfl⟩ := List.mem_map.mp member
    by_contra defined
    have inside := mem_allSlots_of_defined (Option.isSome_iff_ne_none.mpr defined)
    rw [allSlots, List.mem_range] at inside
    omega

theorem outcome_compile_extend {next after : Handle} {v : Validator Handle} (more : c.Extends d)
    (grown : c.slots.size ≤ d.slots.size) (compiled : c.compile spec next = .ok (v, after))
    (next' : Handle) : outcome (d.compile spec next') = .ok v.shape := by
  obtain ⟨q, yields⟩ := yields_of_compile compiled
  obtain ⟨added, slots, -⟩ := allSlots_extend grown
  have again := yields.extend more added
  rw [← slots] at again
  rw [d.outcome_compile_tags spec next next', compile_of_yields again]
  rfl

theorem outcome_compile_later {slots : Slots} {next : Handle} (later : c.slots.Le slots)
    (grown : c.slots.size ≤ slots.size)
    (known : ∀ trail, c.compile spec next ≠ .error ⟨trail, .undefinedSlot⟩) (next' : Handle) :
    outcome ((c.withSlots slots).compile spec next') = outcome (c.compile spec next) := by
  cases compiled : c.compile spec next with
  | ok made => exact outcome_compile_extend (extends_withSlots later) grown compiled next'
  | error e =>
    have found : e.fault ≠ .undefinedSlot := by
      intro undefined
      exact known e.trail (by rw [compiled, ← undefined])
    obtain ⟨added, slots', new⟩ := allSlots_extend (d := c.withSlots slots) grown
    have again := (fails_of_compile compiled).extend later new found
    rw [← slots'] at again
    rw [outcome_compile_tags _ spec next next', compile_of_fails again]

end Compiler

end Conform
