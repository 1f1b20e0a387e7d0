import Conform.Proofs.Plan

set_option autoImplicit false

/-!
How a run of the compiler goes, as two relations on the place where it starts and the progress
made by then: one for the runs that give a validator, one for those that end in an error.
-/

namespace Conform.Compiler

open Compiling

mutual

inductive Yields (c : Compiler) : List Slot → Spec → Trail → Nat → Progress →
    Validator Handle → Progress → Prop
  | leaf {idle : List Slot} {spec : Spec} {trail : Trail} {depth : Nat} {p : Progress}
      {entry : Entry} {v : Validator Handle} {next : Handle}
      (fits : depth ≤ c.options.maxDepth) (planned : c.plan spec = .leaf entry)
      (made : entry.instantiate.run p.next = (v, next)) :
      Yields c idle spec trail depth p v { p with next }
  | container {idle : List Slot} {spec : Spec} {trail : Trail} {depth : Nat} {p q : Progress}
      {frame : Frame} {vs : List (Validator Handle)}
      (fits : depth ≤ c.options.maxDepth) (planned : c.plan spec = .container frame)
      (parts : YieldsAll c idle spec.parts trail (depth + 1) p vs q) :
      Yields c idle spec trail depth p
        (frame.join c.options.failFast q.next vs) { q with next := q.next + 1 }
  | again {idle : List Slot} {slot : Slot} {trail : Trail} {depth : Nat} {p : Progress}
      {v : Validator Handle}
      (fits : depth ≤ c.options.maxDepth) (finished : p.done.lookup slot = some v) :
      Yields c idle (.slot slot) trail depth p v p
  | opened {idle : List Slot} {slot : Slot} {trail : Trail} {depth : Nat} {p q : Progress}
      {definition : Spec} {v : Validator Handle}
      (fits : depth ≤ c.options.maxDepth) (unfinished : p.done.lookup slot = none)
      (defined : c.slots.get? slot = some definition) (waits : slot ∈ idle)
      (inner : Yields c (idle.erase slot) definition trail depth p v q) :
      Yields c idle (.slot slot) trail depth p v { q with done := (slot, v) :: q.done }

inductive YieldsAll (c : Compiler) : List Slot → List (Step × Spec) → Trail → Nat → Progress →
    List (Validator Handle) → Progress → Prop
  | nil {idle : List Slot} {trail : Trail} {depth : Nat} {p : Progress} :
      YieldsAll c idle [] trail depth p [] p
  | cons {idle : List Slot} {step : Step} {spec : Spec} {rest : List (Step × Spec)}
      {trail : Trail} {depth : Nat} {p q r : Progress} {v : Validator Handle}
      {vs : List (Validator Handle)}
      (first : Yields c idle spec (trail ++ [step]) depth p v q)
      (others : YieldsAll c idle rest trail depth q vs r) :
      YieldsAll c idle ((step, spec) :: rest) trail depth p (v :: vs) r

end

inductive Fails (c : Compiler) : List Slot → Spec → Trail → Nat → Progress → CompileError → Prop
  | tooDeep {idle : List Slot} {spec : Spec} {trail : Trail} {depth : Nat} {p : Progress}
      (deep : c.options.maxDepth < depth) :
      Fails c idle spec trail depth p ⟨trail, .tooDeep c.options.maxDepth⟩
  | faulty {idle : List Slot} {spec : Spec} {trail : Trail} {depth : Nat} {p : Progress}
      {e : CompileError}
      (fits : depth ≤ c.options.maxDepth) (planned : c.plan spec = .faulty e) :
      Fails c idle spec trail depth p ⟨trail ++ e.trail, e.fault⟩
  | part {idle : List Slot} {spec part : Spec} {trail : Trail} {depth : Nat} {p q : Progress}
      {frame : Frame} {before after : List (Step × Spec)} {step : Step}
      {vs : List (Validator Handle)} {e : CompileError}
      (fits : depth ≤ c.options.maxDepth) (planned : c.plan spec = .container frame)
      (split : spec.parts = before ++ (step, part) :: after)
      (passed : c.YieldsAll idle before trail (depth + 1) p vs q)
      (failed : Fails c idle part (trail ++ [step]) (depth + 1) q e) :
      Fails c idle spec trail depth p e
  | undefined {idle : List Slot} {slot : Slot} {trail : Trail} {depth : Nat} {p : Progress}
      (fits : depth ≤ c.options.maxDepth) (unfinished : p.done.lookup slot = none)
      (missing : c.slots.get? slot = none) :
      Fails c idle (.slot slot) trail depth p ⟨trail, .undefinedSlot⟩
  | cyclic {idle : List Slot} {slot : Slot} {trail : Trail} {depth : Nat} {p : Progress}
      {definition : Spec}
      (fits : depth ≤ c.options.maxDepth) (unfinished : p.done.lookup slot = none)
      (defined : c.slots.get? slot = some definition) (busy : slot ∉ idle) :
      Fails c idle (.slot slot) trail depth p ⟨trail, .cyclic⟩
  | inside {idle : List Slot} {slot : Slot} {trail : Trail} {depth : Nat} {p : Progress}
      {definition : Spec} {e : CompileError}
      (fits : depth ≤ c.options.maxDepth) (unfinished : p.done.lookup slot = none)
      (defined : c.slots.get? slot = some definition) (waits : slot ∈ idle)
      (failed : Fails c (idle.erase slot) definition trail depth p e) :
      Fails c idle (.slot slot) trail depth p e

def Runs (c : Compiler) (idle : List Slot) (spec : Spec) (trail : Trail) (depth : Nat)
    (p : Progress) : Except CompileError (Validator Handle × Progress) → Prop
  | .ok (v, q) => c.Yields idle spec trail depth p v q
  | .error e => c.Fails idle spec trail depth p e

def RunsAll (c : Compiler) (idle : List Slot) (parts : List (Step × Spec)) (trail : Trail)
    (depth : Nat) (p : Progress) : Except CompileError (List (Validator Handle) × Progress) → Prop
  | .ok (vs, q) => c.YieldsAll idle parts trail depth p vs q
  | .error e => ∃ before step part after vs q, parts = before ++ (step, part) :: after ∧
      c.YieldsAll idle before trail depth p vs q ∧
      c.Fails idle part (trail ++ [step]) depth q e

theorem buildParts_run_cons (c : Compiler) (opener : Opener) (trail : Trail) (depth : Nat)
    (step : Step) (spec : Spec) (rest : List (Step × Spec)) (p : Progress) :
    (c.buildParts opener trail depth ((step, spec) :: rest)).run p =
      match (c.build opener spec (trail ++ [step]) depth).run p with
      | .error e => .error e
      | .ok (v, q) =>
        ((c.buildParts opener trail depth rest).run q).map fun (vs, r) => (v :: vs, r) := by
  rw [buildParts, StateT.run_bind]
  cases (c.build opener spec (trail ++ [step]) depth).run p with
  | error e => rfl
  | ok made =>
    obtain ⟨v, q⟩ := made
    change ((c.buildParts opener trail depth rest).run q >>= _) =
      ((c.buildParts opener trail depth rest).run q).map _
    cases (c.buildParts opener trail depth rest).run q <;> rfl

theorem buildParts_run_append (c : Compiler) (opener : Opener) (trail : Trail) (depth : Nat)
    (before rest : List (Step × Spec)) (p : Progress) :
    (c.buildParts opener trail depth (before ++ rest)).run p =
      match (c.buildParts opener trail depth before).run p with
      | .error e => .error e
      | .ok (vs, q) =>
        ((c.buildParts opener trail depth rest).run q).map fun (ws, r) => (vs ++ ws, r) := by
  induction before generalizing p with
  | nil =>
    change (c.buildParts opener trail depth rest).run p =
      ((c.buildParts opener trail depth rest).run p).map _
    cases (c.buildParts opener trail depth rest).run p <;> rfl
  | cons part before ih =>
    obtain ⟨step, spec⟩ := part
    rw [List.cons_append, buildParts_run_cons, buildParts_run_cons]
    cases (c.build opener spec (trail ++ [step]) depth).run p with
    | error e => rfl
    | ok made =>
      obtain ⟨v, q⟩ := made
      simp only [ih]
      cases (c.buildParts opener trail depth before).run q with
      | error e => rfl
      | ok made =>
        obtain ⟨vs, r⟩ := made
        simp only [Except.map]
        cases (c.buildParts opener trail depth rest).run r <;> rfl

theorem carryOut_container_run (c : Compiler) (opener : Opener) (spec : Spec) (trail : Trail)
    (depth : Nat) (frame : Frame) (p : Progress) :
    (c.carryOut opener spec trail depth (.container frame)).run p =
      ((c.buildParts opener trail (depth + 1) spec.parts).run p).map fun (vs, q) =>
        (frame.join c.options.failFast q.next vs, { q with next := q.next + 1 }) := by
  rw [carryOut, StateT.run_bind]
  cases (c.buildParts opener trail (depth + 1) spec.parts).run p <;> rfl

theorem get_bind_run {α : Type} (f : Progress → Compiling α) (p : Progress) :
    ((get : Compiling Progress) >>= f).run p = (f p).run p := rfl

theorem openSlot_run (c : Compiler) (idle : List Slot) (slot : Slot) (trail : Trail)
    (depth : Nat) (p : Progress) :
    (c.openSlot idle slot trail depth).run p =
      match p.done.lookup slot, c.slots.get? slot with
      | some v, _ => .ok (v, p)
      | none, none => .error ⟨trail, .undefinedSlot⟩
      | none, some definition =>
        if slot ∈ idle then
          ((c.build (c.openSlot (idle.erase slot)) definition trail depth).run p).map
            fun (v, q) => (v, { q with done := (slot, v) :: q.done })
        else
          .error ⟨trail, .cyclic⟩ := by
  rw [openSlot, get_bind_run]
  cases p.done.lookup slot with
  | some v => rfl
  | none =>
    cases c.slots.get? slot with
    | none => rfl
    | some definition =>
      dsimp only
      split
      · rw [StateT.run_bind]
        cases (c.build (c.openSlot (idle.erase slot)) definition trail depth).run p <;> rfl
      · rfl

theorem runsAll_buildParts (c : Compiler) (idle : List Slot) (depth : Nat) (trail : Trail)
    (parts : List (Step × Spec)) (p : Progress)
    (runs : ∀ part ∈ parts, ∀ (place : Trail) (before : Progress),
      c.Runs idle part.2 place depth before
        ((c.build (c.openSlot idle) part.2 place depth).run before)) :
    c.RunsAll idle parts trail depth p
      ((c.buildParts (c.openSlot idle) trail depth parts).run p) := by
  induction parts generalizing p with
  | nil => exact .nil
  | cons part rest ih =>
    obtain ⟨step, spec⟩ := part
    have first := runs (step, spec) (by simp) (trail ++ [step]) p
    rw [buildParts_run_cons]
    cases result : (c.build (c.openSlot idle) spec (trail ++ [step]) depth).run p with
    | error e =>
      rw [result] at first
      exact ⟨[], step, spec, rest, [], p, rfl, .nil, first⟩
    | ok made =>
      obtain ⟨v, q⟩ := made
      rw [result] at first
      have others := ih q fun part member => runs part (List.mem_cons_of_mem _ member)
      dsimp only
      cases results : (c.buildParts (c.openSlot idle) trail depth rest).run q with
      | error e =>
        rw [results] at others
        obtain ⟨before, other, part, after, vs, r, rfl, passed, failed⟩ := others
        exact ⟨(step, spec) :: before, other, part, after, v :: vs, r, rfl,
          .cons first passed, failed⟩
      | ok made =>
        rw [results] at others
        exact .cons first others

theorem length_erase_lt {slot : Slot} {idle : List Slot} (waits : slot ∈ idle) :
    (idle.erase slot).length < idle.length := by
  have shorter := List.length_erase_of_mem waits
  have nonempty := List.length_pos_of_mem waits
  omega

-- A slot leaves the idle ones while it is open, and otherwise a part is smaller.
theorem runs_build (c : Compiler) (idle : List Slot) (spec : Spec) (trail : Trail) (depth : Nat)
    (p : Progress) :
    c.Runs idle spec trail depth p ((c.build (c.openSlot idle) spec trail depth).run p) := by
  rw [build_eq]
  split
  next deep => exact Fails.tooDeep deep
  next shallow =>
    have fits : depth ≤ c.options.maxDepth := Nat.le_of_not_lt shallow
    cases planned : c.plan spec with
    | leaf entry => exact Yields.leaf fits planned rfl
    | faulty e => exact Fails.faulty fits planned
    | container frame =>
      have parts := c.runsAll_buildParts idle (depth + 1) trail spec.parts p
        fun part member place before => c.runs_build idle part.2 place (depth + 1) before
      rw [carryOut_container_run]
      cases results : (c.buildParts (c.openSlot idle) trail (depth + 1) spec.parts).run p with
      | error e =>
        rw [results] at parts
        obtain ⟨before, step, part, after, vs, q, split, passed, failed⟩ := parts
        exact Fails.part fits planned split passed failed
      | ok made =>
        rw [results] at parts
        exact Yields.container fits planned parts
    | mention slot =>
      obtain rfl := plan_mention planned
      rw [carryOut, openSlot_run]
      cases finished : p.done.lookup slot with
      | some v => exact Yields.again fits finished
      | none =>
        cases defined : c.slots.get? slot with
        | none => exact Fails.undefined fits finished defined
        | some definition =>
          by_cases waits : slot ∈ idle
          · have inner := c.runs_build (idle.erase slot) definition trail depth p
            simp only [if_pos waits]
            cases result :
              (c.build (c.openSlot (idle.erase slot)) definition trail depth).run p with
            | error e =>
              rw [result] at inner
              exact Fails.inside fits finished defined waits inner
            | ok made =>
              rw [result] at inner
              exact Yields.opened fits finished defined waits inner
          · simp only [if_neg waits]
            exact Fails.cyclic fits finished defined waits
termination_by (idle.length, sizeOf spec)
decreasing_by
  · exact Prod.Lex.right _ (Spec.sizeOf_child (Spec.mem_children_of_mem_parts member))
  · exact Prod.Lex.left _ _ (length_erase_lt waits)

theorem runsAll_run (c : Compiler) (idle : List Slot) (parts : List (Step × Spec)) (trail : Trail)
    (depth : Nat) (p : Progress) :
    c.RunsAll idle parts trail depth p
      ((c.buildParts (c.openSlot idle) trail depth parts).run p) :=
  c.runsAll_buildParts idle depth trail parts p
    fun part _ place before => c.runs_build idle part.2 place depth before

-- The slots that are idle when a run of the whole compiler begins.
def allSlots (c : Compiler) : List Slot := List.range c.slots.size

theorem runs_compile (c : Compiler) (spec : Spec) (next : Handle) :
    ∃ result, c.Runs c.allSlots spec [] 0 ⟨next, []⟩ result ∧
      c.compile spec next = result.map fun (v, progress) => (v, progress.next) :=
  ⟨_, c.runs_build c.allSlots spec [] 0 ⟨next, []⟩, rfl⟩

theorem yields_of_compile {c : Compiler} {spec : Spec} {next after : Handle}
    {v : Validator Handle} (compiled : c.compile spec next = .ok (v, after)) :
    ∃ q, c.Yields c.allSlots spec [] 0 ⟨next, []⟩ v q := by
  obtain ⟨result, runs, same⟩ := c.runs_compile spec next
  rw [same] at compiled
  cases result with
  | error e => cases compiled
  | ok made =>
    cases compiled
    exact ⟨made.2, runs⟩

theorem fails_of_compile {c : Compiler} {spec : Spec} {next : Handle} {e : CompileError}
    (refused : c.compile spec next = .error e) : c.Fails c.allSlots spec [] 0 ⟨next, []⟩ e := by
  obtain ⟨result, runs, same⟩ := c.runs_compile spec next
  rw [same] at refused
  cases result with
  | error e' =>
    cases refused
    exact runs
  | ok made => cases refused

variable {c : Compiler}

theorem build_run_of_fits {idle : List Slot} {spec : Spec} {trail : Trail} {depth : Nat}
    {p : Progress} (fits : depth ≤ c.options.maxDepth) :
    (c.build (c.openSlot idle) spec trail depth).run p =
      (c.carryOut (c.openSlot idle) spec trail depth (c.plan spec)).run p := by
  rw [build_eq, if_neg (Nat.not_lt.mpr fits)]

theorem build_run_of_deep {idle : List Slot} {spec : Spec} {trail : Trail} {depth : Nat}
    {p : Progress} (deep : c.options.maxDepth < depth) :
    (c.build (c.openSlot idle) spec trail depth).run p =
      .error ⟨trail, .tooDeep c.options.maxDepth⟩ := by
  rw [build_eq, if_pos deep]
  rfl

theorem build_run_slot {idle : List Slot} {slot : Slot} {trail : Trail} {depth : Nat}
    {p : Progress} (fits : depth ≤ c.options.maxDepth) :
    (c.build (c.openSlot idle) (.slot slot) trail depth).run p =
      (c.openSlot idle slot trail depth).run p :=
  build_run_of_fits fits

-- A container has what its parts come to, with a tag for itself at the end.
theorem build_run_container {idle : List Slot} {spec : Spec} {trail : Trail} {depth : Nat}
    {frame : Frame} {p : Progress} (fits : depth ≤ c.options.maxDepth)
    (planned : c.plan spec = .container frame) :
    (c.build (c.openSlot idle) spec trail depth).run p =
      ((c.buildParts (c.openSlot idle) trail (depth + 1) spec.parts).run p).map fun (vs, q) =>
        (frame.join c.options.failFast q.next vs, { q with next := q.next + 1 }) := by
  rw [build_run_of_fits fits, planned, carryOut_container_run]

-- The first part that fails is the last that is looked at.
theorem buildParts_run_part {opener : Opener} {trail : Trail} {depth : Nat}
    {before after : List (Step × Spec)} {step : Step} {part : Spec} {p q : Progress}
    {vs : List (Validator Handle)} {e : CompileError}
    (passed : (c.buildParts opener trail depth before).run p = .ok (vs, q))
    (failed : (c.build opener part (trail ++ [step]) depth).run q = .error e) :
    (c.buildParts opener trail depth (before ++ (step, part) :: after)).run p = .error e := by
  rw [buildParts_run_append, passed]
  simp only [buildParts_run_cons, failed]
  rfl

theorem instantiate_run {entry : Entry} {p : Progress} {v : Validator Handle} {next : Handle}
    (made : entry.instantiate.run p.next = (v, next)) :
    (instantiate entry).run p = .ok (v, { p with next }) := by
  change Except.ok ((entry.instantiate.run p.next).1,
    ({ p with next := (entry.instantiate.run p.next).2 } : Progress)) = _
  rw [made]

mutual

-- The relations say no more than the runs: a derivation fixes the result.
theorem Yields.run {idle : List Slot} {spec : Spec} {trail : Trail} {depth : Nat}
    {p q : Progress} {v : Validator Handle} : c.Yields idle spec trail depth p v q →
      (c.build (c.openSlot idle) spec trail depth).run p = .ok (v, q)
  | .leaf fits planned made => by
    rw [build_run_of_fits fits, planned, carryOut, instantiate_run made]
  | .container fits planned parts => by
    rw [build_run_container fits planned, parts.run]
    rfl
  | .again fits finished => by
    rw [build_run_slot fits, openSlot_run, finished]
  | .opened fits unfinished defined waits inner => by
    rw [build_run_slot fits, openSlot_run, unfinished, defined]
    simp only [if_pos waits, inner.run]
    rfl

theorem YieldsAll.run {idle : List Slot} {parts : List (Step × Spec)} {trail : Trail}
    {depth : Nat} {p q : Progress} {vs : List (Validator Handle)} :
    c.YieldsAll idle parts trail depth p vs q →
      (c.buildParts (c.openSlot idle) trail depth parts).run p = .ok (vs, q)
  | .nil => rfl
  | .cons first others => by
    rw [buildParts_run_cons, first.run]
    simp only [others.run]
    rfl

end

theorem Fails.run {idle : List Slot} {spec : Spec} {trail : Trail} {depth : Nat} {p : Progress}
    {e : CompileError} (fails : c.Fails idle spec trail depth p e) :
    (c.build (c.openSlot idle) spec trail depth).run p = .error e := by
  induction fails with
  | tooDeep deep => exact build_run_of_deep deep
  | faulty fits planned =>
    rw [build_run_of_fits fits, planned]
    rfl
  | part fits planned split passed failed ih =>
    rw [build_run_container fits planned, split, buildParts_run_part passed.run ih]
    rfl
  | undefined fits unfinished missing =>
    rw [build_run_slot fits, openSlot_run, unfinished, missing]
  | cyclic fits unfinished defined busy =>
    rw [build_run_slot fits, openSlot_run, unfinished, defined]
    exact if_neg busy
  | inside fits unfinished defined waits failed ih =>
    rw [build_run_slot fits, openSlot_run, unfinished, defined]
    simp only [if_pos waits, ih]
    rfl

theorem Yields.fits {idle : List Slot} {spec : Spec} {trail : Trail} {depth : Nat}
    {p q : Progress} {v : Validator Handle} (yields : c.Yields idle spec trail depth p v q) :
    depth ≤ c.options.maxDepth := by
  cases yields with
  | leaf fits | container fits | again fits | opened fits => exact fits

theorem YieldsAll.mem {idle : List Slot} {parts : List (Step × Spec)} {trail : Trail}
    {depth : Nat} {p q : Progress} {vs : List (Validator Handle)} {part : Spec}
    (yields : c.YieldsAll idle parts trail depth p vs q) (member : part ∈ parts.map (·.2)) :
    ∃ place before v after, c.Yields idle part place depth before v after := by
  induction parts generalizing p vs with
  | nil => cases member
  | cons head rest ih =>
    cases yields with
    | cons first others =>
      rcases List.mem_cons.mp member with rfl | member
      · exact ⟨_, _, _, _, first⟩
      · exact ih others member

-- The parts of what is compiled are compiled too, one level further down.
theorem Yields.child {idle : List Slot} {spec child : Spec} {trail : Trail} {depth : Nat}
    {p q : Progress} {v : Validator Handle} (yields : c.Yields idle spec trail depth p v q)
    (member : child ∈ spec.children) :
    ∃ place before w after, c.Yields idle child place (depth + 1) before w after := by
  cases yields with
  | leaf fits planned =>
    rw [children_leaf planned] at member
    cases member
  | container fits planned parts =>
    rw [← (parts_container planned).1] at member
    exact parts.mem member
  | again | opened => cases member

theorem compile_of_yields {spec : Spec} {next : Handle} {v : Validator Handle} {q : Progress}
    (yields : c.Yields c.allSlots spec [] 0 ⟨next, []⟩ v q) :
    c.compile spec next = .ok (v, q.next) := by
  rw [compile, Compiler.run]
  exact congrArg (Except.map _) yields.run

theorem compile_of_fails {spec : Spec} {next : Handle} {e : CompileError}
    (fails : c.Fails c.allSlots spec [] 0 ⟨next, []⟩ e) : c.compile spec next = .error e := by
  rw [compile, Compiler.run]
  exact congrArg (Except.map _) fails.run

end Conform.Compiler
