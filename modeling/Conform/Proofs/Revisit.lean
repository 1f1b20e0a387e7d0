import Conform.Proofs.Afresh
import Mathlib.Data.Set.Basic

set_option autoImplicit false

/-!
When the table of finished slots makes a difference. A slot that is met again at a greater
depth is not measured there, so a compiler without the table can get too deep where the one
with the table does not. Nothing else tells them apart.
-/

namespace Conform

-- The slots that compiling these parts meets.
def slotsOf (slots : Slots) (parts : List (Step × Spec)) : Set Slot :=
  {slot | ∃ spec ∈ parts.map (·.2), Reaches slots spec (.slot slot)}

/--
The trail leads inside a slot that was met before, either at the start or in a part that comes
before one on the trail.
-/
inductive Revisits (slots : Slots) : Set Slot → Spec → Trail → Prop
  | again {met : Set Slot} {slot : Slot} {step : Step} {rest : Trail} (known : slot ∈ met) :
      Revisits slots met (.slot slot) (step :: rest)
  | through {met : Set Slot} {slot : Slot} {definition : Spec} {rest : Trail}
      (defined : slots.get? slot = some definition) (inner : Revisits slots met definition rest) :
      Revisits slots met (.slot slot) rest
  | into {met : Set Slot} {spec part : Spec} {before after : List (Step × Spec)} {step : Step}
      {rest : Trail} (split : spec.parts = before ++ (step, part) :: after)
      (inner : Revisits slots (met ∪ slotsOf slots before) part rest) :
      Revisits slots met spec (step :: rest)

variable {slots : Slots}

theorem not_revisits_nil {met : Set Slot} {spec : Spec} : ¬ Revisits slots met spec [] := by
  intro revisits
  generalize nothing : ([] : Trail) = rest at revisits
  induction revisits with
  | again | into => cases nothing
  | through _ _ ih => exact ih nothing

theorem slotsOf_nil : slotsOf slots [] = ∅ := by
  simp [slotsOf]

theorem slotsOf_cons (step : Step) (spec : Spec) (rest : List (Step × Spec)) :
    slotsOf slots ((step, spec) :: rest) =
      {slot | Reaches slots spec (.slot slot)} ∪ slotsOf slots rest := by
  ext slot
  simp [slotsOf]

def Progress.met (p : Progress) : Set Slot := {slot | slot ∈ p.done.map (·.1)}

namespace Compiler

variable {c : Compiler}

theorem Advanced.met_eq {idle : List Slot} {p q : Progress} {met : Slot → Prop}
    (advanced : c.Advanced idle p q met) : q.met = p.met ∪ {slot | met slot} := by
  ext slot
  exact advanced.finished slot

theorem met_of_yieldsAll {idle : List Slot} {parts : List (Step × Spec)} {trail : Trail}
    {depth : Nat} {p q : Progress} {vs : List (Validator Handle)}
    (passed : c.YieldsAll idle parts trail depth p vs q) (settled : c.Settled idle p) :
    q.met = p.met ∪ slotsOf c.slots parts := by
  rw [(passed.completed settled).2.met_eq]
  rfl

theorem plan_faulty_trail {spec : Spec} {e : CompileError} (planned : c.plan spec = .faulty e) :
    e.trail = [] ∨ ∃ step, e.trail = [step] := by
  rcases plan_faulty_cases planned with
    ⟨marker, rfl, -, rfl⟩ | ⟨value, rfl, -, rfl⟩ | ⟨mode, children, rfl, -, rfl⟩ |
      ⟨entries, extra, rfl, keys⟩
  · exact .inl rfl
  · exact .inl rfl
  · exact .inl rfl
  · cases keys with
    | unsound => exact .inr ⟨_, rfl⟩
    | repeated => exact .inl rfl

theorem Fails.extends {idle : List Slot} {spec : Spec} {trail : Trail} {depth : Nat}
    {p : Progress} {e : CompileError} (fails : c.Fails idle spec trail depth p e) :
    ∃ rest, e.trail = trail ++ rest := by
  induction fails with
  | tooDeep | undefined | cyclic => exact ⟨[], (List.append_nil _).symm⟩
  | faulty => exact ⟨_, rfl⟩
  | part _ _ _ _ _ ih =>
    obtain ⟨rest, same⟩ := ih
    exact ⟨_, same.trans (List.append_assoc _ _ _)⟩
  | inside _ _ _ _ _ ih => exact ih

theorem eq_of_splits {before before' after after' : List (Step × Spec)} {step : Step}
    {part part' : Spec} (nodup : ((before ++ (step, part) :: after).map (·.1)).Nodup)
    (same : before ++ (step, part) :: after = before' ++ (step, part') :: after') :
    before = before' ∧ part = part' := by
  induction before generalizing before' with
  | nil =>
    cases before' with
    | nil => simp_all
    | cons head before' =>
      simp only [List.nil_append, List.cons_append, List.cons.injEq] at same
      simp [same.2] at nodup
  | cons head before ih =>
    cases before' with
    | nil =>
      simp only [List.nil_append, List.cons_append, List.cons.injEq] at same
      simp [same.1] at nodup
    | cons head' before' =>
      simp only [List.cons_append, List.cons.injEq, List.map_cons, List.nodup_cons] at same nodup
      obtain ⟨rfl, rfl⟩ := ih nodup.2 same.2
      exact ⟨by rw [same.1], rfl⟩

-- The run has not left the definitions that it finished alone, so it fails at a new place.
theorem Fails.not_revisits {idle : List Slot} {spec : Spec} {trail : Trail} {depth : Nat}
    {p : Progress} {e : CompileError} (fails : c.Fails idle spec trail depth p e) :
    c.Settled idle p → ∀ rest, e.trail = trail ++ rest → ¬ Revisits c.slots p.met spec rest := by
  induction fails with
  | tooDeep | undefined | cyclic =>
    intro _ rest same
    obtain rfl := List.append_right_eq_self.mp same.symm
    exact not_revisits_nil
  | faulty fits planned =>
    intro _ rest same revisits
    obtain rfl := List.append_cancel_left same
    rcases plan_faulty_trail planned with none | ⟨step, one⟩
    · rw [none] at revisits
      exact not_revisits_nil revisits
    · rw [one] at revisits
      cases revisits with
      | again | through => cases planned
      | into _ inner => exact not_revisits_nil inner
  | @part idle spec part trail depth p q frame before after step vs e fits planned split passed
      failed ih =>
    intro settled rest same revisits
    obtain ⟨tail, below⟩ := failed.extends
    rw [below, List.append_assoc] at same
    obtain rfl := List.append_cancel_left same
    cases revisits with
    | again | through => cases planned
    | into split' inner =>
      have nodup := (parts_container planned).2
      rw [split] at nodup split'
      obtain ⟨rfl, rfl⟩ := eq_of_splits nodup split'
      rw [← met_of_yieldsAll passed settled] at inner
      exact ih (passed.completed settled).2.settled tail below inner
  | inside fits unfinished defined waits failed ih =>
    intro settled rest same revisits
    cases revisits with
    | again known => exact Progress.lookup_done_eq_none.mp unfinished known
    | through defined' inner =>
      rw [defined, Option.some.injEq] at defined'
      exact ih (settled.open unfinished) rest same (defined' ▸ inner)
    | into split _ => simp [Spec.parts] at split

-- The trail enters one of these parts and there goes inside a slot that was met before.
def RevisitsPart (slots : Slots) (met : Set Slot) (parts : List (Step × Spec)) (rest : Trail) :
    Prop :=
  ∃ before step part after tail, parts = before ++ (step, part) :: after ∧ rest = step :: tail ∧
    Revisits slots (met ∪ slotsOf slots before) part tail

theorem RevisitsPart.into {met : Set Slot} {spec : Spec} {rest : Trail}
    (revisits : RevisitsPart c.slots met spec.parts rest) : Revisits c.slots met spec rest := by
  obtain ⟨before, step, part, after, tail, split, rfl, inner⟩ := revisits
  exact .into split inner

theorem RevisitsPart.head {met : Set Slot} {step : Step} {part : Spec}
    {parts : List (Step × Spec)} {rest : Trail} (revisits : Revisits c.slots met part rest) :
    RevisitsPart c.slots met ((step, part) :: parts) (step :: rest) := by
  refine ⟨[], step, part, parts, rest, rfl, rfl, ?_⟩
  rw [slotsOf_nil, Set.union_empty]
  exact revisits

theorem RevisitsPart.tail {met : Set Slot} {step : Step} {part : Spec}
    {parts : List (Step × Spec)} {rest : Trail}
    (revisits :
      RevisitsPart c.slots (met ∪ {slot | Reaches c.slots part (.slot slot)}) parts rest) :
    RevisitsPart c.slots met ((step, part) :: parts) rest := by
  obtain ⟨before, other, next, after, tail, rfl, rfl, inner⟩ := revisits
  refine ⟨(step, part) :: before, other, next, after, tail, rfl, rfl, ?_⟩
  rw [slotsOf_cons, ← Set.union_assoc]
  exact inner

theorem RevisitsPart.append {met : Set Slot} {parts : List (Step × Spec)} {rest : Trail}
    (revisits : RevisitsPart c.slots met parts rest) (more : List (Step × Spec)) :
    RevisitsPart c.slots met (parts ++ more) rest := by
  obtain ⟨before, step, part, after, tail, rfl, rfl, inner⟩ := revisits
  exact ⟨before, step, part, after ++ more, tail, List.append_assoc _ _ _, rfl, inner⟩

-- A finished slot stands for a shape, so opening it again gives that shape or runs out of depth.
theorem Settled.redone {idle : List Slot} {p : Progress} {slot : Slot} {v : Validator Handle}
    {depth : Nat} (settled : c.Settled idle p) (fits : depth ≤ c.options.maxDepth)
    (finished : p.done.lookup slot = some v) (trail : Trail) (r : Progress) :
    c.Redoes Validator.shape trail (Revisits c.slots p.met (.slot slot)) (.ok v.shape)
      (c.afresh idle (.slot slot) trail depth r) := by
  have known := Progress.mem_done_of_lookup finished
  have waits : ∀ other, Reaches c.slots (.slot slot) (.slot other) → other ∈ idle :=
    fun other reaches => settled.waiting other (settled.closed slot known other reaches)
  refine Redoes.imp ?_ ((settled.denoted slot v finished).redone idle waits trail depth r)
  intro rest deep
  cases rest with
  | nil => exact absurd (deep rfl) (Nat.not_lt.mpr fits)
  | cons step rest => exact .again known

mutual

theorem Yields.redone {idle : List Slot} {spec : Spec} {trail : Trail} {depth : Nat}
    {p q : Progress} {v : Validator Handle} :
    c.Yields idle spec trail depth p v q → c.Settled idle p → ∀ r,
      c.Redoes Validator.shape trail (Revisits c.slots p.met spec) (.ok v.shape)
        (c.afresh idle spec trail depth r)
  | .leaf fits planned made, settled, r =>
    Entry.instantiate_shape made ▸ redoes_leaf fits planned
  | .container fits planned parts, settled, r => by
    have all := parts.redone settled r
    rw [Frame.join_shape]
    exact redoes_container fits planned (fun _ => RevisitsPart.into) all
  | .again fits finished, settled, r => settled.redone fits finished trail r
  | .opened fits unfinished defined waits inner, settled, r => by
    have again := inner.redone (settled.open unfinished) r
    exact redoes_slot fits defined waits (again.imp fun _ => .through defined)

theorem YieldsAll.redone {idle : List Slot} {parts : List (Step × Spec)} {trail : Trail}
    {depth : Nat} {p q : Progress} {vs : List (Validator Handle)} :
    c.YieldsAll idle parts trail depth p vs q → c.Settled idle p → ∀ r,
      c.Redoes (List.map Validator.shape) trail (RevisitsPart c.slots p.met parts)
        (.ok (vs.map Validator.shape)) (c.afreshAll idle parts trail depth r)
  | .nil, settled, r => redoes_ok rfl
  | .cons first others, settled, r => by
    have head := first.redone settled r
    have advanced := (first.completed settled).2
    have tail := others.redone advanced.settled
    rw [advanced.met_eq] at tail
    exact redoesAll_cons (fun _ => RevisitsPart.head) (fun _ => RevisitsPart.tail) head tail

end

theorem Fails.redone {idle : List Slot} {spec : Spec} {trail : Trail} {depth : Nat}
    {p : Progress} {e : CompileError} (fails : c.Fails idle spec trail depth p e) :
    c.Settled idle p → ∀ r,
      c.Redoes Validator.shape trail (Revisits c.slots p.met spec) (.error e)
        (c.afresh idle spec trail depth r) := by
  induction fails with
  | tooDeep deep =>
    intro _ r
    rw [afresh_eq, if_pos deep]
    exact .inl rfl
  | faulty fits planned =>
    intro _ r
    rw [afresh_eq, if_neg (Nat.not_lt.mpr fits), planned]
    exact .inl rfl
  | part fits planned split passed failed ih =>
    intro settled r
    have further := (passed.completed settled).2.settled
    refine redoes_part fits planned split ?_ ?_ (passed.redone settled r) (ih further)
    · intro rest revisits
      refine RevisitsPart.into ?_
      rw [split]
      exact revisits.append _
    · intro rest revisits
      rw [met_of_yieldsAll passed settled] at revisits
      exact .into split revisits
  | undefined fits unfinished missing =>
    intro _ r
    rw [afresh_eq, if_neg (Nat.not_lt.mpr fits)]
    simp only [plan, missing]
    exact .inl rfl
  | cyclic fits unfinished defined busy =>
    intro _ r
    rw [afresh_eq, if_neg (Nat.not_lt.mpr fits)]
    simp only [plan, defined, if_neg busy]
    exact .inl rfl
  | inside fits unfinished defined waits failed ih =>
    intro settled r
    have again := ih (settled.open unfinished) r
    exact redoes_slot fits defined waits (again.imp fun _ => .through defined)

theorem Runs.redone {idle : List Slot} {spec : Spec} {trail : Trail} {depth : Nat} {p : Progress}
    {result : Except CompileError (Validator Handle × Progress)}
    (runs : c.Runs idle spec trail depth p result) (settled : c.Settled idle p) (r : Progress) :
    c.Redoes Validator.shape trail (Revisits c.slots p.met spec)
      (result.map fun made => made.1.shape) (c.afresh idle spec trail depth r) := by
  cases result with
  | ok made => exact Yields.redone runs settled r
  | error e => exact Fails.redone runs settled r

def outcome (result : Except CompileError (Validator Handle × Handle)) :
    Except CompileError (Validator Unit) :=
  result.map fun made => made.1.shape

theorem outcome_next (result : Except CompileError (Validator Handle × Progress)) :
    outcome (result.map fun (v, progress) => (v, progress.next)) =
      result.map fun made => made.1.shape := by
  cases result <;> rfl

theorem redoes_compile (c : Compiler) (spec : Spec) (next : Handle) :
    outcome (c.compile spec next) = outcome (c.compileAfresh spec next) ∨
      ∃ trail, c.compileAfresh spec next = .error ⟨trail, .tooDeep c.options.maxDepth⟩ ∧
        Revisits c.slots ∅ spec trail := by
  obtain ⟨result, runs, compiled⟩ := c.runs_compile spec next
  have redone := runs.redone (c.settled_start next) ⟨next, []⟩
  rw [compiled, compileAfresh, outcome_next, outcome_next]
  rcases redone with same | ⟨trail, revisits, fresh⟩
  · exact .inl same.symm
  · right
    rw [fresh]
    refine ⟨trail, rfl, ?_⟩
    simpa [Progress.met] using revisits

-- The table goes unnoticed, except where a compiler without it gets too deep inside a slot
-- that it met before.
theorem outcome_compile_eq_iff (c : Compiler) (spec : Spec) (next : Handle) :
    outcome (c.compile spec next) = outcome (c.compileAfresh spec next) ↔
      ¬ ∃ trail, c.compileAfresh spec next = .error ⟨trail, .tooDeep c.options.maxDepth⟩ ∧
        Revisits c.slots ∅ spec trail := by
  constructor
  · rintro same ⟨trail, fresh, revisits⟩
    rw [fresh] at same
    cases compiled : c.compile spec next with
    | ok made =>
      rw [compiled] at same
      cases same
    | error e =>
      rw [compiled] at same
      obtain rfl : e = ⟨trail, .tooDeep c.options.maxDepth⟩ := Except.error.inj same
      have fails := fails_of_compile compiled
      refine fails.not_revisits (c.settled_start next) trail rfl ?_
      simpa [Progress.met] using revisits
  · intro agree
    exact (c.redoes_compile spec next).resolve_right agree

-- Two levels are enough for a list in a slot, but not for one inside another list.
def shallow : Compiler where
  registry := ⟨[("int", .factory (.leaf () (.primitive .integer)))]⟩
  options := { maxDepth := 2 }
  slots := ⟨[some (.listOf (.marker "int"))]⟩

theorem outcome_compile_ne_afresh :
    outcome (shallow.compile (.sequence [.slot 0, .listOf (.slot 0)]) 0) ≠
      outcome (shallow.compileAfresh (.sequence [.slot 0, .listOf (.slot 0)]) 0) := by
  have made : (outcome (shallow.compile (.sequence [.slot 0, .listOf (.slot 0)]) 0)).isOk := by
    with_unfolding_all rfl
  have fresh : outcome (shallow.compileAfresh (.sequence [.slot 0, .listOf (.slot 0)]) 0) =
      .error ⟨[.index 1, .index 0, .index 0], .tooDeep 2⟩ := by
    with_unfolding_all rfl
  intro same
  rw [same, fresh] at made
  cases made

end Compiler

end Conform
