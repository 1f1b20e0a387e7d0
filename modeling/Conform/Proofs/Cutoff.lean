import Conform.Proofs.Descent
import Conform.Proofs.Extension

set_option autoImplicit false

/-!
What the depth limit does to a run. A run that stays within a limit is the same under any greater
one, and one that does not is cut off at the first place that is too deep. Depth and trail go in
step, so an error tells by its trail how deep it is.
-/

namespace Conform

def CompileError.Within (limit : Nat) (e : CompileError) : Prop :=
  match e.fault.kind with
  | .tooDeep => e.fault = .tooDeep limit ∧ e.trail.length = limit + 1
  | .unrecognizedKey => e.trail.length ≤ limit + 1
  | .unrecognized | .duplicateField | .cyclic => e.trail.length ≤ limit

namespace Compiler

open Relation

variable {c : Compiler} {limit : Nat}

-- Only a step to an unsound key goes further than the fragment itself.
theorem within_of_faulty {spec : Spec} {trail : Trail} {depth : Nat} {e : CompileError}
    (planned : c.plan spec = .faulty e) (place : trail.length = depth) (fits : depth ≤ limit) :
    CompileError.Within limit ⟨trail ++ e.trail, e.fault⟩ := by
  have here : (trail ++ []).length ≤ limit := by simpa [place] using fits
  rcases plan_faulty_cases planned with
    ⟨marker, rfl, -, rfl⟩ | ⟨value, rfl, -, rfl⟩ | ⟨mode, children, rfl, -, rfl⟩ |
      ⟨entries, extra, rfl, keys⟩
  · exact here
  · exact here
  · exact here
  · cases keys with
    | repeated => exact here
    | unsound found refused =>
      rw [CompileError.Within, KeySpec.kind_of_refused refused]
      simpa [place] using fits

-- A call is made from one that is not too deep, so its depth is at most one more than the limit.
theorem Fails.within {idle : List Slot} {spec : Spec} {trail : Trail} {depth : Nat}
    {p : Progress} {e : CompileError} (fails : c.Fails idle spec trail depth p e) :
    trail.length = depth → depth ≤ c.options.maxDepth + 1 → e.Within c.options.maxDepth := by
  induction fails with
  | tooDeep deep =>
    intro place near
    exact ⟨rfl, by simp only; omega⟩
  | faulty fits planned =>
    intro place near
    exact within_of_faulty planned place fits
  | part fits planned split passed failed ih =>
    intro place near
    exact ih (by simp [place]) (by omega)
  | undefined fits | cyclic fits =>
    intro place near
    exact place.trans_le fits
  | inside fits unfinished defined waits failed ih =>
    intro place near
    exact ih place near

mutual

theorem Yields.deepen (more : c.options.maxDepth ≤ limit) {idle : List Slot} {spec : Spec}
    {trail : Trail} {depth : Nat} {p q : Progress} {v : Validator Handle} :
    c.Yields idle spec trail depth p v q →
      (c.withMaxDepth limit).Yields idle spec trail depth p v q
  | .leaf fits planned made => .leaf (fits.trans more) planned made
  | .container fits planned parts => .container (fits.trans more) planned (parts.deepen more)
  | .again fits finished => .again (fits.trans more) finished
  | .opened fits unfinished defined waits inner =>
    .opened (fits.trans more) unfinished defined waits (inner.deepen more)

theorem YieldsAll.deepen (more : c.options.maxDepth ≤ limit) {idle : List Slot}
    {parts : List (Step × Spec)} {trail : Trail} {depth : Nat} {p q : Progress}
    {vs : List (Validator Handle)} :
    c.YieldsAll idle parts trail depth p vs q →
      (c.withMaxDepth limit).YieldsAll idle parts trail depth p vs q
  | .nil => .nil
  | .cons first others => .cons (first.deepen more) (others.deepen more)

end

theorem Fails.deepen (more : c.options.maxDepth ≤ limit) {idle : List Slot} {spec : Spec}
    {trail : Trail} {depth : Nat} {p : Progress} {e : CompileError}
    (fails : c.Fails idle spec trail depth p e) :
    e.fault = .tooDeep c.options.maxDepth ∨
      (c.withMaxDepth limit).Fails idle spec trail depth p e := by
  induction fails with
  | tooDeep => exact .inl rfl
  | faulty fits planned => exact .inr (.faulty (fits.trans more) planned)
  | part fits planned split passed failed ih =>
    exact ih.imp_right (.part (fits.trans more) planned split (passed.deepen more))
  | undefined fits unfinished missing =>
    exact .inr (.undefined (fits.trans more) unfinished missing)
  | cyclic fits unfinished defined busy =>
    exact .inr (.cyclic (fits.trans more) unfinished defined busy)
  | inside fits unfinished defined waits failed ih =>
    exact ih.imp_right (.inside (fits.trans more) unfinished defined waits)

-- A run ends because it gets deeper than the compiler allows.
def Cut (c : Compiler) {α : Type} (result : Except CompileError α) : Prop :=
  ∃ trail, result = .error ⟨trail, .tooDeep c.options.maxDepth⟩

theorem Call.run_deepen (more : c.options.maxDepth ≤ limit) (call : Call) :
    call.run c = call.run (c.withMaxDepth limit) ∨ c.Cut (call.run c) := by
  have runs := c.runs_build call.idle call.spec call.trail call.depth call.progress
  change c.Runs _ _ _ _ _ (call.run c) at runs
  cases result : call.run c with
  | ok made =>
    rw [result] at runs
    exact .inl (Yields.run (Yields.deepen more runs)).symm
  | error e =>
    rw [result] at runs
    rcases Fails.deepen more runs with deep | fails
    · exact .inr ⟨e.trail, by rw [← deep]⟩
    · exact .inl fails.run.symm

theorem buildParts_deepen (more : c.options.maxDepth ≤ limit) (idle : List Slot)
    (parts : List (Step × Spec)) (trail : Trail) (depth : Nat) (p : Progress) :
    (c.buildParts (c.openSlot idle) trail depth parts).run p =
        ((c.withMaxDepth limit).buildParts ((c.withMaxDepth limit).openSlot idle) trail depth
          parts).run p ∨
      c.Cut ((c.buildParts (c.openSlot idle) trail depth parts).run p) := by
  have runs := c.runsAll_run idle parts trail depth p
  cases result : (c.buildParts (c.openSlot idle) trail depth parts).run p with
  | ok made =>
    rw [result] at runs
    exact .inl (YieldsAll.run (YieldsAll.deepen more runs)).symm
  | error e =>
    rw [result] at runs
    obtain ⟨before, step, part, after, vs, q, rfl, passed, failed⟩ := runs
    rcases failed.deepen more with deep | fails
    · exact .inr ⟨e.trail, by rw [← deep]⟩
    · exact .inl (buildParts_run_part (passed.deepen more).run fails.run).symm

theorem Call.cut_of_deep {call : Call} (deep : c.options.maxDepth < call.depth) :
    c.Cut (call.run c) :=
  ⟨call.trail, build_run_of_deep deep⟩

theorem Makes.deepen (more : c.options.maxDepth ≤ limit) {call inner : Call}
    (made : c.Makes call inner) : (c.withMaxDepth limit).Makes call inner := by
  cases made with
  | @part frame before after step part vs q fits planned split passed =>
    have runs := c.runsAll_run call.idle before call.trail (call.depth + 1) call.progress
    rw [passed] at runs
    exact .part (fits.trans more) planned split (YieldsAll.run (YieldsAll.deepen more runs))
  | definition fits mention unfinished defined waits =>
    exact .definition (fits.trans more) mention unfinished defined waits

-- What comes before a part is not cut off either, or the call would be.
theorem Makes.of_deepen (more : c.options.maxDepth ≤ limit) {call inner : Call}
    (whole : ¬ c.Cut (call.run c)) (made : (c.withMaxDepth limit).Makes call inner) :
    c.Makes call inner := by
  have fits : call.depth ≤ c.options.maxDepth :=
    Nat.le_of_not_lt fun deep => whole (Call.cut_of_deep deep)
  cases made with
  | @part frame before after step part vs q _ planned split passed =>
    have planned : c.plan call.spec = .container frame := planned
    rcases buildParts_deepen more call.idle before call.trail (call.depth + 1) call.progress with
      same | ⟨trail, early⟩
    · exact .part fits planned split (same.trans passed)
    · refine absurd ⟨trail, ?_⟩ whole
      rw [Call.run, build_run_container fits planned, split, buildParts_run_append, early]
      rfl
  | definition _ mention unfinished defined waits =>
    exact .definition fits mention unfinished defined waits

theorem cut_iff_exists_deep (more : c.options.maxDepth ≤ limit) (call : Call) :
    c.Cut (call.run c) ↔
      ∃ inner, ReflTransGen (c.withMaxDepth limit).Makes call inner ∧
        c.options.maxDepth < inner.depth := by
  constructor
  · rintro ⟨trail, cut⟩
    have fails := c.runs_build call.idle call.spec call.trail call.depth call.progress
    change c.Runs _ _ _ _ _ (call.run c) at fails
    rw [cut] at fails
    obtain ⟨inner, made, deep⟩ := Fails.exists_call_too_deep fails rfl
    exact ⟨inner, ReflTransGen.mono (fun _ _ => Makes.deepen more) _ _ made, deep⟩
  · rintro ⟨inner, made, deep⟩
    by_contra whole
    have same : ReflTransGen c.Makes call inner ∧ ¬ c.Cut (inner.run c) := by
      clear deep
      induction made with
      | refl => exact ⟨.refl, whole⟩
      | tail _ last ih =>
        have first := last.of_deepen more ih.2
        exact ⟨ih.1.tail first, fun ⟨trail, cut⟩ => ih.2 ⟨trail, first.run_error cut⟩⟩
    exact same.2 (Call.cut_of_deep deep)

theorem cut_compile_iff {spec : Spec} {next : Handle} :
    c.Cut (c.compile spec next) ↔ c.Cut ((c.start spec next).run c) := by
  rw [compile_eq_run]
  cases (c.start spec next).run c <;> simp [Cut, Except.map]

/--
Under a lower limit compiling is cut off, if it gets deeper than that at any place, and comes to
the same otherwise.
-/
theorem outcome_compile_withMaxDepth (c : Compiler) (spec : Spec) {n m : Nat} (below : n ≤ m)
    (next next' : Handle) :
    (outcome ((c.withMaxDepth n).compile spec next) =
        outcome ((c.withMaxDepth m).compile spec next') ∨
      ∃ trail, (c.withMaxDepth n).compile spec next = .error ⟨trail, .tooDeep n⟩) ∧
    ((∃ trail, (c.withMaxDepth n).compile spec next = .error ⟨trail, .tooDeep n⟩) ↔
      ∃ inner, ReflTransGen (c.withMaxDepth m).Makes (c.start spec next) inner ∧
        n < inner.depth) ∧
    ∀ e, (c.withMaxDepth n).compile spec next = .error e → e.Within n := by
  refine ⟨?_, ?_, ?_⟩
  · rcases Call.run_deepen (c := c.withMaxDepth n) below (c.start spec next) with same | cut
    · left
      change ((c.withMaxDepth n).start spec next).run (c.withMaxDepth n) =
        ((c.withMaxDepth m).start spec next).run (c.withMaxDepth m) at same
      rw [compile_eq_run, same, ← compile_eq_run]
      exact outcome_compile_tags (c.withMaxDepth m) spec next' next
    · exact .inr (cut_compile_iff.mpr cut)
  · exact cut_compile_iff.trans (cut_iff_exists_deep (c := c.withMaxDepth n) below _)
  · intro e refused
    exact (fails_of_compile refused).within rfl (Nat.zero_le _)

-- A list in a slot, which two levels are enough for and one is not.
theorem outcome_shallow_cut :
    1 ≤ 2 ∧
      (∃ trail, (shallow.withMaxDepth 1).compile (.sequence [.slot 0, .listOf (.slot 0)]) 0 =
        .error ⟨trail, .tooDeep 1⟩) ∧
      (outcome ((shallow.withMaxDepth 2).compile (.sequence [.slot 0, .listOf (.slot 0)]) 0)).isOk ∧
      (∃ inner, ReflTransGen (shallow.withMaxDepth 2).Makes
        (shallow.start (.sequence [.slot 0, .listOf (.slot 0)]) 0) inner ∧ 1 < inner.depth) ∧
      CompileError.Within 1 ⟨[.index 0, .index 0], .tooDeep 1⟩ := by
  have below : 1 ≤ 2 := by decide
  have refused : (shallow.withMaxDepth 1).compile (.sequence [.slot 0, .listOf (.slot 0)]) 0 =
      .error ⟨[.index 0, .index 0], .tooDeep 1⟩ := by
    with_unfolding_all rfl
  have made : (outcome ((shallow.withMaxDepth 2).compile
      (.sequence [.slot 0, .listOf (.slot 0)]) 0)).isOk := by
    with_unfolding_all rfl
  obtain ⟨-, cut, within⟩ := outcome_compile_withMaxDepth shallow
    (.sequence [.slot 0, .listOf (.slot 0)]) below 0 0
  exact ⟨below, ⟨_, refused⟩, made, cut.mp ⟨_, refused⟩, within _ refused⟩

end Compiler

end Conform
