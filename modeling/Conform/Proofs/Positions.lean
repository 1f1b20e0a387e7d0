import Conform.Proofs.Account
import Conform.Proofs.Rerooting
import Mathlib.Data.List.Induction
import Mathlib.Data.List.Sort

set_option autoImplicit false

/-!
Arrays are checked position by position. The answer has the value of each element at its index,
or the failures of just those positions that failed, each seen from the array.
-/

namespace Conform

namespace Outcome

variable {α : Type}

-- One failure for each outcome that is a failure, by rising index. All its nodes are moved there.
structure Itemizes (outcomes : List (Outcome α)) (indices : List Nat) (parts : List Failure) :
    Prop where
  rising : indices.Pairwise (· < ·)
  failing : ∀ i, i ∈ indices ↔ ∃ e, outcomes[i]? = some (.error e)
  placed : List.Forall₂
    (fun i part => ∃ e, outcomes[i]? = some (.error e) ∧ e.Moves (.index i) part) indices parts

theorem itemizes_nil : Itemizes ([] : List (Outcome α)) [] [] where
  rising := .nil
  failing := by simp
  placed := .nil

section

variable {outcomes : List (Outcome α)} {indices : List Nat} {parts : List Failure}

theorem Itemizes.lt_length (itemizes : Itemizes outcomes indices parts) {i : Nat}
    (member : i ∈ indices) : i < outcomes.length := by
  obtain ⟨e, found⟩ := (itemizes.failing i).mp member
  exact (List.getElem?_eq_some_iff.mp found).1

-- An outcome after the others leaves their places as they are.
theorem Itemizes.placed_append (itemizes : Itemizes outcomes indices parts)
    (others : List (Outcome α)) :
    List.Forall₂ (fun i part => ∃ e, (outcomes ++ others)[i]? = some (.error e) ∧
      e.Moves (.index i) part) indices parts := by
  refine itemizes.placed.imp fun i part ⟨e, found, moves⟩ => ⟨e, ?_, moves⟩
  have inside := (List.getElem?_eq_some_iff.mp found).1
  rw [List.getElem?_append_left inside, found]

theorem Itemizes.append_ok (itemizes : Itemizes outcomes indices parts) (value : α) :
    Itemizes (outcomes ++ [.ok value]) indices parts where
  rising := itemizes.rising
  failing i := by
    rw [itemizes.failing i]
    by_cases inside : i < outcomes.length
    · rw [List.getElem?_append_left inside]
    · have outside : outcomes.length ≤ i := by omega
      rw [List.getElem?_append_right outside, List.getElem?_eq_none outside]
      cases i - outcomes.length <;> simp
  placed := itemizes.placed_append _

theorem Itemizes.append_error (itemizes : Itemizes outcomes indices parts) (e : Failure) :
    Itemizes (outcomes ++ [.error e]) (indices ++ [outcomes.length])
      (parts ++ [e.under (.index outcomes.length)]) where
  rising := by
    apply List.pairwise_append.mpr
    refine ⟨itemizes.rising, List.pairwise_singleton _ _, ?_⟩
    intro i member last here
    rw [List.mem_singleton.mp here]
    exact itemizes.lt_length member
  failing i := by
    rw [List.mem_append, List.mem_singleton, itemizes.failing i]
    by_cases inside : i < outcomes.length
    · have earlier : i ≠ outcomes.length := by omega
      simp [List.getElem?_append_left inside, earlier]
    · have outside : outcomes.length ≤ i := by omega
      rw [List.getElem?_append_right outside, List.getElem?_eq_none outside]
      by_cases last : i = outcomes.length
      · simp [last]
      · have later : i - outcomes.length ≠ 0 := by omega
        simp [last, later]
  placed := by
    apply List.rel_append (itemizes.placed_append _)
    exact .cons ⟨e, by simp, Failure.moves_under _ e⟩ .nil

-- Rising indices that are the same are the same list, and each names one failure.
theorem Itemizes.unique {indices' : List Nat} {parts' : List Failure}
    (first : Itemizes outcomes indices parts) (second : Itemizes outcomes indices' parts') :
    parts = parts' := by
  have same : indices = indices' := first.rising.eq_of_mem_iff second.rising fun i =>
    (first.failing i).trans (second.failing i).symm
  subst same
  refine List.right_unique_forall₂' ?_ first.placed second.placed
  intro i part part' ⟨e, found, moves⟩ ⟨f, found', moves'⟩
  rw [found] at found'
  simp only [Option.some.injEq, Except.error.injEq] at found'
  rw [moves.eq_under, moves'.eq_under, found']

end

-- The outcomes are added at the end, so that those before keep their indices.
theorem itemizes_indexed (outcomes : List (Outcome α)) :
    ∃ indices, Itemizes outcomes indices (failures (indexed outcomes)) := by
  induction outcomes using List.reverseRecOn with
  | nil => exact ⟨[], itemizes_nil⟩
  | append_singleton outcomes last ih =>
    obtain ⟨indices, itemizes⟩ := ih
    have more : failures (indexed (outcomes ++ [last])) = failures (indexed outcomes) ++
        failures [last.mapError (Failure.under (.index outcomes.length))] := by
      simp [indexed, List.mapIdx_append, failures_append]
    rw [more]
    cases last with
    | ok value =>
      have same := itemizes.append_ok value
      exact ⟨indices, by simpa [failures, Except.mapError] using same⟩
    | error e => exact ⟨_, itemizes.append_error e⟩

structure Positionwise (code : String) (failFast : Bool) (outcomes : List (Outcome Json))
    (answer : Outcome Json) : Prop where
  accepts : ∀ out, answer = .ok out ↔ ∃ outs, out = .array outs ∧
    List.Forall₂ (fun outcome value => outcome = .ok value) outcomes outs
  refuses : ∀ e, answer = .error e → ∃ indices parts, Itemizes outcomes indices parts ∧
    Failure.Accounts code failFast parts e

-- Two answers for the same outcomes differ in nothing but how they name and count failures.
theorem Positionwise.agree {code code' : String} {failFast : Bool} {outcomes : List (Outcome Json)}
    {answer answer' : Outcome Json} (first : Positionwise code failFast outcomes answer)
    (second : Positionwise code' failFast outcomes answer') :
    (∀ out, answer = .ok out ↔ answer' = .ok out) ∧
      ∀ e f, answer = .error e → answer' = .error f → e.nested = f.nested ∧ (failFast → e = f) := by
  constructor
  · intro out
    rw [first.accepts, second.accepts]
  · intro e f refused refused'
    obtain ⟨indices, parts, itemizes, accounts⟩ := first.refuses e refused
    obtain ⟨indices', parts', itemizes', accounts'⟩ := second.refuses f refused'
    have same := itemizes.unique itemizes'
    subst same
    cases failFast with
    | true =>
      have alike : some e = some f := accounts.symm.trans accounts'
      simp_all
    | false =>
      have nested := accounts.2.nested.trans accounts'.2.nested.symm
      simp [nested]

theorem positionwise_settle (code : String) (message : Nat → String) (failFast : Bool)
    (outcomes : List (Outcome Json)) :
    Positionwise code failFast outcomes
      ((settle failFast (Failure.gathered code message) (indexed outcomes)).map .array) where
  accepts out := by
    have listed (outs : List Json) : outcomes = outs.map .ok ↔
        List.Forall₂ (fun outcome value => outcome = .ok value) outcomes outs := by
      rw [← List.forall₂_eq_eq_eq, List.forall₂_map_right_iff]
    simp only [map_eq_ok_iff, settle_eq_ok_iff, indexed_eq_map_ok_iff, listed]
    constructor
    · intro ⟨outs, taken, same⟩
      exact ⟨outs, same.symm, taken⟩
    · intro ⟨outs, same, taken⟩
      exact ⟨outs, taken, same.symm⟩
  refuses e failed := by
    obtain ⟨indices, itemizes⟩ := itemizes_indexed outcomes
    exact ⟨indices, _, itemizes, accounts_of_settle (map_eq_error_iff.mp failed)⟩

end Outcome

open Outcome

namespace Check

theorem positionwise_each (check : Check) (failFast : Bool) (items : List Json) :
    Positionwise "each_failed" failFast (items.map check) (each check failFast (.array items)) := by
  rw [each]
  apply positionwise_settle

theorem positionwise_tuple {checks : List Check} {items : List Json}
    (fits : items.length = checks.length) (failFast : Bool) :
    Positionwise "tuple_invalid" failFast (List.zipWith (fun check item => check item) checks items)
      (tuple checks failFast (.array items)) := by
  rw [tuple, if_pos fits]
  apply positionwise_settle

theorem zipWith_replicate (check : Check) (items : List Json) :
    List.zipWith (fun check item => check item) (List.replicate items.length check) items =
      items.map check := by
  induction items with
  | nil => rfl
  | cons item rest ih => simp [List.replicate_succ, ih]

end Check

namespace Validator

variable {ι : Type}

theorem positionwise_check_each (tag : ι) (v : Validator ι) (failFast : Bool) (items : List Json) :
    Positionwise "each_failed" failFast (items.map v.check)
      ((each tag v failFast).check (.array items)) :=
  Check.positionwise_each v.check failFast items

theorem positionwise_check_tuple (tag : ι) {vs : List (Validator ι)} {items : List Json}
    (fits : items.length = vs.length) (failFast : Bool) :
    Positionwise "tuple_invalid" failFast (List.zipWith check vs items)
      ((tuple tag vs failFast).check (.array items)) := by
  have outcomes : List.zipWith (fun check item => check item) (vs.map check) items =
      List.zipWith check vs items := by
    rw [List.zipWith_map_left]
  rw [← outcomes, check, checks_eq_map]
  exact Check.positionwise_tuple (by simpa using fits) failFast

-- A tuple of one validator for all positions has the outcomes of a list of them.
theorem check_positions (tag tag' : ι) (failFast : Bool) (items : List Json) :
    (∀ v : Validator ι, Positionwise "each_failed" failFast (items.map v.check)
      ((each tag v failFast).check (.array items))) ∧
    (∀ vs : List (Validator ι), items.length = vs.length →
      Positionwise "tuple_invalid" failFast (List.zipWith check vs items)
        ((tuple tag vs failFast).check (.array items))) ∧
    (∀ vs : List (Validator ι), items.length ≠ vs.length →
      (tuple tag vs failFast).check (.array items) =
        .error (Check.wrongArity vs.length items.length)) ∧
    ∀ v : Validator ι,
      (∀ out, (each tag v failFast).check (.array items) = .ok out ↔
        (tuple tag' (List.replicate items.length v) failFast).check (.array items) = .ok out) ∧
      ∀ e f, (each tag v failFast).check (.array items) = .error e →
        (tuple tag' (List.replicate items.length v) failFast).check (.array items) = .error f →
          e.nested = f.nested ∧ (failFast → e = f) := by
  refine ⟨fun v => positionwise_check_each tag v failFast items,
    fun vs fits => positionwise_check_tuple tag fits failFast, ?_, ?_⟩
  · intro vs apart
    have apart' : items.length ≠ (vs.map check).length := by simpa using apart
    rw [check, checks_eq_map, Check.tuple, if_neg apart', List.length_map]
  · intro v
    have fits : items.length = (List.replicate items.length v).length := by simp
    have repeated := positionwise_check_tuple tag' fits failFast
    have outcomes : List.zipWith check (List.replicate items.length v) items =
        items.map v.check := by
      rw [← Check.zipWith_replicate, ← List.map_replicate, List.zipWith_map_left]
    rw [outcomes] at repeated
    exact (positionwise_check_each tag v failFast items).agree repeated

-- Two readings are at fault, in a list of readings as in a tuple of three. One of them is a list
-- itself, and the failure of its element is moved along.
theorem check_readings :
    let reading : Validator Unit := each () (leaf () (.primitive .integer)) false
    let readings := [.array [.string "1"], .array [.string "2", .null], .bool true]
    ∃ e f, (each () reading false).check (.array readings) = .error e ∧
      (tuple () [reading, reading, reading] false).check (.array readings) = .error f ∧
      e.code ≠ f.code ∧ e.nested = f.nested ∧
      e.flatten.map (·.path) = [[], [.index 1], [.index 1, .index 1], [.index 2]] := by
  intro reading readings
  obtain ⟨e, failed, code, paths⟩ : ∃ e, (each () reading false).check (.array readings) =
      .error e ∧ e.code = "each_failed" ∧
        e.flatten.map (·.path) = [[], [.index 1], [.index 1, .index 1], [.index 2]] := by
    with_unfolding_all exact ⟨_, rfl, rfl, rfl⟩
  obtain ⟨f, failed', code'⟩ : ∃ f,
      (tuple () [reading, reading, reading] false).check (.array readings) = .error f ∧
        f.code = "tuple_invalid" := by
    with_unfolding_all exact ⟨_, rfl, rfl⟩
  obtain ⟨-, -, -, agree⟩ := check_positions () () false readings
  have nested := ((agree reading).2 e f failed failed').1
  exact ⟨e, f, failed, failed', by simp [code, code'], nested, paths⟩

end Validator

end Conform
