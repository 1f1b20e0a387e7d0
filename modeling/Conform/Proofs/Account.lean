import Conform.Proofs.Refusal

set_option autoImplicit false

/-!
What a container answers once the outcomes of its parts are known. It accepts if no part failed;
otherwise it fails with the first of the failures, or with one that counts and holds all of them.
-/

namespace Conform

namespace Failure

/-- A failure of the value itself that says how many parts of it failed, with their failures. -/
structure Counts (e : Failure) (code : String) (parts : List Failure) : Prop where
  code : e.code = code
  here : e.path = []
  counted : e.param? "failed_count" = some (toString parts.length)
  nested : e.nested = parts

theorem counts_gathered (code : String) (message : Nat → String) (parts : List Failure) :
    (gathered code message parts).Counts code parts := by
  constructor
  case counted => simp [gathered, param?]
  all_goals rfl

def Accounts (code : String) : Bool → List Failure → Failure → Prop
  | true, parts, e => parts.head? = some e
  | false, parts, e => parts ≠ [] ∧ e.Counts code parts

end Failure

namespace Outcome

variable {α β : Type} {outcomes : List (Outcome α)}

theorem accounts_of_settle {failFast : Bool} {code : String} {message : Nat → String}
    {e : Failure} (failed : settle failFast (Failure.gathered code message) outcomes = .error e) :
    Failure.Accounts code failFast (failures outcomes) e := by
  obtain ⟨first, rest, parts, made⟩ := settle_eq_error_iff.mp failed
  rw [parts, ← made]
  cases failFast with
  | true => rfl
  | false => exact ⟨List.cons_ne_nil first rest, Failure.counts_gathered code message _⟩

theorem failures_append (firsts seconds : List (Outcome α)) :
    failures (firsts ++ seconds) = failures firsts ++ failures seconds := by
  simp [failures_eq_filterMap]

-- Where no part fails, the values can be listed.
theorem exists_map_ok_iff {xs : List α} {f : α → Outcome β} :
    (∃ values : List β, xs.map f = values.map .ok) ↔ ∀ x ∈ xs, ∃ value, f x = .ok value := by
  induction xs with
  | nil => simp
  | cons x rest ih =>
    simp only [List.map_cons, List.forall_mem_cons, ← ih]
    constructor
    · intro ⟨values, taken⟩
      cases values with
      | nil => simp at taken
      | cons value others =>
        simp only [List.map_cons, List.cons.injEq] at taken
        exact ⟨⟨value, taken.1⟩, others, taken.2⟩
    · intro ⟨⟨value, here⟩, others, taken⟩
      exact ⟨value :: others, by simp [here, taken]⟩

end Outcome

end Conform
