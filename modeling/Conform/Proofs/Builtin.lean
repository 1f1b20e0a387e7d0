import Conform.Proofs.Leaves
import Conform.Proofs.Meaning

set_option autoImplicit false

/-!
Leaves that refuse a value with one failure, as primitives and literals do, and registries whose
markers stand for primitives, as all the builtin ones do.
-/

namespace Conform

theorem Primitive.check_eq_error (p : Primitive) {value : Json} {e : Failure}
    (refused : p.check value = .error e) :
    (∃ expected, e = .typeMismatch expected value) ∨ e = notInteger value ∨ e = notFloat value := by
  have ofKind {expected : String} (refused : Check.ofKind expected value = .error e) :
      ∃ expected, e = .typeMismatch expected value := by
    rw [Check.ofKind] at refused
    split at refused <;> cases refused
    exact ⟨expected, rfl⟩
  have orFail {found : Option Json} {failure : Failure}
      (refused : Check.orFail found failure = .error e) : e = failure := by
    cases found <;> cases refused
    rfl
  cases p with
  | any => cases refused
  | null | boolean | string | list | mapping => exact .inl (ofKind refused)
  | integer =>
    cases value with
    | number n =>
      cases n with
      | whole => cases refused
      | double =>
        rw [Primitive.check, Check.integer] at refused
        exact .inr (.inl (orFail refused))
    | string =>
      rw [Primitive.check, Check.integer] at refused
      exact .inr (.inl (orFail refused))
    | _ => exact .inl ⟨_, (Except.error.inj refused).symm⟩
  | float =>
    cases value with
    | number | string =>
      rw [Primitive.check, Check.float] at refused
      exact .inr (.inr (orFail refused))
    | _ => exact .inl ⟨_, (Except.error.inj refused).symm⟩

theorem Primitive.check_flat (p : Primitive) {value : Json} {e : Failure}
    (refused : p.check value = .error e) : e.path = [] ∧ e.nested = [] := by
  rcases p.check_eq_error refused with ⟨expected, rfl⟩ | rfl | rfl <;> exact ⟨rfl, rfl⟩

theorem Check.exact_flat {expected value : Json} {e : Failure}
    (refused : Check.exact expected value = .error e) : e.path = [] ∧ e.nested = [] := by
  rw [Check.exact] at refused
  split at refused <;> cases refused
  exact ⟨rfl, rfl⟩

namespace Registry

def Primitives (r : Registry) : Prop :=
  ∀ entry ∈ r.entries, ∃ p, entry.2.shape = .leaf () (.primitive p)

theorem Primitives.replace {r : Registry} (before : r.Primitives) (marker : String)
    {entry : Entry} {p : Primitive} (shape : entry.shape = .leaf () (.primitive p)) :
    (r.replace marker entry).Primitives := by
  intro other member
  rcases Sorted.mem_put member with rfl | member
  · exact ⟨p, shape⟩
  · exact before other member

-- The builtin registry is made by single replacements.
theorem builtin_induction {motive : Registry → Prop} (empty : motive empty)
    (replace : ∀ r name tag p, motive r →
      motive (r.replace name (.shared (.leaf tag (.primitive p)))))
    (tag : Handle) : motive (builtin.run tag).1 := by
  have named (p : Primitive) (tag : Handle) (names : List String) (r : Registry)
      (before : motive r) :
      motive
        (names.foldl (fun r name => r.replace name (.shared (.leaf tag (.primitive p)))) r) := by
    induction names generalizing r with
    | nil => exact before
    | cons name rest ih => exact ih _ (replace r name tag p before)
  have added (kinds : List Primitive) (r : Registry) (tag : Handle) (before : motive r) :
      motive ((kinds.foldlM Registry.addPrimitive r).run tag).1 := by
    induction kinds generalizing r tag with
    | nil => exact before
    | cons p rest ih => exact ih _ _ (named p tag p.names r before)
  exact added Primitive.all _ tag empty

theorem primitives_builtin (tag : Handle) : (builtin.run tag).1.Primitives := by
  apply builtin_induction
  · simp [Primitives, empty]
  · intro r name tag p before
    exact before.replace name rfl

theorem Primitives.find? {r : Registry} (primitives : r.Primitives) {marker : String}
    {entry : Entry} (found : r.find? marker = some entry) :
    ∃ p, entry.shape = .leaf () (.primitive p) := by
  obtain ⟨before, after, split, -⟩ := List.lookup_eq_some_iff.mp found
  exact primitives (marker, entry) (by simp [split])

-- Whether what markers stand for blames a value with one failure, at the value itself.
def Flat (r : Registry) : Prop :=
  ∀ marker entry, r.find? marker = some entry →
    ∀ value e, entry.check value = .error e → e.path = [] ∧ e.nested = []

theorem Primitives.flat {r : Registry} (primitives : r.Primitives) : r.Flat := by
  intro marker entry found value e refused
  obtain ⟨p, shape⟩ := primitives.find? found
  rw [← entry.shape_check, shape] at refused
  exact p.check_flat refused

end Registry

end Conform
