import Conform.Proofs.Accept

set_option autoImplicit false

/-!
Checks that take their own results as they are. Primitives and literals give a value of one
form, and containers put together what their parts take again.
-/

namespace Conform

namespace Check

open Outcome

-- Whether a check takes whatever it gives as it is.
def Stable (check : Check) : Prop :=
  ∀ value out, check value = .ok out → check out = .ok out

theorem stable_primitive (p : Primitive) : Stable p.check := by
  have ofKind (expected : String) : Stable (Check.ofKind expected) := by
    intro value out accepted
    rw [Check.ofKind] at accepted
    split at accepted <;> cases accepted
    next same => rw [Check.ofKind, if_pos same]
  intro value out accepted
  cases p with
  | any => rfl
  | null | boolean | string | list | mapping => exact ofKind _ value out accepted
  | integer =>
    obtain ⟨n, rfl⟩ := whole_of_integer accepted
    rfl
  | float =>
    obtain ⟨x, rfl⟩ := double_of_float accepted
    rfl

theorem isExactly_self {value : Json} (scalar : value.isScalar) : isExactly value value := by
  cases value with
  | null | bool | string => simp [isExactly, Json.same]
  | number n => cases n <;> simp [isExactly, Number.equal, Number.toDouble?, Double.same]
  | array | object => cases scalar

theorem stable_exact {expected : Json} (scalar : expected.isScalar) :
    Stable (Check.exact expected) := by
  intro value out accepted
  rw [Check.exact] at accepted
  split at accepted <;> cases accepted
  rw [Check.exact, if_pos (isExactly_self scalar)]

theorem stable_each {inner : Check} (stable : Stable inner) (failFast : Bool) :
    Stable (each inner failFast) := by
  intro value out accepted
  rw [each_eq_ok_iff] at accepted ⊢
  obtain ⟨items, outs, rfl, rfl, accepted⟩ := accepted
  refine ⟨outs, outs, rfl, rfl, List.map_congr_left fun out member => ?_⟩
  have given : .ok out ∈ items.map inner := by
    rw [accepted]
    exact List.mem_map_of_mem member
  obtain ⟨item, -, taken⟩ := List.mem_map.mp given
  exact stable item out taken

theorem stable_tuple {checks : List Check} (stable : ∀ check ∈ checks, Stable check)
    (failFast : Bool) : Stable (tuple checks failFast) := by
  intro value out accepted
  rw [tuple_eq_ok_iff] at accepted ⊢
  obtain ⟨items, outs, rfl, rfl, fits, accepted⟩ := accepted
  have same : outs.length = checks.length := by
    simpa [fits] using (congrArg List.length accepted).symm
  refine ⟨outs, outs, rfl, rfl, same, ?_⟩
  clear same
  induction checks generalizing items outs with
  | nil =>
    obtain rfl : outs = [] := by simpa using accepted.symm
    rfl
  | cons check rest ih =>
    cases items with
    | nil => simp at fits
    | cons item items =>
      cases outs with
      | nil => simp at accepted
      | cons out outs =>
        simp only [List.zipWith_cons_cons, List.map_cons, List.cons.injEq,
          List.length_cons, Nat.add_right_cancel_iff] at accepted fits ⊢
        refine ⟨stable check (by simp) item out accepted.1, ?_⟩
        exact ih (fun other member => stable other (by simp [member])) items outs fits accepted.2

section

variable {fields : List (Field Check)} {members : Members Json}
  {taken : List (Option (String × Json))}

-- A field finds what was taken for it, and nothing where nothing was taken.
theorem lookup_taken (distinct : (fields.map (·.name)).Nodup)
    (declared : fields.map (·.entry members) = taken.map .ok) {rest : Members Json}
    (apart : ∀ name ∈ rest.names, name ∉ fields.map (·.name)) {field : Field Check}
    (member : field ∈ fields) {entry : Option (String × Json)}
    (gives : field.entry members = .ok entry) :
    (taken.filterMap id ++ rest).lookup field.name = entry.map (·.2) := by
  have named : field.name ∈ fields.map (·.name) := List.mem_map_of_mem member
  have absent : rest.lookup field.name = none :=
    Members.lookup_eq_none_iff.mpr fun inside => apart _ inside named
  have single : (Members.names (taken.filterMap id)).Nodup := (names_taken declared).nodup distinct
  rw [List.lookup_append, absent, Option.or_none]
  cases entry with
  | some entry =>
    obtain ⟨-, -, out, -, rfl⟩ := Field.entry_eq_ok_some_iff.mp gives
    refine (Members.lookup_eq_some_iff single).mpr (List.mem_filterMap.mpr ⟨_, ?_, rfl⟩)
    have inside : .ok (some (field.name, out)) ∈ taken.map (Except.ok (ε := Failure)) := by
      rw [← declared]
      exact List.mem_map.mpr ⟨field, member, gives⟩
    simpa using inside
  | none =>
    refine Members.lookup_eq_none_iff.mpr fun inside => ?_
    obtain ⟨⟨name, out⟩, found, same⟩ := List.mem_map.mp inside
    have inside : .ok (some (name, out)) ∈ fields.map (·.entry members) := by
      rw [declared]
      exact List.mem_map_of_mem (by simpa using found)
    obtain ⟨other, member', gives'⟩ := List.mem_map.mp inside
    obtain ⟨_, _, _, _, same'⟩ := Field.entry_eq_ok_some_iff.mp gives'
    have same'' : other.name = field.name := (Prod.mk.inj same').1.trans same
    rw [List.inj_on_of_nodup_map distinct member' member same'', gives] at gives'
    cases gives'

theorem entry_again {field : Field Check} (stable : ∀ check ∈ field.inner, Stable check)
    {entry : Option (String × Json)} (gives : field.entry members = .ok entry)
    {again : Members Json} (found : again.lookup field.name = entry.map (·.2)) :
    field.entry again = .ok entry := by
  cases entry with
  | none =>
    rw [Field.entry_eq_ok_none_iff] at gives ⊢
    exact ⟨found, gives.2⟩
  | some entry =>
    rw [Field.entry_eq_ok_some_iff] at gives ⊢
    obtain ⟨value, -, out, accepted, rfl⟩ := gives
    refine ⟨out, ?_, out, ?_, rfl⟩
    · rw [Field.given, found]
      rfl
    · rw [Field.accept_eq_ok_iff] at accepted ⊢
      cases inner : field.inner with
      | none => rfl
      | some check =>
        rw [inner] at accepted
        exact stable check inner value out accepted

end

theorem undeclared_append {names : List String} {xs ys : Members Json}
    (known : ∀ name ∈ xs.names, name ∈ names) (unknown : ∀ name ∈ ys.names, name ∉ names) :
    undeclared names (xs ++ ys) = ys := by
  have none : undeclared names xs = [] :=
    List.filter_eq_nil_iff.mpr fun member inside => by
      simpa using known _ (List.mem_map_of_mem inside)
  have all : undeclared names ys = ys :=
    List.filter_eq_self.mpr fun member inside => by
      simpa using unknown _ (List.mem_map_of_mem inside)
  rw [undeclared, List.filter_append]
  exact (congrArg₂ (· ++ ·) none all)

-- The declared fields come first and in their order, the members that are kept follow in theirs.
theorem stable_record {fields : List (Field Check)} (distinct : (fields.map (·.name)).Nodup)
    (stable : ∀ field ∈ fields, ∀ check ∈ field.inner, Stable check) (extra : ExtraKeys)
    (failFast : Bool) : Stable (record fields extra failFast) := by
  intro value out accepted
  rw [record_eq_ok_iff] at accepted ⊢
  obtain ⟨members, taken, kept, rfl, declared, others, rfl⟩ := accepted
  have named := names_taken declared
  have apart (name : String) (inside : name ∈ (Members.gather (kept.filterMap id)).names) :
      name ∉ fields.map (·.name) := not_mem_of_kept others (Members.mem_names_gather inside)
  have written := gather_entries distinct declared others
  have left : undeclared (fields.map (·.name))
      (taken.filterMap id ++ Members.gather (kept.filterMap id)) =
        Members.gather (kept.filterMap id) :=
    undeclared_append (fun name inside => named.subset inside) apart
  refine ⟨_, taken, (Members.gather (kept.filterMap id)).map some, rfl, ?_, ?_, ?_⟩
  · rw [← declared, written]
    refine List.map_congr_left fun field member => ?_
    have given : field.entry members ∈ taken.map .ok := by
      rw [← declared]
      exact List.mem_map_of_mem member
    obtain ⟨entry, -, gives⟩ := List.mem_map.mp given
    rw [← gives]
    exact entry_again (stable field member) gives.symm
      (lookup_taken distinct declared apart member gives.symm)
  · rw [written, left, kept_eq others]
    cases extra with
    | keep => simp [ExtraKeys.entry]
    | reject | ignore => rfl
  · have again : ((Members.gather (kept.filterMap id)).map some).filterMap id =
        Members.gather (kept.filterMap id) := by simp [List.filterMap_map]
    rw [again, written, Members.gather_append (named.nodup distinct),
      Members.gather_of_nodup (Members.nodup_gather _)]
    exact fun name inside here => apart name inside (named.subset here)

end Check

end Conform
