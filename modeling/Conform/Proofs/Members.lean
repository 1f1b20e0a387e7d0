import Conform.Json.Basic
import Mathlib.Data.List.Nodup
import Mathlib.Tactic.Tauto

set_option autoImplicit false

/-!
Look-up and writing in lists of members where no name comes twice.
-/

namespace Conform.Members

variable {α : Type}

def names (members : Members α) : List String := List.map (·.1) members

@[simp] theorem names_nil : names ([] : Members α) = [] := rfl

@[simp] theorem names_cons (member : String × α) (rest : Members α) :
    names (member :: rest) = member.1 :: names rest := rfl

@[simp] theorem names_append (xs ys : Members α) : names (xs ++ ys) = names xs ++ names ys :=
  List.map_append

theorem mem_names_of_mem {members : Members α} {name : String} {value : α}
    (member : (name, value) ∈ members) : name ∈ members.names :=
  List.mem_map_of_mem member

theorem lookup_eq_none_iff {members : Members α} {name : String} :
    members.lookup name = none ↔ name ∉ members.names := by
  rw [List.lookup_eq_none_iff, names, List.mem_map]
  constructor
  · rintro absent ⟨member, inside, rfl⟩
    simpa using absent member inside
  · intro absent member inside
    simpa using fun same => absent ⟨member, inside, Eq.symm same⟩

theorem lookup_eq_some_iff {members : Members α} (distinct : members.names.Nodup) {name : String}
    {value : α} : members.lookup name = some value ↔ (name, value) ∈ members := by
  induction members with
  | nil => simp
  | cons member rest ih =>
    obtain ⟨other, old⟩ := member
    simp only [names_cons, List.nodup_cons] at distinct
    rw [lookup_cons]
    by_cases same : name = other
    · subst same
      have apart : (name, value) ∉ rest := fun inside => distinct.1 (mem_names_of_mem inside)
      simp [apart, eq_comm]
    · simp [same, ih distinct.2]

theorem lookup_perm {xs ys : Members α} (distinct : xs.names.Nodup) (order : xs.Perm ys)
    (name : String) : xs.lookup name = ys.lookup name := by
  have distinct' : ys.names.Nodup := (order.map _).nodup_iff.mp distinct
  apply Option.ext
  intro value
  rw [lookup_eq_some_iff distinct, lookup_eq_some_iff distinct', order.mem_iff]

theorem perm_of_lookup {xs ys : Members α} (distinct : xs.names.Nodup) (distinct' : ys.names.Nodup)
    (same : ∀ name, xs.lookup name = ys.lookup name) : xs.Perm ys := by
  refine (List.perm_ext_iff_of_nodup (.of_map _ distinct) (.of_map _ distinct')).mpr ?_
  rintro ⟨name, value⟩
  rw [← lookup_eq_some_iff distinct, ← lookup_eq_some_iff distinct', same]

theorem insert_append {name : String} {value : α} {xs : Members α} (apart : name ∉ xs.names)
    (ys : Members α) :
    Members.insert name value (xs ++ ys) = xs ++ Members.insert name value ys := by
  induction xs with
  | nil => rfl
  | cons member rest ih =>
    simp only [names_cons, List.mem_cons, not_or] at apart
    rw [List.cons_append, Members.insert, if_neg (Ne.symm apart.1), ih apart.2, List.cons_append]

theorem names_insert (name : String) (value : α) (members : Members α) :
    (members.insert name value).names =
      if name ∈ members.names then members.names else members.names ++ [name] := by
  by_cases present : name ∈ members.names
  · rw [if_pos present]
    induction members with
    | nil => cases present
    | cons member rest ih =>
      rw [Members.insert]
      split
      next same => rw [names_cons, names_cons, same]
      next apart =>
        have later : name ∈ names rest := by
          simpa [Ne.symm apart] using present
        rw [names_cons, ih later, names_cons]
  · rw [if_neg present]
    have last := @insert_append _ name value _ present []
    rw [List.append_nil] at last
    rw [last, names_append]
    rfl

def writeAll (written members : Members α) : Members α :=
  written.foldl (fun all (name, value) => Members.insert name value all) members

theorem gather_eq (members : Members α) : Members.gather members = writeAll members [] := rfl

theorem writeAll_cons (name : String) (value : α) (rest members : Members α) :
    writeAll ((name, value) :: rest) members = writeAll rest (members.insert name value) := rfl

-- What is written under other names leaves a first part as it is.
theorem writeAll_append {xs : Members α} (written ys : Members α)
    (apart : ∀ name ∈ written.names, name ∉ xs.names) :
    writeAll written (xs ++ ys) = xs ++ writeAll written ys := by
  induction written generalizing ys with
  | nil => rfl
  | cons member rest ih =>
    obtain ⟨name, value⟩ := member
    have absent : name ∉ xs.names := apart name (by simp)
    rw [writeAll_cons, writeAll_cons, insert_append absent]
    exact ih _ fun name member => apart name (by simp [member])

theorem gather_of_nodup {members : Members α} (distinct : members.names.Nodup) :
    Members.gather members = members := by
  induction members with
  | nil => rfl
  | cons member rest ih =>
    simp only [names_cons, List.nodup_cons] at distinct
    have apart (name : String) (inside : name ∈ names rest) : name ∉ names [member] := by
      intro here
      obtain rfl : name = member.1 := by simpa using here
      exact distinct.1 inside
    have first := writeAll_append rest [] apart
    rw [List.append_nil] at first
    exact first.trans (congrArg ([member] ++ ·) (ih distinct.2))

theorem gather_append {xs ys : Members α} (distinct : xs.names.Nodup)
    (apart : ∀ name ∈ ys.names, name ∉ xs.names) :
    Members.gather (xs ++ ys) = xs ++ Members.gather ys := by
  have first := writeAll_append ys [] apart
  rw [List.append_nil, ← gather_eq] at first
  have before : Members.gather (xs ++ ys) = writeAll ys (Members.gather xs) := List.foldl_append
  rw [before, gather_of_nodup distinct, first]

theorem nodup_gather (members : Members α) : (Members.gather members).names.Nodup := by
  have kept (written all : Members α) (distinct : all.names.Nodup) :
      (writeAll written all).names.Nodup := by
    induction written generalizing all with
    | nil => exact distinct
    | cons member rest ih =>
      apply ih
      rw [names_insert]
      split
      next => exact distinct
      next absent =>
        refine List.nodup_append.mpr ⟨distinct, List.nodup_singleton _, ?_⟩
        rintro name present other single rfl
        exact absent (List.mem_singleton.mp single ▸ present)
  exact kept members [] List.nodup_nil

theorem mem_insert {name : String} {value : α} {members : Members α} {member : String × α}
    (inside : member ∈ members.insert name value) : member = (name, value) ∨ member ∈ members := by
  induction members with
  | nil => exact .inl (List.mem_singleton.mp inside)
  | cons first rest ih =>
    rw [Members.insert] at inside
    split at inside <;> simp at inside ⊢ <;> tauto

theorem mem_gather {members : Members α} {member : String × α}
    (inside : member ∈ Members.gather members) : member ∈ members := by
  have grown (written all : Members α) (inside : member ∈ writeAll written all) :
      member ∈ all ∨ member ∈ written := by
    induction written generalizing all with
    | nil => exact .inl inside
    | cons first rest ih =>
      rcases ih _ inside with later | later
      · rcases mem_insert later with here | before
        · exact .inr (here ▸ List.mem_cons_self)
        · exact .inl before
      · exact .inr (List.mem_cons_of_mem first later)
  simpa using grown members [] inside

theorem mem_names_gather {members : Members α} {name : String}
    (member : name ∈ (Members.gather members).names) : name ∈ members.names := by
  obtain ⟨entry, inside, rfl⟩ := List.mem_map.mp member
  exact List.mem_map_of_mem (mem_gather inside)

end Conform.Members
