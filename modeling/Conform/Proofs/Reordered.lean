import Conform.Failure.Views
import Conform.Proofs.Related

set_option autoImplicit false

/-!
Values that differ in nothing but the order of members, and failures that differ in nothing but
the order of their parts, at any depth.
-/

namespace Conform

-- The same elements, up to a relation and in any order.
def Shuffled {α β : Type} (r : α → β → Prop) (xs : List α) (zs : List β) : Prop :=
  ∃ ys, List.Forall₂ r xs ys ∧ ys.Perm zs

namespace Shuffled

variable {α β γ δ : Type} {r : α → β → Prop} {s : γ → δ → Prop}

theorem of_forall₂ {xs : List α} {ys : List β} (pointwise : List.Forall₂ r xs ys) :
    Shuffled r xs ys := ⟨ys, pointwise, .refl ys⟩

theorem length_eq {xs : List α} {zs : List β} (shuffled : Shuffled r xs zs) :
    xs.length = zs.length := by
  obtain ⟨ys, pointwise, order⟩ := shuffled
  exact pointwise.length_eq.trans order.length_eq

theorem append {xs xs' : List α} {zs zs' : List β} (first : Shuffled r xs zs)
    (second : Shuffled r xs' zs') : Shuffled r (xs ++ xs') (zs ++ zs') := by
  obtain ⟨ys, pointwise, order⟩ := first
  obtain ⟨ys', pointwise', order'⟩ := second
  exact ⟨ys ++ ys', List.rel_append pointwise pointwise', order.append order'⟩

theorem filterMap {xs : List α} {zs : List β} {f : α → Option γ} {g : β → Option δ}
    (shuffled : Shuffled r xs zs) (images : ∀ a b, r a b → Option.Rel s (f a) (g b)) :
    Shuffled s (xs.filterMap f) (zs.filterMap g) := by
  obtain ⟨ys, pointwise, order⟩ := shuffled
  exact ⟨ys.filterMap g, List.rel_filterMap (fun a b => images a b) pointwise, order.filterMap g⟩

theorem map {xs : List α} {zs : List β} {f : α → γ} {g : β → δ} (shuffled : Shuffled r xs zs)
    (images : ∀ a b, r a b → s (f a) (g b)) : Shuffled s (xs.map f) (zs.map g) := by
  obtain ⟨ys, pointwise, order⟩ := shuffled
  exact ⟨ys.map g, List.rel_map (fun a b => images a b) pointwise, order.map g⟩

end Shuffled

namespace Json

mutual

def Distinct : Json → Prop
  | array items => DistinctItems items
  | object members => (Members.names members).Nodup ∧ DistinctMembers members
  | null | bool _ | number _ | string _ => True

def DistinctItems : List Json → Prop
  | [] => True
  | item :: rest => Distinct item ∧ DistinctItems rest

def DistinctMembers : List (String × Json) → Prop
  | [] => True
  | (_, value) :: rest => Distinct value ∧ DistinctMembers rest

end

theorem distinctItems_iff {items : List Json} :
    DistinctItems items ↔ ∀ item ∈ items, item.Distinct := by
  induction items with
  | nil => simp [DistinctItems]
  | cons item rest ih => rw [DistinctItems, ih, List.forall_mem_cons]

theorem distinctMembers_iff {members : Members Json} :
    DistinctMembers members ↔ ∀ member ∈ members, member.2.Distinct := by
  induction members with
  | nil => simp [DistinctMembers]
  | cons member rest ih => rw [DistinctMembers, ih, List.forall_mem_cons]

theorem DistinctMembers.lookup {members : Members Json} (distinct : DistinctMembers members)
    {name : String} {value : Json} (found : members.lookup name = some value) : value.Distinct := by
  obtain ⟨before, after, split, -⟩ := List.lookup_eq_some_iff.mp found
  exact distinctMembers_iff.mp distinct (name, value) (by simp [split])

mutual

inductive Reordered : Json → Json → Prop
  | scalar {value : Json} (scalar : value.isScalar) : Reordered value value
  | array {xs ys : List Json} (items : ReorderedItems xs ys) : Reordered (.array xs) (.array ys)
  | object {xs ys zs : Members Json} (distinct : xs.names.Nodup)
      (members : ReorderedMembers xs ys) (order : ys.Perm zs) :
      Reordered (.object xs) (.object zs)

inductive ReorderedItems : List Json → List Json → Prop
  | nil : ReorderedItems [] []
  | cons {x y : Json} {xs ys : List Json} (first : Reordered x y) (rest : ReorderedItems xs ys) :
      ReorderedItems (x :: xs) (y :: ys)

inductive ReorderedMembers : Members Json → Members Json → Prop
  | nil : ReorderedMembers [] []
  | cons {name : String} {x y : Json} {xs ys : Members Json} (first : Reordered x y)
      (rest : ReorderedMembers xs ys) : ReorderedMembers ((name, x) :: xs) ((name, y) :: ys)

end

mutual

theorem Distinct.reordered : (value : Json) → value.Distinct → value.Reordered value
  | .null, _ | .bool _, _ | .number _, _ | .string _, _ => .scalar rfl
  | .array items, distinct => .array (DistinctItems.reordered items distinct)
  | .object members, distinct =>
    .object distinct.1 (DistinctMembers.reordered members distinct.2) (.refl members)

theorem DistinctItems.reordered : (items : List Json) → DistinctItems items →
    ReorderedItems items items
  | [], _ => .nil
  | item :: rest, distinct =>
    .cons (Distinct.reordered item distinct.1) (DistinctItems.reordered rest distinct.2)

theorem DistinctMembers.reordered : (members : List (String × Json)) → DistinctMembers members →
    ReorderedMembers members members
  | [], _ => .nil
  | (_, value) :: rest, distinct =>
    .cons (Distinct.reordered value distinct.1) (DistinctMembers.reordered rest distinct.2)

end

abbrev SameMember : String × Json → String × Json → Prop := Members.Paired Reordered

theorem reorderedItems_iff {xs ys : List Json} :
    ReorderedItems xs ys ↔ List.Forall₂ Reordered xs ys := by
  constructor
  · intro items
    induction xs generalizing ys with
    | nil => cases items; exact .nil
    | cons x xs ih =>
      cases items with
      | cons first rest => exact .cons first (ih rest)
  · intro items
    induction items with
    | nil => exact .nil
    | cons first _ ih => exact .cons first ih

theorem reorderedMembers_iff {xs ys : Members Json} :
    ReorderedMembers xs ys ↔ List.Forall₂ SameMember xs ys := by
  constructor
  · intro members
    induction xs generalizing ys with
    | nil => cases members; exact .nil
    | cons x xs ih =>
      cases members with
      | cons first rest => exact .cons ⟨rfl, first⟩ (ih rest)
  · intro members
    induction members with
    | nil => exact .nil
    | @cons a b _ _ first _ ih =>
      obtain ⟨name, x⟩ := a
      obtain ⟨name', y⟩ := b
      obtain ⟨rfl, value⟩ := first
      exact .cons value ih

theorem names_eq_of_forall₂ {xs ys : Members Json} (members : List.Forall₂ SameMember xs ys) :
    xs.names = ys.names := by
  induction members with
  | nil => rfl
  | cons first _ ih => rw [Members.names_cons, Members.names_cons, first.1, ih]

theorem reordered_object_iff {xs : Members Json} {value : Json} :
    Reordered (.object xs) value ↔
      xs.names.Nodup ∧ ∃ zs, value = .object zs ∧ Shuffled SameMember xs zs := by
  constructor
  · rintro (⟨⟨⟩⟩ | - | ⟨distinct, members, order⟩)
    exact ⟨distinct, _, rfl, _, reorderedMembers_iff.mp members, order⟩
  · rintro ⟨distinct, zs, rfl, ys, members, order⟩
    exact .object distinct (reorderedMembers_iff.mpr members) order

theorem Reordered.kind_eq {x y : Json} (same : x.Reordered y) : x.kind = y.kind := by
  cases same <;> rfl

theorem lookup_reordered {xs zs : Members Json} (distinct : xs.names.Nodup)
    (members : Shuffled SameMember xs zs) (name : String) :
    Option.Rel Reordered (xs.lookup name) (zs.lookup name) := by
  obtain ⟨ys, pointwise, order⟩ := members
  have distinct' : (Members.names ys).Nodup := names_eq_of_forall₂ pointwise ▸ distinct
  rw [← Members.lookup_perm distinct' order]
  clear distinct distinct' order
  induction pointwise with
  | nil => exact .none
  | @cons a b _ _ first _ ih =>
    obtain ⟨key, x⟩ := a
    obtain ⟨key', y⟩ := b
    obtain ⟨rfl, value⟩ := first
    rw [Members.lookup_cons, Members.lookup_cons]
    split
    · exact .some value
    · exact ih

mutual

theorem same_congr : (expected : Json) → {x y : Json} → x.Reordered y →
    expected.same x = expected.same y
  | .null, _, _, same | .bool _, _, _, same | .number _, _, _, same | .string _, _, _, same => by
    cases same <;> rfl
  | .array items, _, _, same => by
    cases same with
    | scalar => rfl
    | array others => exact sameItems_congr items others
    | object => rfl
  | .object members, _, _, same => by
    cases same with
    | scalar => rfl
    | array => rfl
    | object distinct others order =>
      have shuffled : Shuffled SameMember _ _ := ⟨_, reorderedMembers_iff.mp others, order⟩
      rw [Json.same, Json.same, shuffled.length_eq,
        sameMembers_congr members (lookup_reordered distinct shuffled)]

theorem sameItems_congr : (expected : List Json) → {xs ys : List Json} → ReorderedItems xs ys →
    sameItems expected xs = sameItems expected ys
  | [], _, _, same => by cases same <;> rfl
  | item :: rest, _, _, same => by
    cases same with
    | nil => rfl
    | cons first others =>
      rw [sameItems, sameItems, same_congr item first, sameItems_congr rest others]

theorem sameMembers_congr : (expected : List (String × Json)) → {xs zs : Members Json} →
    (∀ name, Option.Rel Reordered (xs.lookup name) (zs.lookup name)) →
      sameMembers expected xs = sameMembers expected zs
  | [], _, _, _ => rfl
  | (name, value) :: rest, xs, zs, same => by
    rw [sameMembers, sameMembers, sameMembers_congr rest same]
    have here := same name
    generalize xs.lookup name = found at here ⊢
    generalize zs.lookup name = found' at here ⊢
    cases here with
    | none => rfl
    | some first => simp only [same_congr value first]

end

end Json

namespace Failure

mutual

inductive Reordered : Failure → Failure → Prop
  | node {code message : String} {path : Path} {params : List (String × String)}
      {xs ys zs : List Failure} (parts : ReorderedAll xs ys) (order : ys.Perm zs) :
      Reordered ⟨code, message, path, params, xs⟩ ⟨code, message, path, params, zs⟩

inductive ReorderedAll : List Failure → List Failure → Prop
  | nil : ReorderedAll [] []
  | cons {e f : Failure} {xs ys : List Failure} (first : Reordered e f)
      (rest : ReorderedAll xs ys) : ReorderedAll (e :: xs) (f :: ys)

end

theorem reorderedAll_iff {xs ys : List Failure} :
    ReorderedAll xs ys ↔ List.Forall₂ Reordered xs ys := by
  constructor
  · intro parts
    induction xs generalizing ys with
    | nil => cases parts; exact .nil
    | cons x xs ih =>
      cases parts with
      | cons first rest => exact .cons first (ih rest)
  · intro parts
    induction parts with
    | nil => exact .nil
    | cons first _ ih => exact .cons first ih

mutual

theorem Reordered.refl : (e : Failure) → e.Reordered e
  | ⟨_, _, _, _, nested⟩ => .node (ReorderedAll.refl nested) (.refl nested)

theorem ReorderedAll.refl : (parts : List Failure) → ReorderedAll parts parts
  | [] => .nil
  | e :: rest => .cons (Reordered.refl e) (ReorderedAll.refl rest)

end

mutual

theorem Reordered.under (s : Segment) {e f : Failure} :
    e.Reordered f → (e.under s).Reordered (f.under s)
  | .node parts order => by
    have inside := parts.under s
    refine .node inside ?_
    rw [allUnder_eq_map, allUnder_eq_map]
    exact order.map _

theorem ReorderedAll.under (s : Segment) {xs ys : List Failure} :
    ReorderedAll xs ys → ReorderedAll (allUnder s xs) (allUnder s ys)
  | .nil => .nil
  | .cons first rest => .cons (first.under s) (rest.under s)

end

-- What a failure tells of itself, its parameters and parts aside.
def summary (e : Failure) : Option String × String × String := (e.field?, e.code, e.message)

mutual

theorem Reordered.perm_flatten {e f : Failure} :
    e.Reordered f → (e.flatten.map summary).Perm (f.flatten.map summary)
  | .node parts order => by
    have inside := parts.perm_flattenAll
    rw [flatten, flatten, List.map_cons, List.map_cons]
    refine .cons _ (inside.trans ?_)
    rw [flattenAll_eq_flatMap, flattenAll_eq_flatMap]
    exact (order.flatMap_right flatten).map summary

theorem ReorderedAll.perm_flattenAll {xs ys : List Failure} :
    ReorderedAll xs ys → ((flattenAll xs).map summary).Perm ((flattenAll ys).map summary)
  | .nil => .nil
  | .cons first rest => by
    have head := first.perm_flatten
    have tail := rest.perm_flattenAll
    rw [flattenAll, flattenAll, List.map_append, List.map_append]
    exact head.append tail

end

theorem Reordered.count_eq {e f : Failure} (same : e.Reordered f) : e.count = f.count := by
  rw [count_eq_length_flatten, count_eq_length_flatten]
  simpa using same.perm_flatten.length_eq

end Failure

end Conform
