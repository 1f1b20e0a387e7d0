import Conform.Proofs.Leaves
import Conform.Proofs.Members
import Mathlib.Data.List.Forall2

set_option autoImplicit false

/-!
Failures as they are put together, call after call, and the two ways to look up a parameter in
one. The failure itself gives the value that was named first, its JSON the one named last.
-/

namespace Conform

namespace Members

variable {α β : Type}

def valuesOf (name : String) (members : Members α) : List α :=
  members.filterMap fun (other, value) => if other = name then some value else none

theorem valuesOf_cons (name other : String) (value : α) (rest : Members α) :
    valuesOf name ((other, value) :: rest) =
      if other = name then value :: valuesOf name rest else valuesOf name rest := by
  rw [valuesOf, List.filterMap_cons]
  split <;> simp_all [valuesOf]

theorem valuesOf_map (f : α → β) (name : String) (members : Members α) :
    valuesOf name (members.map (Prod.map id f)) = (valuesOf name members).map f := by
  induction members with
  | nil => rfl
  | cons member rest ih =>
    obtain ⟨other, value⟩ := member
    rw [List.map_cons, Prod.map_apply, id, valuesOf_cons, valuesOf_cons, ih]
    split <;> rfl

theorem lookup_eq_head? (name : String) (members : Members α) :
    members.lookup name = (valuesOf name members).head? := by
  induction members with
  | nil => rfl
  | cons member rest ih =>
    obtain ⟨other, value⟩ := member
    rw [lookup_cons, valuesOf_cons, ih]
    by_cases here : other = name
    · rw [if_pos here, if_pos here.symm, List.head?_cons]
    · rw [if_neg here, if_neg (Ne.symm here)]

-- Each write hides what was there before it.
theorem lookup_writeAll (name : String) (written members : Members α) :
    (writeAll written members).lookup name =
      (valuesOf name written).getLast?.or (members.lookup name) := by
  induction written generalizing members with
  | nil => rfl
  | cons member rest ih =>
    obtain ⟨other, value⟩ := member
    rw [writeAll_cons, ih, lookup_insert, valuesOf_cons]
    by_cases here : other = name
    · rw [if_pos here, if_pos here.symm, List.getLast?_cons]
      cases (valuesOf name rest).getLast? <;> rfl
    · rw [if_neg here, if_neg (Ne.symm here)]

theorem lookup_gather (name : String) (members : Members α) :
    (Members.gather members).lookup name = (valuesOf name members).getLast? := by
  rw [gather_eq, lookup_writeAll, List.lookup_nil, Option.or_none]

end Members

def walk {α : Type} (parts : α → List α) : List Nat → α → Option α
  | [], whole => some whole
  | i :: trail, whole => (parts whole)[i]?.bind (walk parts trail)

section

variable {α β : Type} {R : α → β → Prop}

theorem getElem?_related {xs : List α} {ys : List β} (related : List.Forall₂ R xs ys)
    {i : Nat} {x : α} (here : xs[i]? = some x) : ∃ y, ys[i]? = some y ∧ R x y := by
  induction related generalizing i with
  | nil => cases here
  | cons first _ ih =>
    cases i with
    | zero =>
      cases here
      exact ⟨_, rfl, first⟩
    | succ i => exact ih here

variable {parts : α → List α} {parts' : β → List β}

-- Trees whose parts are related pairwise are related wherever a trail leads.
theorem walk_related (respects : ∀ a b, R a b → List.Forall₂ R (parts a) (parts' b))
    {trail : List Nat} {a part : α} {b : β} (related : R a b)
    (reached : walk parts trail a = some part) :
    ∃ part', walk parts' trail b = some part' ∧ R part part' := by
  induction trail generalizing a b with
  | nil =>
    cases reached
    exact ⟨b, rfl, related⟩
  | cons i trail ih =>
    obtain ⟨next, here, onward⟩ := Option.bind_eq_some_iff.mp reached
    obtain ⟨next', there, related'⟩ := getElem?_related (respects a b related) here
    obtain ⟨part', onward', final⟩ := ih related' onward
    refine ⟨part', ?_, final⟩
    rw [walk, there]
    exact onward'

end

def Json.member? (name : String) (value : Json) : Option Json :=
  value.members?.bind (·.lookup name)

namespace Failure

-- A failure and the calls that put it together.
inductive Draft where
  | new (code message : String)
  | addParam (draft : Draft) (key value : String)
  | withNested (draft : Draft) (parts : List Draft)
  | addNested (draft part : Draft)
  | under (s : Segment) (draft : Draft)

namespace Draft

mutual

def build : Draft → Failure
  | new code message => { code, message }
  | addParam draft key value => (build draft).addParam key value
  | withNested draft parts => (build draft).withNested (buildAll parts)
  | addNested draft part => (build draft).addNested (build part)
  | under s draft => (build draft).under s

def buildAll : List Draft → List Failure
  | [] => []
  | draft :: rest => build draft :: buildAll rest

end

theorem buildAll_eq_map (drafts : List Draft) : buildAll drafts = drafts.map build := by
  induction drafts with
  | nil => rfl
  | cons draft rest ih => rw [buildAll, ih, List.map_cons]

def calls : Draft → List (String × String)
  | new _ _ => []
  | addParam draft key value => draft.calls ++ [(key, value)]
  | withNested draft _ | addNested draft _ | under _ draft => draft.calls

def given (draft : Draft) (key : String) : List String := Members.valuesOf key draft.calls

-- A list of parts takes the place of those before it.
def parts : Draft → List Draft
  | new _ _ => []
  | withNested _ parts => parts
  | addNested draft part => draft.parts ++ [part]
  | addParam draft _ _ | under _ draft => draft.parts

end Draft

-- A failure is what a draft gives, perhaps seen from further outside.
def Stands (e : Failure) (draft : Draft) : Prop :=
  ∃ outer : Path, e = outer.foldr under draft.build

namespace Stands

theorem build (draft : Draft) : draft.build.Stands draft := ⟨[], rfl⟩

theorem under {e : Failure} {draft : Draft} (stands : e.Stands draft) (s : Segment) :
    (e.under s).Stands draft := by
  obtain ⟨outer, rfl⟩ := stands
  exact ⟨s :: outer, rfl⟩

theorem map_under {parts : List Failure} {drafts : List Draft}
    (stand : List.Forall₂ Stands parts drafts) (s : Segment) :
    List.Forall₂ Stands (parts.map (Failure.under s)) drafts :=
  List.forall₂_map_left_iff.mpr (stand.imp fun _ _ stands => stands.under s)

theorem params_build : (draft : Draft) → draft.build.params = draft.calls
  | .new _ _ => rfl
  | .addParam draft key value => by
    rw [Draft.build, Draft.calls, ← params_build draft]
    rfl
  | .withNested draft _ | .addNested draft _ => params_build draft
  | .under s draft => by
    rw [Draft.build, params_under, params_build draft, Draft.calls]

theorem nested_build : (draft : Draft) → List.Forall₂ Stands draft.build.nested draft.parts
  | .new _ _ => .nil
  | .withNested _ parts => by
    have alike : List.Forall₂ Stands (parts.map Draft.build) parts :=
      List.forall₂_map_left_iff.mpr (List.forall₂_same.mpr fun part _ => .build part)
    rw [← Draft.buildAll_eq_map] at alike
    exact alike
  | .addNested draft part => List.rel_append (nested_build draft) (.cons (.build part) .nil)
  | .addParam draft _ _ => nested_build draft
  | .under s draft => by
    rw [Draft.build, nested_under]
    exact map_under (nested_build draft) s

theorem params {e : Failure} {draft : Draft} (stands : e.Stands draft) :
    e.params = draft.calls := by
  obtain ⟨outer, rfl⟩ := stands
  induction outer with
  | nil => exact params_build draft
  | cons s outer ih => rw [List.foldr_cons, params_under, ih]

theorem nested {e : Failure} {draft : Draft} (stands : e.Stands draft) :
    List.Forall₂ Stands e.nested draft.parts := by
  obtain ⟨outer, rfl⟩ := stands
  induction outer with
  | nil => exact nested_build draft
  | cons s outer ih =>
    rw [List.foldr_cons, nested_under]
    exact map_under ih s

end Stands

theorem toJsonAll_eq_map (parts : List Failure) : toJsonAll parts = parts.map toJson := by
  induction parts with
  | nil => rfl
  | cons e rest ih => rw [toJsonAll, ih, List.map_cons]

def jsonParts (tree : Json) : List Json :=
  match tree.member? "nested" with
  | some (.array items) => items
  | _ => []

def jsonParam? (tree : Json) (key : String) : Option Json :=
  (tree.member? "params").bind (·.member? key)

theorem jsonParts_toJson (e : Failure) : jsonParts e.toJson = e.nested.map toJson := by
  obtain ⟨code, message, path, params, nested⟩ := e
  exact toJsonAll_eq_map nested

theorem jsonParam?_toJson (e : Failure) (key : String) :
    jsonParam? e.toJson key = (Members.valuesOf key e.params).getLast?.map .string := by
  obtain ⟨code, message, path, params, nested⟩ := e
  have found : jsonParam? (toJson ⟨code, message, path, params, nested⟩) key =
      (Members.gather (params.map (Prod.map id .string))).lookup key := rfl
  rw [found, Members.lookup_gather, Members.valuesOf_map, List.getLast?_map]

theorem walk_toJson {e part : Failure} {trail : List Nat}
    (reached : walk nested trail e = some part) :
    walk jsonParts trail e.toJson = some part.toJson := by
  have respects (e : Failure) (tree : Json) (same : tree = e.toJson) :
      List.Forall₂ (fun part tree => tree = toJson part) e.nested (jsonParts tree) := by
    rw [same, jsonParts_toJson]
    exact List.forall₂_map_right_iff.mpr (List.forall₂_same.mpr fun _ _ => rfl)
  obtain ⟨tree, there, rfl⟩ := walk_related respects rfl reached
  exact there

-- The two views of a parameter, at any node of a failure that calls have put together. A look-up
-- gives the first value that the key was given there, the JSON holds the last one; the two agree if
-- and only if these are the same, as they are for a key that was given once or never.
theorem param_views {draft : Draft} {trail : List Nat} {e : Failure}
    (reached : walk nested trail draft.build = some e) (key : String) :
    ∃ node tree, walk Draft.parts trail draft = some node ∧
      walk jsonParts trail draft.build.toJson = some tree ∧
      e.param? key = (node.given key).head? ∧
      jsonParam? tree key = (node.given key).getLast?.map .string ∧
      ((∀ value, e.param? key = some value ↔ jsonParam? tree key = some (.string value)) ↔
        (node.given key).head? = (node.given key).getLast?) := by
  obtain ⟨node, there, stands⟩ :=
    walk_related (fun _ _ stands => stands.nested) (Stands.build draft) reached
  have first : e.param? key = (node.given key).head? := by
    rw [param?, Members.lookup_eq_head?, stands.params, Draft.given]
  have last : jsonParam? e.toJson key = (node.given key).getLast?.map .string := by
    rw [jsonParam?_toJson, stands.params, Draft.given]
  refine ⟨node, e.toJson, there, walk_toJson reached, first, last, ?_⟩
  have held (value : String) : jsonParam? e.toJson key = some (.string value) ↔
      (node.given key).getLast? = some value := by
    simp [last]
  rw [Option.ext_iff]
  simp only [first, held]

-- Two values for one key, on a part that is then seen from outside.
theorem param_views_given_twice :
    let part := ((Draft.new "a" "b").addParam "k" "1").addParam "k" "2"
    let draft := ((Draft.new "c" "m").addNested part).under (.index 0)
    let e : Failure :=
      { code := "a", message := "b", path := [.index 0], params := [("k", "1"), ("k", "2")] }
    walk nested [0] draft.build = some e ∧
      ∃ node tree, walk Draft.parts [0] draft = some node ∧
        walk jsonParts [0] draft.build.toJson = some tree ∧
        e.param? "k" = (node.given "k").head? ∧
        jsonParam? tree "k" = (node.given "k").getLast?.map .string ∧
        ((∀ value, e.param? "k" = some value ↔ jsonParam? tree "k" = some (.string value)) ↔
          (node.given "k").head? = (node.given "k").getLast?) := by
  intro part draft e
  have reached : walk nested [0] draft.build = some e := rfl
  exact ⟨reached, param_views reached "k"⟩

theorem param_views_apart :
    let draft := ((Draft.new "c" "m").addParam "k" "1").addParam "k" "2"
    draft.build.param? "k" = some "1" ∧
      jsonParam? draft.build.toJson "k" = some (.string "2") :=
  ⟨rfl, rfl⟩

end Failure

end Conform
