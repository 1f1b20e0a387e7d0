import Conform.Proofs.Extension
import Conform.Proofs.Meaning

set_option autoImplicit false

/-!
Specifications with holes for a fragment. What a whole specification stands for hangs on what
the fragments in its holes stand for and on nothing else of them, so a fragment may give way to
the validator that it is compiled to, wherever it is.
-/

namespace Conform

namespace Spec

inductive Context where
  | hole
  | whole (spec : Spec)
  | record (entries : List (KeySpec × Context)) (extra : Option ExtraKeys)
  | sequence (items : List Context)
  | combinator (mode : Combine) (children : List Context)

namespace Context

mutual

def fill (fragment : Spec) : Context → Spec
  | hole => fragment
  | whole spec => spec
  | record entries extra => .record (fillEntries fragment entries) extra
  | sequence items => .sequence (fillAll fragment items)
  | combinator mode children => .combinator mode (fillAll fragment children)

def fillAll (fragment : Spec) : List Context → List Spec
  | [] => []
  | context :: rest => fill fragment context :: fillAll fragment rest

def fillEntries (fragment : Spec) : List (KeySpec × Context) → List (KeySpec × Spec)
  | [] => []
  | (key, context) :: rest => (key, fill fragment context) :: fillEntries fragment rest

end

theorem fillAll_eq_map (fragment : Spec) (contexts : List Context) :
    fillAll fragment contexts = contexts.map (fill fragment) := by
  induction contexts with
  | nil => rfl
  | cons context rest ih => rw [fillAll, ih, List.map_cons]

theorem fillEntries_eq_map (fragment : Spec) (entries : List (KeySpec × Context)) :
    fillEntries fragment entries =
      entries.map fun (key, context) => (key, context.fill fragment) := by
  induction entries with
  | nil => rfl
  | cons entry rest ih => rw [fillEntries, ih, List.map_cons]

def children : Context → List Context
  | record entries _ => entries.map (·.2)
  | sequence items => items
  | combinator _ children => children
  | whole spec => spec.children.map whole
  | hole => []

theorem children_fill {context : Context} (apart : context ≠ .hole) (fragment : Spec) :
    (context.fill fragment).children = context.children.map (fill fragment) := by
  cases context with
  | hole => exact absurd rfl apart
  | whole spec => simp [fill, children, Function.comp_def]
  | record entries extra =>
    simp [fill, children, Spec.children, fillEntries_eq_map, Function.comp_def]
  | sequence items => simp [fill, children, Spec.children, fillAll_eq_map]
  | combinator mode children => simp [fill, Context.children, Spec.children, fillAll_eq_map]

end Context

end Spec

open Spec (Context)

-- The definitions of slots, with the holes in them filled.
def Slots.filled (table : List (Option Context)) (fragment : Spec) : Slots :=
  ⟨table.map (·.map (Context.fill fragment))⟩

theorem Slots.get?_filled (table : List (Option Context)) (fragment : Spec) (slot : Slot) :
    (Slots.filled table fragment).get? slot = table[slot]?.join.map (Context.fill fragment) := by
  rw [Slots.get?, Slots.filled, List.getElem?_map]
  cases table[slot]? <;> rfl

namespace Compiler

theorem plan_fill (c : Compiler) {context : Context} (apart : context ≠ .hole) (s t : Spec) :
    c.plan (context.fill s) = c.plan (context.fill t) := by
  cases context with
  | hole => exact absurd rfl apart
  | whole spec | sequence items => rfl
  | record entries extra =>
    simp [Context.fill, plan, Context.fillEntries_eq_map, Function.comp_def]
  | combinator mode children => simp [Context.fill, plan, Context.fillAll_eq_map]

-- What one compiler takes a fragment for and another takes another for is never two shapes.
def Agree (c d : Compiler) (s t : Spec) : Prop :=
  ∀ a b, c.Denotes s a → d.Denotes t b → a = b

variable {c : Compiler} {table : List (Option Context)} {s t : Spec}

mutual

-- Outside its holes a context has one plan for both, and its children are contexts again.
theorem Denotes.fill_unique
    (agree : Agree (c.withSlots (.filled table s)) (c.withSlots (.filled table t)) s t)
    {spec : Spec} {a : Validator Unit} : (c.withSlots (.filled table s)).Denotes spec a →
      ∀ (context : Context) (b : Validator Unit), context.fill s = spec →
        (c.withSlots (.filled table t)).Denotes (context.fill t) b → a = b
  | .leaf planned, context, b, filled, other => by
    by_cases hole : context = .hole
    · subst hole filled
      exact agree _ b (.leaf planned) other
    · rw [← filled, plan_withSlots, c.plan_fill hole s t] at planned
      exact (other.eq_of_leaf planned).symm
  | .container planned parts, context, b, filled, other => by
    have inside := parts.fill_unique agree context.children
    by_cases hole : context = .hole
    · subst hole filled
      exact agree _ b (.container planned parts) other
    · rw [← filled, plan_withSlots, c.plan_fill hole s t] at planned
      obtain ⟨shapes, others, rfl⟩ := other.of_container planned
      rw [Context.children_fill hole] at others
      rw [inside shapes (by rw [← filled, Context.children_fill hole]) others]
      rfl
  | .slot defined inner, context, b, filled, other => by
    have inside := inner.fill_unique agree
    by_cases hole : context = .hole
    · subst hole filled
      exact agree _ b (.slot defined inner) other
    · have planned := c.plan_fill hole s t
      rw [filled] at planned
      rw [plan_mention planned.symm] at other
      rw [withSlots, Slots.get?_filled] at defined
      obtain ⟨definition, found, filled'⟩ := Option.map_eq_some_iff.mp defined
      refine inside definition b filled' (other.of_slot ?_)
      rw [withSlots, Slots.get?_filled, found, Option.map_some]

theorem DenotesAll.fill_unique
    (agree : Agree (c.withSlots (.filled table s)) (c.withSlots (.filled table t)) s t)
    {specs : List Spec} {shapes : List (Validator Unit)} :
    (c.withSlots (.filled table s)).DenotesAll specs shapes →
      ∀ (contexts : List Context) (shapes' : List (Validator Unit)),
        contexts.map (Context.fill s) = specs →
        (c.withSlots (.filled table t)).DenotesAll (contexts.map (Context.fill t)) shapes' →
        shapes = shapes'
  | .nil, contexts, shapes', filled, others => by
    obtain rfl := List.map_eq_nil_iff.mp filled
    cases others
    rfl
  | .cons first rest, contexts, shapes', filled, others => by
    have head := first.fill_unique agree
    have tail := rest.fill_unique agree
    obtain ⟨context, remaining, rfl, filled, filledRest⟩ := List.map_eq_cons_iff.mp filled
    cases others with
    | cons first' rest' =>
      rw [head context _ filled first', tail remaining _ filledRest rest']

end

theorem Agree.fill
    (agree : Agree (c.withSlots (.filled table s)) (c.withSlots (.filled table t)) s t)
    (context : Context) :
    Agree (c.withSlots (.filled table s)) (c.withSlots (.filled table t))
      (context.fill s) (context.fill t) :=
  fun _ b denotes denotes' => denotes.fill_unique agree context b rfl denotes'

theorem agree_of_denotes {d : Compiler} {v : Validator Handle} (denotes : c.Denotes s v.shape) :
    Agree c d s (.validator v) := by
  intro a b filled other
  rw [filled.unique denotes, other.eq_of_leaf rfl]
  rfl

/--
A fragment may be compiled ahead, when not all slots need have a definition, and put back as a
validator. The context and the definitions of slots may hold it anywhere, and share slots with it.
-/
theorem check_fill (c : Compiler) (earlier : Slots) (table : List (Option Context))
    (context : Context) (fragment : Spec) {n n' n'' after after' after'' : Handle}
    {v whole whole' : Validator Handle}
    (later : earlier.Le (.filled table fragment))
    (ahead : (c.withSlots earlier).compile fragment n = .ok (v, after))
    (compiled : (c.withSlots (.filled table fragment)).compile (context.fill fragment) n' =
      .ok (whole, after'))
    (compiled' : (c.withSlots (.filled table (.validator v))).compile
      (context.fill (.validator v)) n'' = .ok (whole', after'')) :
    ∀ value, whole.check value = whole'.check value := by
  have more : (c.withSlots earlier).Extends (c.withSlots (.filled table fragment)) :=
    extends_withSlots later
  have agree : Agree (c.withSlots (.filled table fragment))
      (c.withSlots (.filled table (.validator v))) fragment (.validator v) :=
    agree_of_denotes ((denotes_of_compile ahead).extend more)
  have same : whole.shape = whole'.shape :=
    agree.fill context _ _ (denotes_of_compile compiled) (denotes_of_compile compiled')
  intro value
  rw [← whole.check_shape, same, whole'.check_shape]

-- The fragment is a choice like the one around it. It mentions a slot that the context mentions
-- too, and stands in the definition of another slot, which has none yet when it is compiled.
def catalogue : Compiler where
  registry := ⟨[("int", .factory (.leaf () (.primitive .integer))),
    ("null", .factory (.leaf () (.primitive .null)))]⟩
  options := {}
  slots := .empty

def catalogueTable : List (Option Context) :=
  [some (.whole (.listOf (.marker "int"))), some (.sequence [.hole])]

def catalogueContext : Context :=
  .record
    [(.required "rows", .whole (.slot 0)),
      (.default "sheets" .null, .combinator .anyOf [.hole, .whole (.slot 1)])]
    none

def catalogueEarlier : Slots := ⟨[some (.listOf (.marker "int")), none]⟩

def rowsOrNull : Spec := .combinator .anyOf [.slot 0, .marker "null"]

def rowsOrNullValidator : Validator Handle :=
  .combinator 3 .anyOf
    [.each 1 (.leaf 0 (.primitive .integer)) false, .leaf 2 (.primitive .null)]

theorem check_catalogue :
    ∃ whole whole' after after',
      (catalogue.withSlots catalogueEarlier).compile rowsOrNull 0 =
        .ok (rowsOrNullValidator, 4) ∧
      (catalogue.withSlots (.filled catalogueTable rowsOrNull)).compile
        (catalogueContext.fill rowsOrNull) 4 = .ok (whole, after) ∧
      (catalogue.withSlots (.filled catalogueTable (.validator rowsOrNullValidator))).compile
        (catalogueContext.fill (.validator rowsOrNullValidator)) 4 = .ok (whole', after') ∧
      ∀ value, whole.check value = whole'.check value := by
  have later : catalogueEarlier.Le (.filled catalogueTable rowsOrNull) := by
    intro slot definition defined
    rcases slot with _ | _ | slot
    · exact defined
    · cases defined
    · cases defined
  have ahead : (catalogue.withSlots catalogueEarlier).compile rowsOrNull 0 =
      .ok (rowsOrNullValidator, 4) := by
    with_unfolding_all rfl
  obtain ⟨whole, after, compiled⟩ : ∃ whole after,
      (catalogue.withSlots (.filled catalogueTable rowsOrNull)).compile
        (catalogueContext.fill rowsOrNull) 4 = .ok (whole, after) := by
    with_unfolding_all exact ⟨_, _, rfl⟩
  obtain ⟨whole', after', compiled'⟩ : ∃ whole' after',
      (catalogue.withSlots (.filled catalogueTable (.validator rowsOrNullValidator))).compile
        (catalogueContext.fill (.validator rowsOrNullValidator)) 4 = .ok (whole', after') := by
    with_unfolding_all exact ⟨_, _, rfl⟩
  exact ⟨whole, whole', after, after', ahead, compiled, compiled',
    check_fill catalogue catalogueEarlier catalogueTable catalogueContext rowsOrNull later ahead
      compiled compiled'⟩

end Compiler

end Conform
