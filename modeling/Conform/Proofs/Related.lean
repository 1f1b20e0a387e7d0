import Conform.Proofs.Accept
import Mathlib.Data.List.Forall2
import Mathlib.Data.Option.Basic

set_option autoImplicit false

/-!
Checks that do alike: to related values they give related results, and where one refuses
the other does too, with a related failure.
-/

namespace Conform

namespace Outcome

variable {α β γ δ : Type} {s t : Failure → Failure → Prop} {r : α → β → Prop}

inductive Rel (s : Failure → Failure → Prop) (r : α → β → Prop) : Outcome α → Outcome β → Prop
  | ok {a : α} {b : β} (value : r a b) : Rel s r (.ok a) (.ok b)
  | error {e f : Failure} (failure : s e f) : Rel s r (.error e) (.error f)

theorem Rel.imp {first : Outcome α} {second : Outcome β} {q : α → β → Prop}
    (related : Rel s r first second) (values : ∀ a b, r a b → q a b) : Rel s q first second := by
  cases related with
  | ok value => exact .ok (values _ _ value)
  | error failure => exact .error failure

theorem Rel.map {first : Outcome α} {second : Outcome β} {q : γ → δ → Prop} {f : α → γ}
    {g : β → δ} (related : Rel s r first second)
    (images : ∀ a b, first = .ok a → r a b → q (f a) (g b)) :
    Rel s q (first.map f) (second.map g) := by
  cases related with
  | ok value => exact .ok (images _ _ rfl value)
  | error failure => exact .error failure

theorem Rel.mapError {first : Outcome α} {second : Outcome β} {f g : Failure → Failure}
    (related : Rel s r first second) (images : ∀ a b, s a b → t (f a) (g b)) :
    Rel t r (first.mapError f) (second.mapError g) := by
  cases related with
  | ok value => exact .ok value
  | error failure => exact .error (images _ _ failure)

def failure? : Outcome α → Option Failure
  | .ok _ => none
  | .error e => some e

theorem failures_eq_filterMap (outcomes : List (Outcome α)) :
    failures outcomes = outcomes.filterMap failure? := by
  induction outcomes with
  | nil => rfl
  | cons outcome rest ih => cases outcome <;> simp [failures, List.filterMap_cons, failure?, ih]

theorem values_eq_filterMap (outcomes : List (Outcome α)) :
    values outcomes = outcomes.filterMap Except.toOption := by
  induction outcomes with
  | nil => rfl
  | cons outcome rest ih =>
    cases outcome <;> simp [values, List.filterMap_cons, Except.toOption, ih]

theorem Rel.failure? {first : Outcome α} {second : Outcome β} (related : Rel s r first second) :
    Option.Rel s (failure? first) (failure? second) := by
  cases related with
  | ok => exact .none
  | error failure => exact .some failure

theorem Rel.toOption {first : Outcome α} {second : Outcome β} (related : Rel s r first second) :
    Option.Rel r (Except.toOption first) (Except.toOption second) := by
  cases related with
  | ok value => exact .some value
  | error => exact .none

theorem values_forall₂ {outcomes : List (Outcome α)} {others : List (Outcome β)}
    (related : List.Forall₂ (Rel s r) outcomes others) :
    List.Forall₂ r (values outcomes) (values others) := by
  rw [values_eq_filterMap, values_eq_filterMap]
  exact List.rel_filterMap (fun _ _ same => Rel.toOption same) related

theorem failures_forall₂ {outcomes : List (Outcome α)} {others : List (Outcome β)}
    (related : List.Forall₂ (Rel s r) outcomes others) :
    List.Forall₂ s (failures outcomes) (failures others) := by
  rw [failures_eq_filterMap, failures_eq_filterMap]
  exact List.rel_filterMap (fun _ _ same => Rel.failure? same) related

-- Failures that stay related when they are seen from outside can be placed at their indices.
theorem indexed_forall₂ (placing : ∀ place e f, s e f → s (e.under place) (f.under place))
    {outcomes : List (Outcome α)} {others : List (Outcome β)}
    (related : List.Forall₂ (Rel s r) outcomes others) :
    List.Forall₂ (Rel s r) (indexed outcomes) (indexed others) := by
  have placed (place : Nat → Segment) : List.Forall₂ (Rel s r)
      (outcomes.mapIdx fun i outcome => outcome.mapError (Failure.under (place i)))
      (others.mapIdx fun i outcome => outcome.mapError (Failure.under (place i))) := by
    induction related generalizing place with
    | nil => exact .nil
    | cons first _ ih =>
      rw [List.mapIdx_cons, List.mapIdx_cons]
      exact .cons (first.mapError (placing _)) (ih fun i => place (i + 1))
  exact placed .index

end Outcome

namespace Check

open Outcome

variable {s : Failure → Failure → Prop} {r : Json → Json → Prop} {firsts seconds : List Check}

def Rel (s : Failure → Failure → Prop) (r : Json → Json → Prop) (first second : Check) : Prop :=
  ∀ x y, r x y → Outcome.Rel s r (first x) (second y)

theorem zipWith_forall₂ {xs ys : List Json} (related : List.Forall₂ (Rel s r) firsts seconds)
    (items : List.Forall₂ r xs ys) :
    List.Forall₂ (Outcome.Rel s r)
      (List.zipWith (fun check value => check value) firsts xs)
      (List.zipWith (fun check value => check value) seconds ys) := by
  induction related generalizing xs ys with
  | nil => exact .nil
  | cons head _ ih =>
    cases items with
    | nil => exact .nil
    | cons item rest => exact .cons (head _ _ item) (ih rest)

-- The alternatives that refuse come before the first that accepts.
theorem anyOf_rel (related : List.Forall₂ (Rel s r) firsts seconds)
    (gathering : ∀ es fs, List.Forall₂ s es fs → s (noneAccepted es) (noneAccepted fs)) :
    Rel s r (anyOf firsts) (anyOf seconds) := by
  intro x y same
  have tried : (∃ out out', firstSuccess firsts x = .ok out ∧ firstSuccess seconds y = .ok out' ∧
        r out out') ∨
      ∃ es fs, firstSuccess firsts x = .error es ∧ firstSuccess seconds y = .error fs ∧
        List.Forall₂ s es fs := by
    induction related with
    | nil => exact .inr ⟨[], [], rfl, rfl, .nil⟩
    | @cons f g _ _ head _ ih =>
      have here := head x y same
      rw [firstSuccess, firstSuccess]
      generalize f x = one at here ⊢
      generalize g y = other at here ⊢
      cases here with
      | ok value => exact .inl ⟨_, _, rfl, rfl, value⟩
      | error failure =>
        rcases ih with ⟨out, out', left, right, value⟩ | ⟨es, fs, left, right, failures⟩
        · exact .inl ⟨out, out', by rw [left]; rfl, by rw [right]; rfl, value⟩
        · exact .inr ⟨_, _, by rw [left]; rfl, by rw [right]; rfl, .cons failure failures⟩
  rw [anyOf, anyOf]
  rcases tried with ⟨out, out', left, right, value⟩ | ⟨es, fs, left, right, failures⟩
  · rw [left, right]
    exact .ok value
  · rw [left, right]
    exact .error (gathering es fs failures)

-- What one check makes of related values are related values again for the next.
theorem allOf_rel (related : List.Forall₂ (Rel s r) firsts seconds) :
    Rel s r (allOf firsts) (allOf seconds) := by
  intro x y same
  induction related generalizing x y with
  | nil => exact .ok same
  | @cons f g _ _ head _ ih =>
    have here := head x y same
    rw [allOf, allOf]
    generalize f x = one at here ⊢
    generalize g y = other at here ⊢
    cases here with
    | ok value => exact ih _ _ value
    | error failure => exact .error failure

end Check

-- Members of one name, with related values.
def Members.Paired (r : Json → Json → Prop) (a b : String × Json) : Prop := a.1 = b.1 ∧ r a.2 b.2

namespace Field

open Outcome

-- The same field in both, with checks that do alike.
structure Rel (s : Failure → Failure → Prop) (r : Json → Json → Prop) (first second : Field Check) :
    Prop where
  name : first.name = second.name
  absence : first.absence = second.absence
  default : ∀ value ∈ first.default?, r value value
  inner : Option.Rel (Check.Rel s r) first.inner second.inner

variable {s : Failure → Failure → Prop} {r : Json → Json → Prop} {first second : Field Check}

theorem accept_rel (related : Rel s r first second)
    (placing : ∀ place e f, s e f → s (e.under place) (f.under place)) {x y : Json} (same : r x y) :
    Outcome.Rel s r (first.accept x) (second.accept y) := by
  have inner := related.inner
  rw [accept, accept, related.name]
  generalize first.inner = own at inner ⊢
  generalize second.inner = other at inner ⊢
  cases inner with
  | none => exact .ok same
  | some checks => exact (checks x y same).mapError (placing _)

theorem entry_rel (related : Rel s r first second)
    (placing : ∀ place e f, s e f → s (e.under place) (f.under place))
    (missing : ∀ place, s (Failure.required.under place) (Failure.required.under place))
    {xs ys : Members Json} (found : ∀ name, Option.Rel r (xs.lookup name) (ys.lookup name)) :
    Outcome.Rel s (Option.Rel (Members.Paired r)) (first.entry xs) (second.entry ys) := by
  have taken {x y : Json} (same : r x y) : Outcome.Rel s (Option.Rel (Members.Paired r))
      (((first.accept x).map some).map (·.map (first.name, ·)))
      (((second.accept y).map some).map (·.map (second.name, ·))) := by
    have accepted := accept_rel related placing same
    refine (accepted.map (q := Option.Rel r) fun _ _ _ out => .some out).map ?_
    rintro _ _ - (⟨out⟩ | -)
    · exact .some ⟨related.name, out⟩
    · exact .none
  have here := found first.name
  rw [related.name] at here
  rw [Field.entry, Field.entry, extract, extract, related.name]
  generalize xs.lookup second.name = x at here ⊢
  generalize ys.lookup second.name = y at here ⊢
  cases here with
  | some same => exact related.name ▸ taken same
  | none =>
    have default := related.default
    rw [default?] at default
    rw [← related.absence]
    cases absence : first.absence with
    | required => exact .error (missing _)
    | optional => exact .ok .none
    | default value =>
      rw [absence] at default
      exact related.name ▸ taken (default value rfl)

end Field

end Conform
