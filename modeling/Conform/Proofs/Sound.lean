import Conform.Proofs.Blame
import Conform.Proofs.Denotation

set_option autoImplicit false

/-!
Which specifications can be compiled. The depth limit aside, they are those in which every
fragment that can be reached is sound on its own and no slot is part of its own definition.
-/

namespace Conform.Compiler

-- What is asked of a fragment on its own, and of a slot that its definition is without it.
def Admits (c : Compiler) : Spec → Prop
  | .marker name => c.registry.recognizes name
  | .literal value => value.isScalar
  | .combinator _ children => 2 ≤ children.length
  | .record entries _ =>
    (∀ key ∈ entries.map (·.1), ∃ name, key.Names name) ∧
      (entries.map (·.1)).Pairwise fun a b => ∀ name, a.Names name → ¬ b.Names name
  | .slot slot =>
    ∃ definition, c.slots.get? slot = some definition ∧
      ¬ Reaches c.slots definition (.slot slot)
  | .validator _ | .sequence _ => True

variable {c : Compiler}

theorem admits_of_leaf {spec : Spec} {entry : Entry} (planned : c.plan spec = .leaf entry) :
    c.Admits spec := by
  rcases plan_leaf_cases planned with
    ⟨v, rfl, -⟩ | ⟨marker, rfl, found⟩ | ⟨value, rfl, scalar, -⟩
  · trivial
  · rw [Admits, Registry.recognizes, found, Option.isSome_some]
  · exact scalar

theorem admits_of_container {spec : Spec} {frame : Frame}
    (planned : c.plan spec = .container frame) : c.Admits spec := by
  rcases plan_container_cases planned with
    ⟨items, rfl, -⟩ | ⟨mode, children, rfl, many, -⟩ | ⟨entries, extra, fields, rfl, declares, -⟩
  · trivial
  · exact many
  · refine ⟨fun key member => ?_, declares.distinct⟩
    obtain ⟨field, -, resolution⟩ := declares.mem member
    exact ⟨field.name, field, resolution, rfl⟩

theorem Yields.admits {idle : List Slot} {spec : Spec} {trail : Trail} {depth : Nat}
    {p q : Progress} {v : Validator Handle} (yields : c.Yields idle spec trail depth p v q)
    (apart : ∀ slot, spec ≠ .slot slot) : c.Admits spec := by
  cases yields with
  | leaf fits planned => exact admits_of_leaf planned
  | container fits planned => exact admits_of_container planned
  | again | opened => exact absurd rfl (apart _)

theorem Denotes.admits {spec : Spec} {shape : Validator Unit} (denotes : c.Denotes spec shape) :
    c.Admits spec := by
  cases denotes with
  | leaf planned => exact admits_of_leaf planned
  | container planned _ => exact admits_of_container planned
  | slot defined inner =>
    exact ⟨_, defined, not_reaches_self_of_acc (Denotes.slot defined inner).acc defined⟩

theorem Exhibits.not_admits {spec fragment : Spec} {trail tail : Trail} {passed : List Slot}
    {fault : Fault} (walk : Walk c.slots spec trail passed fragment)
    (exhibits : c.Exhibits passed fragment tail fault)
    (shallow : fault ≠ .tooDeep c.options.maxDepth) : ¬ c.Admits fragment := by
  intro admits
  cases exhibits with
  | unknownMarker unknown => simp [Admits, Registry.recognizes, unknown] at admits
  | compositeLiteral composite => simp [Admits, composite] at admits
  | tooFewChildren few => exact absurd admits (Nat.not_le.mpr few)
  | undefinedSlot missing =>
    obtain ⟨definition, defined, -⟩ := admits
    rw [missing] at defined
    cases defined
  | duplicateField order foundEarlier namesEarlier foundLater namesLater =>
    obtain ⟨below, rfl⟩ := List.getElem?_eq_some_iff.mp foundLater
    obtain ⟨_, rfl⟩ := List.getElem?_eq_some_iff.mp foundEarlier
    have inside := Nat.lt_trans order below
    have distinct := List.pairwise_iff_getElem.mp admits.2 _ _ inside below order
    exact distinct _ namesEarlier namesLater
  | cyclic again =>
    obtain ⟨definition, defined, acyclic⟩ := admits
    obtain ⟨other, defined', reaches⟩ := walk.reaches_of_passed again
    rw [defined, Option.some.injEq] at defined'
    exact acyclic (defined' ▸ reaches)
  | tooDeep => exact shallow rfl
  | key found refused =>
    obtain ⟨name, field, resolution, -⟩ := admits.1 _ (List.mem_of_getElem? found)
    rw [refused] at resolution
    cases resolution

theorem compile_ok_iff {spec : Spec} {next : Handle}
    (shallow : ∀ trail, c.compile spec next ≠ .error ⟨trail, .tooDeep c.options.maxDepth⟩) :
    (∃ v after, c.compile spec next = .ok (v, after)) ↔
      ∀ fragment, Reaches c.slots spec fragment → c.Admits fragment := by
  constructor
  · rintro ⟨v, after, compiled⟩ fragment reaches
    obtain ⟨shape, denotes⟩ := (denotes_of_compile compiled).reached reaches
    exact denotes.admits
  · intro admits
    cases compiled : c.compile spec next with
    | ok made => exact ⟨made.1, made.2, rfl⟩
    | error e =>
      obtain ⟨home, tail, passed, fragment, -, walk, -, exhibits⟩ :=
        blames_of_fails (fails_of_compile compiled)
      refine absurd (admits fragment walk.reaches) (exhibits.not_admits walk ?_)
      intro deep
      apply shallow e.trail
      rw [compiled, ← deep]

-- One slot is mentioned twice, which is no cycle.
def diamond : Compiler where
  registry := ⟨[("int", .factory (.leaf () (.primitive .integer)))]⟩
  options := {}
  slots := ⟨[some (.marker "int")]⟩

theorem admits_diamond :
    (∀ trail, diamond.compile (.sequence [.slot 0, .slot 0]) 0 ≠ .error ⟨trail, .tooDeep 256⟩) ∧
      ∀ fragment, Reaches diamond.slots (.sequence [.slot 0, .slot 0]) fragment →
        diamond.Admits fragment := by
  have compiled : diamond.compile (.sequence [.slot 0, .slot 0]) 0 =
      .ok (.tuple 1 [.leaf 0 (.primitive .integer), .leaf 0 (.primitive .integer)] false, 2) := by
    with_unfolding_all rfl
  have shallow (trail : Trail) :
      diamond.compile (.sequence [.slot 0, .slot 0]) 0 ≠ .error ⟨trail, .tooDeep 256⟩ := by
    rw [compiled]
    intro same
    cases same
  exact ⟨shallow, (compile_ok_iff shallow).mp ⟨_, _, compiled⟩⟩

end Conform.Compiler
