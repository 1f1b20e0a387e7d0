import Conform.Proofs.Builtin
import Conform.Proofs.Stable

set_option autoImplicit false

/-!
What a compiled check makes of a value is a normal form, if the schema has no combinators and no
validators of its own: checked again, it is given back as it is.
-/

namespace Conform

namespace Compiler

-- A fragment of a schema without combinators and without validators of its own, in which
-- markers stand for primitives.
def Plain (c : Compiler) : Spec → Prop
  | .validator _ | .combinator _ _ => False
  | .marker name =>
    ∀ entry, c.registry.find? name = some entry → ∃ p, entry.shape = .leaf () (.primitive p)
  | .literal _ | .sequence _ | .record _ _ | .slot _ => True

variable {c : Compiler}

theorem stable_leaf {spec : Spec} {entry : Entry} (planned : c.plan spec = .leaf entry)
    (plain : c.Plain spec) : Check.Stable entry.shape.check := by
  rcases plan_leaf_cases planned with
    ⟨v, rfl, -⟩ | ⟨marker, rfl, found⟩ | ⟨value, rfl, scalar, rfl⟩
  · cases plain
  · obtain ⟨p, same⟩ := plain entry found
    rw [same]
    exact Check.stable_primitive p
  · exact Check.stable_exact scalar

theorem inner_attach {α β : Type} {fields : List (Field α)} {inner : List β} {field : Field β}
    (member : field ∈ List.zipWith Field.attach fields inner) :
    ∃ own ∈ inner, field.inner = some own := by
  rw [← List.map_uncurry_zip_eq_zipWith] at member
  obtain ⟨⟨given, own⟩, inside, rfl⟩ := List.mem_map.mp member
  exact ⟨own, (List.of_mem_zip inside).2, rfl⟩

theorem stable_container {spec : Spec} {frame : Frame} {shapes : List (Validator Unit)}
    (planned : c.plan spec = .container frame) (plain : c.Plain spec) (failFast : Bool)
    (stable : ∀ shape ∈ shapes, Check.Stable shape.check) :
    Check.Stable (frame.join failFast () shapes).check := by
  have checks (check : Check) (member : check ∈ shapes.map Validator.check) :
      check.Stable := by
    obtain ⟨shape, inside, rfl⟩ := List.mem_map.mp member
    exact stable shape inside
  rcases plan_container_cases planned with
    ⟨items, rfl, rfl⟩ | ⟨mode, children, rfl, -⟩ | ⟨entries, extra, fields, rfl, declares, rfl⟩
  · have tuple : Check.Stable (.tuple (shapes.map Validator.check) failFast) :=
      Check.stable_tuple checks failFast
    match shapes with
    | [] => exact tuple
    | [shape] => exact Check.stable_each (stable shape (by simp)) failFast
    | _ :: _ :: _ =>
      simp only [Frame.join, Validator.check, Validator.checks_eq_map]
      exact tuple
  · cases plain
  · rw [Frame.join, Validator.check, fieldChecks_attach]
    apply Check.stable_record
    · exact (names_attach fields _).nodup declares.nodup
    · intro field member check inner
      obtain ⟨own, inside, same⟩ := inner_attach member
      obtain rfl : own = check := Option.some.inj (same.symm.trans inner)
      exact checks own inside

mutual

theorem Denotes.stable {spec : Spec} {shape : Validator Unit} : c.Denotes spec shape →
    (∀ fragment, Reaches c.slots spec fragment → c.Plain fragment) → Check.Stable shape.check
  | .leaf planned, plain => stable_leaf planned (plain _ .refl)
  | .container planned parts, plain => by
    refine stable_container planned (plain _ .refl) _ (parts.stable ?_)
    intro child member fragment reaches
    exact plain fragment (.head (.child member) reaches)
  | .slot defined inner, plain => inner.stable fun fragment reaches =>
      plain fragment (.head (.definition defined) reaches)

theorem DenotesAll.stable {specs : List Spec} {shapes : List (Validator Unit)} :
    c.DenotesAll specs shapes →
    (∀ spec ∈ specs, ∀ fragment, Reaches c.slots spec fragment → c.Plain fragment) →
      ∀ shape ∈ shapes, Check.Stable shape.check
  | .nil, _ => by simp
  | .cons first others, plain => by
    have head := first.stable (plain _ List.mem_cons_self)
    have tail := others.stable fun spec member => plain spec (List.mem_cons_of_mem _ member)
    exact List.forall_mem_cons.mpr ⟨head, tail⟩

end

theorem check_output_of_compile {spec : Spec} {next after : Handle} {v : Validator Handle}
    (plain : ∀ fragment, Reaches c.slots spec fragment → c.Plain fragment)
    (compiled : c.compile spec next = .ok (v, after)) {value out : Json}
    (accepted : v.check value = .ok out) : v.check out = .ok out := by
  have stable := (denotes_of_compile compiled).stable plain
  rw [v.check_shape] at stable
  exact stable value out accepted

-- A list of whole numbers with a default that is coerced too, and a member that is kept.
def stock : Compiler where
  registry := (Registry.builtin.run 0).1
  options := { extraKeys := .keep }
  slots := ⟨[some (.listOf (.marker "int"))]⟩

def stockSpec : Spec :=
  .record [(.required "port", .marker "int"),
    (.raw (.array [.string "sizes", .array [.string "7"]]), .slot 0)] none

def stockValidator : Validator Handle :=
  .record 9 [⟨"port", .required, some (.leaf 3 (.primitive .integer))⟩,
    ⟨"sizes", .default (.array [.string "7"]),
      some (.each 8 (.leaf 3 (.primitive .integer)) false)⟩]
    .keep false

def stockInput : Json := .object [("name", .string "x"), ("port", .string " 80 ")]

def stockOutput : Json :=
  .object [("port", .whole ⟨80, by decide, by decide⟩),
    ("sizes", .array [.whole ⟨7, by decide, by decide⟩]), ("name", .string "x")]

theorem plain_stock (fragment : Spec) (reaches : Reaches stock.slots stockSpec fragment) :
    stock.Plain fragment := by
  have listed : fragment = stockSpec ∨ fragment = .marker "int" ∨ fragment = .slot 0 ∨
      fragment = .listOf (.marker "int") := by
    induction reaches with
    | refl => exact .inl rfl
    | tail _ mentions ih =>
      rcases ih with rfl | rfl | rfl | rfl
      · rw [mentions_iff_child (by simp [stockSpec])] at mentions
        simp only [stockSpec, Spec.children, List.map_cons, List.map_nil, List.mem_cons,
          List.not_mem_nil, or_false] at mentions
        tauto
      · rw [mentions_iff_child (by simp)] at mentions
        cases mentions
      · rw [mentions_slot] at mentions
        obtain rfl := Option.some.inj mentions
        tauto
      · rw [mentions_iff_child (by simp [Spec.listOf])] at mentions
        obtain rfl := List.mem_singleton.mp mentions
        tauto
  rcases listed with rfl | rfl | rfl | rfl
  · trivial
  · exact fun entry found => (Registry.primitives_builtin 0).find? found
  · trivial
  · trivial

theorem check_stockOutput :
    stock.compile stockSpec 8 = .ok (stockValidator, 10) ∧
      stockValidator.check stockInput = .ok stockOutput ∧
      stockValidator.check stockOutput = .ok stockOutput := by
  have compiled : stock.compile stockSpec 8 = .ok (stockValidator, 10) := by
    with_unfolding_all rfl
  have accepted : stockValidator.check stockInput = .ok stockOutput := by
    with_unfolding_all rfl
  exact ⟨compiled, accepted, check_output_of_compile plain_stock compiled accepted⟩

end Compiler

end Conform
