import Conform.Proofs.Keys
import Mathlib.Data.List.Nodup

set_option autoImplicit false

/-!
One fragment of a specification on its own: the fragments that it is made of, and what
compiling it asks for before any of them is looked at.
-/

namespace Conform

def KeySpec.fieldStep? (key : KeySpec) : Option Step :=
  match key.resolve with
  | .ok declared => some (.field declared.name)
  | .error _ => none

theorem KeySpec.fieldStep?_of_resolve {key : KeySpec} {found : Field (Validator Handle)}
    (resolution : key.resolve = .ok found) : key.fieldStep? = some (.field found.name) := by
  rw [fieldStep?, resolution]

namespace Spec

def children : Spec → List Spec
  | record entries _ => entries.map (·.2)
  | sequence items => items
  | combinator _ children => children
  | validator _ | marker _ | literal _ | slot _ => []

def numbered (step : Nat → Step) : Nat → List Spec → List (Step × Spec)
  | _, [] => []
  | position, spec :: rest => (step position, spec) :: numbered step (position + 1) rest

-- The children with the steps that lead to them. No step leads past a key that is unsound.
def parts : Spec → List (Step × Spec)
  | record entries _ => entries.filterMap fun (key, spec) => key.fieldStep?.map (·, spec)
  | sequence items => numbered .index 0 items
  | combinator mode children => numbered (.child mode) 0 children
  | validator _ | marker _ | literal _ | slot _ => []

theorem numbered_map_snd (step : Nat → Step) (position : Nat) (specs : List Spec) :
    (numbered step position specs).map (·.2) = specs := by
  induction specs generalizing position with
  | nil => rfl
  | cons spec rest ih => rw [numbered, List.map_cons, ih]

theorem numbered_map_fst (step : Nat → Step) (position : Nat) (specs : List Spec) :
    (numbered step position specs).map (·.1) = (List.range' position specs.length).map step := by
  induction specs generalizing position with
  | nil => rfl
  | cons spec rest ih => rw [numbered, List.map_cons, ih]; rfl

theorem numbered_nodup {step : Nat → Step} (injective : Function.Injective step)
    (position : Nat) (specs : List Spec) :
    ((numbered step position specs).map (·.1)).Nodup := by
  rw [numbered_map_fst]
  exact List.Nodup.map injective List.nodup_range'

theorem mem_children_of_mem_parts {spec : Spec} {part : Step × Spec} (member : part ∈ spec.parts) :
    part.2 ∈ spec.children := by
  cases spec with
  | record entries extra =>
    obtain ⟨⟨key, value⟩, found, named⟩ := List.mem_filterMap.mp member
    obtain ⟨step, -, rfl⟩ := Option.map_eq_some_iff.mp named
    exact List.mem_map.mpr ⟨(key, value), found, rfl⟩
  | sequence items =>
    rw [children, ← numbered_map_snd .index 0 items]
    exact List.mem_map_of_mem member
  | combinator mode children =>
    rw [Spec.children, ← numbered_map_snd (.child mode) 0 children]
    exact List.mem_map_of_mem member
  | validator | marker | literal | slot => cases member

theorem sizeOf_child {spec child : Spec} (member : child ∈ spec.children) :
    sizeOf child < sizeOf spec := by
  cases spec with
  | record entries extra =>
    obtain ⟨⟨key, value⟩, found, rfl⟩ := List.mem_map.mp member
    have inside := List.sizeOf_lt_of_mem found
    simp only [Prod.mk.sizeOf_spec, Spec.record.sizeOf_spec] at inside ⊢
    omega
  | sequence items =>
    have inside := List.sizeOf_lt_of_mem member
    simp only [Spec.children, Spec.sequence.sizeOf_spec] at inside ⊢
    omega
  | combinator mode children =>
    have inside := List.sizeOf_lt_of_mem member
    simp only [Spec.children, Spec.combinator.sizeOf_spec] at inside ⊢
    omega
  | validator | marker | literal | slot => cases member

end Spec

-- What a container adds to the validators of its parts.
inductive Frame where
  | record (fields : List (Field (Validator Handle))) (extra : ExtraKeys)
  | sequence
  | combinator (mode : Combine)

def Frame.join {ι : Type} (failFast : Bool) (tag : ι) : Frame → List (Validator ι) → Validator ι
  | .record fields extra, vs => .record tag (List.zipWith Field.attach fields vs) extra failFast
  | .sequence, [v] => .each tag v failFast
  | .sequence, vs => .tuple tag vs failFast
  | .combinator mode, vs => .combinator tag mode vs

inductive Plan where
  | leaf (entry : Entry)
  | container (frame : Frame)
  | mention (slot : Slot)
  | faulty (e : CompileError)

namespace Compiler

open Compiling

theorem names_attach {α β : Type} (fields : List (Field α)) (inner : List β) :
    ((List.zipWith Field.attach fields inner).map (·.name)).Sublist (fields.map (·.name)) := by
  induction fields generalizing inner with
  | nil => exact .slnil
  | cons field rest ih =>
    cases inner with
    | nil => exact List.nil_sublist _
    | cons check inner => exact .cons_cons _ (ih inner)

theorem names_attach_of_length {α β : Type} {fields : List (Field α)} {inner : List β}
    (same : fields.length = inner.length) :
    (List.zipWith Field.attach fields inner).map (·.name) = fields.map (·.name) := by
  refine (names_attach fields inner).eq_of_length ?_
  simp [same]

def plan (c : Compiler) : Spec → Plan
  | .validator v => .leaf (.shared v)
  | .marker marker =>
    match c.registry.find? marker with
    | some entry => .leaf entry
    | none => .faulty ⟨[], .unknownMarker marker⟩
  | .record entries extra =>
    match declared [] 0 [] (entries.map (·.1)) with
    | .ok fields => .container (.record fields (extra.getD c.options.extraKeys))
    | .error e => .faulty e
  | .sequence _ => .container .sequence
  | .combinator mode children =>
    if children.length < 2 then .faulty ⟨[], .tooFewChildren mode children.length⟩
    else .container (.combinator mode)
  | .literal value =>
    if value.isScalar then .leaf (.factory (.leaf () (.exact value)))
    else .faulty ⟨[], .compositeLiteral value⟩
  | .slot slot => .mention slot

def withSlots (c : Compiler) (slots : Slots) : Compiler := { c with slots }

theorem plan_withSlots (c : Compiler) (slots : Slots) (spec : Spec) :
    (c.withSlots slots).plan spec = c.plan spec := rfl

def buildParts (c : Compiler) (opener : Opener) (trail : Trail) (depth : Nat) :
    List (Step × Spec) → Compiling (List (Validator Handle))
  | [] => return []
  | (step, spec) :: rest => do
    let v ← c.build opener spec (trail ++ [step]) depth
    return v :: (← buildParts c opener trail depth rest)

def carryOut (c : Compiler) (opener : Opener) (spec : Spec) (trail : Trail) (depth : Nat) :
    Plan → Compiling (Validator Handle)
  | .leaf entry => instantiate entry
  | .container frame => do
    let vs ← c.buildParts opener trail (depth + 1) spec.parts
    return frame.join c.options.failFast (← newTag) vs
  | .mention slot => opener slot trail depth
  | .faulty e => fail (trail ++ e.trail) e.fault

theorem buildAll_eq (c : Compiler) (opener : Opener) (step : Nat → Step) (position : Nat)
    (specs : List Spec) (trail : Trail) (depth : Nat) :
    c.buildAll opener step position specs trail depth =
      c.buildParts opener trail depth (Spec.numbered step position specs) := by
  induction specs generalizing position with
  | nil => simp only [buildAll, Spec.numbered, buildParts]
  | cons spec rest ih => simp only [buildAll, Spec.numbered, buildParts, ih]

theorem parts_record {entries : List (KeySpec × Spec)} {extra : Option ExtraKeys}
    {fields : List (Field (Validator Handle))}
    (declares : Declares [] (entries.map (·.1)) fields) :
    (Spec.record entries extra).parts =
      (fields.zip entries).map fun (field, entry) => (.field field.name, entry.2) := by
  have resolved := declares.resolved
  clear declares
  rw [Spec.parts]
  induction entries generalizing fields with
  | nil => cases fields <;> simp at resolved ⊢
  | cons entry rest ih =>
    cases fields with
    | nil => simp at resolved
    | cons field fields =>
      obtain ⟨key, spec⟩ := entry
      simp only [List.map_cons, List.cons.injEq] at resolved
      simp only [List.filterMap_cons, KeySpec.fieldStep?_of_resolve resolved.1, Option.map_some,
        List.zip_cons_cons, List.map_cons, ih resolved.2]

theorem length_of_declares {seen : List String} {entries : List (KeySpec × Spec)}
    {fields : List (Field (Validator Handle))}
    (declares : Declares seen (entries.map (·.1)) fields) : entries.length = fields.length := by
  simpa using congrArg List.length declares.resolved

theorem buildFields_eq (c : Compiler) (opener : Opener) {entries : List (KeySpec × Spec)}
    {fields : List (Field (Validator Handle))} (same : entries.length = fields.length)
    (trail : Trail) (depth : Nat) :
    c.buildFields opener entries fields trail depth =
      List.zipWith Field.attach fields <$> c.buildParts opener trail depth
        ((fields.zip entries).map fun (field, entry) => (.field field.name, entry.2)) := by
  induction entries generalizing fields with
  | nil => cases fields <;> simp [buildFields, buildParts] at same ⊢
  | cons entry rest ih =>
    cases fields with
    | nil => simp at same
    | cons field fields =>
      simp only [List.length_cons, Nat.add_right_cancel_iff] at same
      simp only [buildFields, List.zip_cons_cons, List.map_cons, buildParts, map_bind, map_pure,
        ih same, bind_map_left, List.zipWith_cons_cons]

theorem sequence_eq_join (c : Compiler) (tag : Handle) (vs : List (Validator Handle)) :
    c.sequence tag vs = Frame.sequence.join c.options.failFast tag vs := by
  match vs with
  | [] => rfl
  | [_] => rfl
  | _ :: _ :: _ => rfl

-- The seven kinds of fragment come down to four plans here, and to three containers
-- that differ in their frame alone.
theorem build_eq (c : Compiler) (opener : Opener) (spec : Spec) (trail : Trail) (depth : Nat) :
    c.build opener spec trail depth =
      if c.options.maxDepth < depth then fail trail (.tooDeep c.options.maxDepth)
      else c.carryOut opener spec trail depth (c.plan spec) := by
  rw [build.eq_def]
  split
  · rfl
  · cases spec with
    | validator v => rfl
    | marker marker =>
      simp only [plan]
      cases c.registry.find? marker with
      | none => simp [carryOut]
      | some entry => rfl
    | record entries extra =>
      simp only [plan]
      rw [declared_trail]
      cases keys : declared [] 0 [] (entries.map (·.1)) with
      | error e => rfl
      | ok fields =>
        have declares := (declared_ok_iff _ _ _ _).mp keys
        have lifted : (liftM (Except.ok fields : Except CompileError _) : Compiling _) =
            pure fields := rfl
        simp only [carryOut, parts_record declares, Except.mapError, lifted, pure_bind,
          buildFields_eq c opener (length_of_declares declares), bind_map_left, Frame.join]
    | sequence items =>
      simp only [plan, carryOut, Spec.parts, buildAll_eq, sequence_eq_join]
    | combinator mode children =>
      simp only [plan]
      split
      · simp [carryOut]
      · simp only [carryOut, Spec.parts, buildAll_eq, Frame.join]
    | literal value =>
      simp only [plan]
      cases value.isScalar with
      | true => rfl
      | false => simp [carryOut]
    | slot slot => rfl

theorem plan_mention {c : Compiler} {spec : Spec} {slot : Slot}
    (planned : c.plan spec = .mention slot) : spec = .slot slot := by
  cases spec with
  | slot other =>
    cases planned
    rfl
  | validator | sequence => cases planned
  | marker | record | combinator | literal =>
    rw [plan] at planned
    split at planned <;> cases planned

theorem plan_leaf_cases {c : Compiler} {spec : Spec} {entry : Entry}
    (planned : c.plan spec = .leaf entry) :
    (∃ v, spec = .validator v ∧ entry = .shared v) ∨
      (∃ marker, spec = .marker marker ∧ c.registry.find? marker = some entry) ∨
      ∃ value, spec = .literal value ∧ value.isScalar = true ∧
        entry = .factory (.leaf () (.exact value)) := by
  cases spec with
  | sequence | slot => cases planned
  | record | combinator =>
    rw [plan] at planned
    split at planned <;> cases planned
  | validator v =>
    cases planned
    exact .inl ⟨v, rfl, rfl⟩
  | marker marker =>
    rw [plan] at planned
    split at planned <;> cases planned
    next found => exact .inr (.inl ⟨marker, rfl, found⟩)
  | literal value =>
    rw [plan] at planned
    split at planned <;> cases planned
    next scalar => exact .inr (.inr ⟨value, rfl, scalar, rfl⟩)

theorem plan_container_cases {c : Compiler} {spec : Spec} {frame : Frame}
    (planned : c.plan spec = .container frame) :
    (∃ items, spec = .sequence items ∧ frame = .sequence) ∨
      (∃ mode children, spec = .combinator mode children ∧ 2 ≤ children.length ∧
        frame = .combinator mode) ∨
      ∃ entries extra fields, spec = .record entries extra ∧
        Declares [] (entries.map (·.1)) fields ∧
        frame = .record fields (extra.getD c.options.extraKeys) := by
  cases spec with
  | validator | slot => cases planned
  | marker | literal =>
    rw [plan] at planned
    split at planned <;> cases planned
  | sequence items =>
    cases planned
    exact .inl ⟨items, rfl, rfl⟩
  | combinator mode children =>
    rw [plan] at planned
    split at planned <;> cases planned
    next many => exact .inr (.inl ⟨mode, children, rfl, Nat.le_of_not_lt many, rfl⟩)
  | record entries extra =>
    rw [plan] at planned
    split at planned <;> cases planned
    next fields keys =>
      have declares := (declared_ok_iff _ _ _ _).mp keys
      exact .inr (.inr ⟨entries, extra, fields, rfl, declares, rfl⟩)

theorem plan_faulty_cases {c : Compiler} {spec : Spec} {e : CompileError}
    (planned : c.plan spec = .faulty e) :
    (∃ marker, spec = .marker marker ∧ c.registry.find? marker = none ∧
        e = ⟨[], .unknownMarker marker⟩) ∨
      (∃ value, spec = .literal value ∧ value.isScalar = false ∧
        e = ⟨[], .compositeLiteral value⟩) ∨
      (∃ mode children, spec = .combinator mode children ∧ children.length < 2 ∧
        e = ⟨[], .tooFewChildren mode children.length⟩) ∨
      ∃ entries extra, spec = .record entries extra ∧
        KeysAtFault 0 [] (entries.map (·.1)) e := by
  cases spec with
  | validator | sequence | slot => cases planned
  | marker marker =>
    rw [plan] at planned
    split at planned <;> cases planned
    next unknown => exact .inl ⟨marker, rfl, unknown, rfl⟩
  | literal value =>
    rw [plan] at planned
    split at planned <;> cases planned
    next composite => exact .inr (.inl ⟨value, rfl, Bool.not_eq_true _ ▸ composite, rfl⟩)
  | combinator mode children =>
    rw [plan] at planned
    split at planned <;> cases planned
    next few => exact .inr (.inr (.inl ⟨mode, children, rfl, few, rfl⟩))
  | record entries extra =>
    rw [plan] at planned
    split at planned <;> cases planned
    next keys => exact .inr (.inr (.inr ⟨entries, extra, rfl, declared_error _ _ _ _ keys⟩))

theorem children_leaf {c : Compiler} {spec : Spec} {entry : Entry}
    (planned : c.plan spec = .leaf entry) : spec.children = [] := by
  rcases plan_leaf_cases planned with ⟨v, rfl, -⟩ | ⟨marker, rfl, -⟩ | ⟨value, rfl, -⟩ <;> rfl

-- The parts of a container are its children, under steps of their own.
theorem parts_container {c : Compiler} {spec : Spec} {frame : Frame}
    (planned : c.plan spec = .container frame) :
    spec.parts.map (·.2) = spec.children ∧ (spec.parts.map (·.1)).Nodup := by
  rcases plan_container_cases planned with
    ⟨items, rfl, -⟩ | ⟨mode, children, rfl, -⟩ | ⟨entries, extra, fields, rfl, declares, -⟩
  · exact ⟨Spec.numbered_map_snd _ 0 items,
      Spec.numbered_nodup (fun _ _ => Step.index.inj) 0 items⟩
  · refine ⟨Spec.numbered_map_snd _ 0 children, Spec.numbered_nodup ?_ 0 children⟩
    exact fun _ _ same => (Step.child.inj same).2
  · have same := length_of_declares declares
    rw [parts_record declares, List.map_map, List.map_map]
    constructor
    · change (fields.zip entries).map ((·.2) ∘ Prod.snd) = entries.map (·.2)
      rw [← List.map_map, List.map_snd_zip (by omega)]
    · change ((fields.zip entries).map ((Step.field ∘ Field.name) ∘ Prod.fst)).Nodup
      rw [← List.map_map, List.map_fst_zip (by omega), ← List.map_map]
      exact declares.nodup.map fun _ _ => Step.field.inj

end Compiler

end Conform
