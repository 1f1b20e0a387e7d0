import Conform.Proofs.Denotation
import Conform.Proofs.Interpret

set_option autoImplicit false

/-!
What a specification means for a value, by recursion on its unfolded form, where no slot is
left. A validator that compiling gives does exactly what its specification means.
-/

namespace Conform

def Entry.check : Entry → Check
  | shared v => v.check
  | factory pattern => pattern.check

theorem Entry.shape_check (entry : Entry) : entry.shape.check = entry.check := by
  cases entry with
  | shared v => exact v.check_shape
  | factory pattern => rfl

mutual

/-- The same specification with what its slots are defined as in their places. -/
inductive Unfolds (slots : Slots) : Spec → Spec → Prop
  | validator {v : Validator Handle} : Unfolds slots (.validator v) (.validator v)
  | marker {marker : String} : Unfolds slots (.marker marker) (.marker marker)
  | record {entries : List (KeySpec × Spec)} {values : List Spec} {extra : Option ExtraKeys}
      (all : UnfoldsAll slots (entries.map (·.2)) values) :
      Unfolds slots (.record entries extra) (.record ((entries.map (·.1)).zip values) extra)
  | sequence {items trees : List Spec} (all : UnfoldsAll slots items trees) :
      Unfolds slots (.sequence items) (.sequence trees)
  | combinator {mode : Combine} {children trees : List Spec}
      (all : UnfoldsAll slots children trees) :
      Unfolds slots (.combinator mode children) (.combinator mode trees)
  | literal {value : Json} : Unfolds slots (.literal value) (.literal value)
  | slot {slot : Slot} {definition tree : Spec} (defined : slots.get? slot = some definition)
      (inner : Unfolds slots definition tree) : Unfolds slots (.slot slot) tree

inductive UnfoldsAll (slots : Slots) : List Spec → List Spec → Prop
  | nil : UnfoldsAll slots [] []
  | cons {spec tree : Spec} {rest trees : List Spec} (first : Unfolds slots spec tree)
      (others : UnfoldsAll slots rest trees) : UnfoldsAll slots (spec :: rest) (tree :: trees)

end

section

variable {slots : Slots}

mutual

theorem Unfolds.unique {spec a b : Spec} : Unfolds slots spec a → Unfolds slots spec b → a = b
  | .validator, .validator => rfl
  | .marker, .marker => rfl
  | .literal, .literal => rfl
  | .record all, .record others => by rw [all.unique others]
  | .sequence all, .sequence others => by rw [all.unique others]
  | .combinator all, .combinator others => by rw [all.unique others]
  | .slot defined inner, .slot again other => by
    rw [again, Option.some.injEq] at defined
    exact inner.unique (defined ▸ other)

theorem UnfoldsAll.unique {specs as bs : List Spec} :
    UnfoldsAll slots specs as → UnfoldsAll slots specs bs → as = bs
  | .nil, .nil => rfl
  | .cons first others, .cons first' others' => by
    rw [first.unique first', others.unique others']

end

end

namespace Spec

mutual

-- What a specification without slots makes of a value, if its markers, keys and literals are sound.
def eval (c : Compiler) : Spec → Option Check
  | .validator v => some v.check
  | .marker name => (c.registry.find? name).map Entry.check
  | .literal value => if value.isScalar then some (Meaning.literal value) else none
  | .sequence items => (evalAll c items).map (Meaning.sequence c.options.failFast)
  | .combinator mode children => (evalAll c children).map (Meaning.combine mode)
  | .record entries extra =>
    (evalEntries c entries).map fun fields =>
      Meaning.record fields (extra.getD c.options.extraKeys) c.options.failFast
  | .slot _ => none

def evalAll (c : Compiler) : List Spec → Option (List Check)
  | [] => some []
  | spec :: rest => do return (← eval c spec) :: (← evalAll c rest)

def evalEntries (c : Compiler) : List (KeySpec × Spec) → Option (List (String × Absence × Check))
  | [] => some []
  | (key, spec) :: rest => do
    -- what a key brings to check its value gives way to the specification of the value
    let field ← key.resolve.toOption
    let check ← eval c spec
    return (field.name, field.absence, check) :: (← evalEntries c rest)

end

end Spec

def Frame.meaning (failFast : Bool) : Frame → List Check → Check
  | .record fields extra, checks =>
    let taken := List.zipWith (fun field check => (field.name, field.absence, check)) fields checks
    Meaning.record taken extra failFast
  | .sequence, checks => Meaning.sequence failFast checks
  | .combinator mode, checks => Meaning.combine mode checks

namespace Compiler

def Means (c : Compiler) (spec : Spec) (meaning : Check) : Prop :=
  ∃ tree, Unfolds c.slots spec tree ∧ tree.eval c = some meaning

def MeansAll (c : Compiler) (specs : List Spec) (meanings : List Check) : Prop :=
  ∃ trees, UnfoldsAll c.slots specs trees ∧ Spec.evalAll c trees = some meanings

variable {c : Compiler}

theorem Means.unique {spec : Spec} {a b : Check} (first : c.Means spec a)
    (second : c.Means spec b) : a = b := by
  obtain ⟨tree, unfolds, evaluates⟩ := first
  obtain ⟨other, unfolds', evaluates'⟩ := second
  obtain rfl := unfolds.unique unfolds'
  exact Option.some.inj (evaluates.symm.trans evaluates')

theorem evalEntries_zip {keys : List KeySpec} {fields : List (Field (Validator Handle))}
    {trees : List Spec} {checks : List Check} (resolved : keys.map KeySpec.resolve = fields.map .ok)
    (evaluated : Spec.evalAll c trees = some checks) :
    Spec.evalEntries c (keys.zip trees) = some
      (List.zipWith (fun field check => (field.name, field.absence, check)) fields checks) := by
  induction keys generalizing fields trees checks with
  | nil =>
    cases fields with
    | nil => rfl
    | cons field fields => simp at resolved
  | cons key keys ih =>
    cases fields with
    | nil => simp at resolved
    | cons field fields =>
      simp only [List.map_cons, List.cons.injEq] at resolved
      cases trees with
      | nil =>
        cases evaluated
        rfl
      | cons tree trees =>
        simp only [Spec.evalAll, Option.pure_def, Option.bind_eq_bind, Option.bind_eq_some_iff,
          Option.some.injEq] at evaluated
        obtain ⟨check, first, rest, others, rfl⟩ := evaluated
        rw [List.zip_cons_cons, Spec.evalEntries, resolved.1, first, ih resolved.2 others]
        rfl

theorem fieldChecks_attach {ι α : Type} (fields : List (Field α)) (vs : List (Validator ι)) :
    Validator.fieldChecks (List.zipWith Field.attach fields vs) =
      List.zipWith Field.attach fields (vs.map Validator.check) := by
  rw [Validator.fieldChecks_eq_map, List.map_zipWith, List.zipWith_map_right]
  rfl

theorem check_join {ι : Type} (failFast : Bool) (tag : ι) (frame : Frame)
    (vs : List (Validator ι)) :
    (frame.join failFast tag vs).check = frame.meaning failFast (vs.map Validator.check) := by
  cases frame with
  | record fields extra =>
    rw [Frame.join, Validator.check, fieldChecks_attach, Meaning.record_eq, Frame.meaning]
  | combinator mode =>
    rw [Frame.join, Validator.check, Validator.checks_eq_map, Meaning.combine_eq, Frame.meaning]
  | sequence =>
    cases vs with
    | nil => exact Meaning.tuple_eq [] failFast
    | cons v rest =>
      cases rest with
      | nil => exact Meaning.each_eq v.check failFast
      | cons w rest =>
        simp only [Frame.join, Validator.check, Validator.checks_eq_map, Meaning.tuple_eq]
        rfl

-- The fragment unfolds to a container of the same kind, whose meaning is put together from
-- those of the children as the frame puts their shapes together.
theorem means_container {spec : Spec} {frame : Frame} {shapes : List (Validator Unit)}
    (planned : c.plan spec = .container frame)
    (all : c.MeansAll spec.children (shapes.map Validator.check)) :
    c.Means spec (frame.join c.options.failFast () shapes).check := by
  obtain ⟨trees, unfolds, evaluated⟩ := all
  rw [check_join]
  rcases plan_container_cases planned with
    ⟨items, rfl, rfl⟩ | ⟨mode, children, rfl, -, rfl⟩ | ⟨entries, extra, fields, rfl, declares, rfl⟩
  · refine ⟨.sequence trees, .sequence unfolds, ?_⟩
    rw [Spec.eval, evaluated]
    rfl
  · refine ⟨.combinator mode trees, .combinator unfolds, ?_⟩
    rw [Spec.eval, evaluated]
    rfl
  · refine ⟨.record ((entries.map (·.1)).zip trees) extra, .record unfolds, ?_⟩
    rw [Spec.eval, evalEntries_zip declares.resolved evaluated]
    rfl

theorem means_leaf {spec : Spec} {entry : Entry} (planned : c.plan spec = .leaf entry) :
    c.Means spec entry.check := by
  rcases plan_leaf_cases planned with
    ⟨v, rfl, rfl⟩ | ⟨marker, rfl, found⟩ | ⟨value, rfl, scalar, rfl⟩
  · exact ⟨_, .validator, rfl⟩
  · refine ⟨_, .marker, ?_⟩
    rw [Spec.eval, found]
    rfl
  · refine ⟨_, .literal, ?_⟩
    rw [Spec.eval, if_pos scalar, ← Meaning.exact_eq scalar]
    rfl

mutual

theorem Denotes.means {spec : Spec} {shape : Validator Unit} :
    c.Denotes spec shape → c.Means spec shape.check
  | .leaf planned => Entry.shape_check _ ▸ means_leaf planned
  | .container planned parts => means_container planned parts.means
  | .slot defined inner => by
    obtain ⟨tree, unfolds, evaluated⟩ := inner.means
    exact ⟨tree, .slot defined unfolds, evaluated⟩

theorem DenotesAll.means {specs : List Spec} {shapes : List (Validator Unit)} :
    c.DenotesAll specs shapes → c.MeansAll specs (shapes.map Validator.check)
  | .nil => ⟨[], .nil, rfl⟩
  | .cons first others => by
    obtain ⟨tree, unfolds, evaluated⟩ := first.means
    obtain ⟨trees, unfoldsAll, evaluatedAll⟩ := others.means
    refine ⟨tree :: trees, .cons unfolds unfoldsAll, ?_⟩
    rw [Spec.evalAll, evaluated, evaluatedAll]
    rfl

end

-- The meaning is there, it is the only one, and it is what the validator does.
theorem means_iff_of_compile {spec : Spec} {next after : Handle} {v : Validator Handle}
    (compiled : c.compile spec next = .ok (v, after)) (meaning : Check) :
    c.Means spec meaning ↔ meaning = v.check := by
  have means : c.Means spec v.check := v.check_shape ▸ (denotes_of_compile compiled).means
  constructor
  · exact fun other => other.unique means
  · rintro rfl
    exact means

-- Two fields share one list. The second gets to it by an alias and its key has a check of its own.
def sharing : Compiler where
  registry := ⟨[("int", .factory (.leaf () (.primitive .integer)))]⟩
  options := {}
  slots := ⟨[some (.listOf (.marker "int")), some (.slot 0)]⟩

def sharingRecord : Spec :=
  .record
    [(.required "xs", .slot 0),
      (.field ⟨"ys", .optional, some (.leaf 9 (.primitive .any))⟩, .slot 1)]
    none

def sharedList : Validator Handle := .each 1 (.leaf 0 (.primitive .integer)) false

def sharingValidator : Validator Handle :=
  .record 2 [⟨"xs", .required, some sharedList⟩, ⟨"ys", .optional, some sharedList⟩] .reject false

theorem means_sharingRecord :
    sharing.compile sharingRecord 0 = .ok (sharingValidator, 3) ∧
      ∀ meaning, sharing.Means sharingRecord meaning ↔ meaning = sharingValidator.check := by
  have compiled : sharing.compile sharingRecord 0 = .ok (sharingValidator, 3) := by
    with_unfolding_all rfl
  exact ⟨compiled, means_iff_of_compile compiled⟩

end Compiler

end Conform
