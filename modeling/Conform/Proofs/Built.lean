import Conform.Proofs.Denotation

set_option autoImplicit false

/-!
What a compiled validator is made of. Every node that the compiler makes itself has what
checking and its errors rely on: fields with names of their own and validators, alternatives to
choose from, and the policies of the specification or else of the options.
-/

namespace Conform.Compiler

mutual

/--
What is made for a specification, node by node. Nothing is said of the insides of validators
that are given or that a marker stands for.
-/
inductive Built (c : Compiler) : Spec → Validator Handle → Prop
  | validator {v : Validator Handle} : Built c (.validator v) v
  | marker {marker : String} {entry : Entry} {v : Validator Handle} {next after : Handle}
      (found : c.registry.find? marker = some entry)
      (made : entry.instantiate.run next = (v, after)) : Built c (.marker marker) v
  | record {entries : List (KeySpec × Spec)} {extra : Option ExtraKeys}
      {fields : List (Field (Validator Handle))} {tag : Handle}
      (nodup : (fields.map (·.name)).Nodup) (built : BuiltFields c entries fields) :
      Built c (.record entries extra)
        (.record tag fields (extra.getD c.options.extraKeys) c.options.failFast)
  | list {element : Spec} {inner : Validator Handle} {tag : Handle}
      (built : Built c element inner) :
      Built c (.sequence [element]) (.each tag inner c.options.failFast)
  | tuple {specs : List Spec} {items : List (Validator Handle)} {tag : Handle}
      (arity : items.length ≠ 1) (built : BuiltAll c specs items) :
      Built c (.sequence specs) (.tuple tag items c.options.failFast)
  | combinator {mode : Combine} {specs : List Spec} {children : List (Validator Handle)}
      {tag : Handle} (many : 2 ≤ children.length) (built : BuiltAll c specs children) :
      Built c (.combinator mode specs) (.combinator tag mode children)
  | literal {value : Json} {tag : Handle} (scalar : value.isScalar = true) :
      Built c (.literal value) (.leaf tag (.exact value))
  | slot {slot : Slot} {definition : Spec} {v : Validator Handle}
      (defined : c.slots.get? slot = some definition) (built : Built c definition v) :
      Built c (.slot slot) v

inductive BuiltAll (c : Compiler) : List Spec → List (Validator Handle) → Prop
  | nil : BuiltAll c [] []
  | cons {spec : Spec} {rest : List Spec} {v : Validator Handle} {vs : List (Validator Handle)}
      (first : Built c spec v) (others : BuiltAll c rest vs) :
      BuiltAll c (spec :: rest) (v :: vs)

inductive BuiltFields (c : Compiler) :
    List (KeySpec × Spec) → List (Field (Validator Handle)) → Prop
  | nil : BuiltFields c [] []
  | cons {key : KeySpec} {spec : Spec} {rest : List (KeySpec × Spec)} {name : String}
      {absence : Absence} {inner : Validator Handle} {fields : List (Field (Validator Handle))}
      (named : name ≠ "") (states : key.States name absence) (built : Built c spec inner)
      (others : BuiltFields c rest fields) :
      BuiltFields c ((key, spec) :: rest) (⟨name, absence, some inner⟩ :: fields)

end

variable {c : Compiler}

theorem BuiltAll.length_eq {specs : List Spec} {vs : List (Validator Handle)}
    (built : c.BuiltAll specs vs) : vs.length = specs.length := by
  induction specs generalizing vs with
  | nil =>
    cases built
    rfl
  | cons spec rest ih =>
    cases built with
    | cons first others => rw [List.length_cons, List.length_cons, ih others]

-- A validator that a key brings is replaced. What the key says of the field is kept.
theorem builtFields_attach {seen : List String} {entries : List (KeySpec × Spec)}
    {fields : List (Field (Validator Handle))} {vs : List (Validator Handle)}
    (declares : Declares seen (entries.map (·.1)) fields)
    (built : c.BuiltAll (entries.map (·.2)) vs) :
    c.BuiltFields entries (List.zipWith Field.attach fields vs) := by
  induction entries generalizing seen fields vs with
  | nil =>
    cases built
    rw [List.zipWith_nil_right]
    exact .nil
  | cons entry rest ih =>
    obtain ⟨key, spec⟩ := entry
    cases built with
    | cons first others =>
      cases fields with
      | nil => simpa using declares.resolved
      | cons field fields =>
        rw [List.map_cons, declares_cons] at declares
        obtain ⟨resolution, -, further⟩ := declares
        obtain ⟨states, named⟩ := KeySpec.states_of_resolve resolution
        exact .cons named states first (ih further others)

theorem built_leaf {spec : Spec} {entry : Entry} {v : Validator Handle} {next after : Handle}
    (planned : c.plan spec = .leaf entry) (made : entry.instantiate.run next = (v, after)) :
    c.Built spec v := by
  rcases plan_leaf_cases planned with
    ⟨given, rfl, rfl⟩ | ⟨marker, rfl, found⟩ | ⟨value, rfl, scalar, rfl⟩
  · cases made
    exact .validator
  · exact .marker found made
  · cases made
    exact .literal scalar

theorem built_container {spec : Spec} {frame : Frame} {vs : List (Validator Handle)}
    (planned : c.plan spec = .container frame) (built : c.BuiltAll spec.children vs)
    (tag : Handle) : c.Built spec (frame.join c.options.failFast tag vs) := by
  rcases plan_container_cases planned with
    ⟨items, rfl, rfl⟩ | ⟨mode, children, rfl, many, rfl⟩ |
      ⟨entries, extra, fields, rfl, declares, rfl⟩
  · cases built with
    | nil => exact .tuple (by decide) .nil
    | cons first others =>
      cases others with
      | nil => exact .list first
      | cons second others =>
        exact .tuple (by simp) (.cons first (.cons second others))
  · exact .combinator (built.length_eq ▸ many) built
  · exact .record ((names_attach fields vs).nodup declares.nodup)
      (builtFields_attach declares built)

-- The finished slots have validators that are made for them.
def FinishedBuilt (c : Compiler) (p : Progress) : Prop :=
  ∀ slot v, p.done.lookup slot = some v → c.Built (.slot slot) v

mutual

theorem Yields.built {idle : List Slot} {spec : Spec} {trail : Trail} {depth : Nat}
    {p q : Progress} {v : Validator Handle} :
    c.Yields idle spec trail depth p v q → c.FinishedBuilt p →
      c.Built spec v ∧ c.FinishedBuilt q
  | .leaf fits planned made, finished => ⟨built_leaf planned made, finished⟩
  | .container fits planned parts, finished => by
    obtain ⟨built, further⟩ := parts.built finished
    rw [(parts_container planned).1] at built
    exact ⟨built_container planned built _, further⟩
  | .again fits found, finished => ⟨finished _ _ found, finished⟩
  | .opened fits unfinished defined waits inner, finished => by
    obtain ⟨built, further⟩ := inner.built finished
    have whole : c.Built (.slot _) _ := .slot defined built
    exact ⟨whole, Progress.forall_lookup_cons whole further⟩

theorem YieldsAll.built {idle : List Slot} {parts : List (Step × Spec)} {trail : Trail}
    {depth : Nat} {p q : Progress} {vs : List (Validator Handle)} :
    c.YieldsAll idle parts trail depth p vs q → c.FinishedBuilt p →
      c.BuiltAll (parts.map (·.2)) vs ∧ c.FinishedBuilt q
  | .nil, finished => ⟨.nil, finished⟩
  | .cons first others, finished => by
    obtain ⟨head, further⟩ := first.built finished
    obtain ⟨tail, last⟩ := others.built further
    exact ⟨.cons head tail, last⟩

end

theorem built_of_compile {spec : Spec} {next after : Handle} {v : Validator Handle}
    (compiled : c.compile spec next = .ok (v, after)) : c.Built spec v := by
  obtain ⟨q, yields⟩ := yields_of_compile compiled
  exact (yields.built (by simp [FinishedBuilt])).1

-- A record with a key of each kind. The first brings a validator, which is replaced; the others
-- have an alias of a list, a pair with a validator that is given, and two alternatives.
def gadgets : Compiler where
  registry := ⟨[("int", .factory (.leaf () (.primitive .integer)))]⟩
  options := { extraKeys := .ignore, failFast := true }
  slots := ⟨[some (.listOf (.marker "int")), some (.slot 0)]⟩

def gadgetKeys : List KeySpec :=
  [.field ⟨"id", .default .null, some (.leaf 7 (.primitive .boolean))⟩, .optional "pair",
    .raw (.object [("optional", .bool true), ("name", .string "counts")]), .required "flag"]

def gadgetSpecs : List Spec :=
  [.marker "int", .sequence [.slot 0, .validator (.leaf 7 (.primitive .boolean))], .slot 1,
    .combinator .anyOf [.literal .null, .literal (.bool true)]]

def gadgetFields : List (Field (Validator Handle)) :=
  let counts : Validator Handle := .each 12 (.leaf 11 (.primitive .integer)) true
  [⟨"id", .default .null, some (.leaf 10 (.primitive .integer))⟩,
    ⟨"pair", .optional, some (.tuple 13 [counts, .leaf 7 (.primitive .boolean)] true)⟩,
    ⟨"counts", .optional, some counts⟩,
    ⟨"flag", .required, some (.combinator 16 .anyOf
      [.leaf 14 (.exact .null), .leaf 15 (.exact (.bool true))])⟩]

theorem built_gadget :
    gadgets.compile (.record (gadgetKeys.zip gadgetSpecs) none) 10 =
        .ok (.record 17 gadgetFields .ignore true, 18) ∧
      gadgets.Built (.record (gadgetKeys.zip gadgetSpecs) none)
        (.record 17 gadgetFields .ignore true) := by
  have compiled : gadgets.compile (.record (gadgetKeys.zip gadgetSpecs) none) 10 =
      .ok (.record 17 gadgetFields .ignore true, 18) := by
    with_unfolding_all rfl
  exact ⟨compiled, built_of_compile compiled⟩

end Conform.Compiler
