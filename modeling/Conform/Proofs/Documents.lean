import Conform.Proofs.Built
import Conform.Proofs.Descent
import Conform.Proofs.Reordered
import Conform.Proofs.Sound

set_option autoImplicit false

/-!
JSON documents as specifications. A document can be compiled exactly if its markers are known, its
members have names and it does not nest too deep, and what it is compiled to has its structure.
-/

namespace Conform

namespace Json

-- The values directly inside a value.
def parts : Json → List Json
  | array items => items
  | object members => members.map (·.2)
  | null | bool _ | number _ | string _ => []

/-- A value at any place in a value, with the number of arrays and objects around it there. -/
inductive Encloses : Json → Nat → Json → Prop
  | here (value : Json) : Encloses value 0 value
  | inside {value part inner : Json} {n : Nat} (member : part ∈ value.parts)
      (encloses : Encloses part n inner) : Encloses value (n + 1) inner

theorem Distinct.part {value part : Json} (distinct : value.Distinct)
    (member : part ∈ value.parts) : part.Distinct := by
  cases value with
  | array items => exact distinctItems_iff.mp distinct part member
  | object members =>
    obtain ⟨field, found, rfl⟩ := List.mem_map.mp member
    exact distinctMembers_iff.mp distinct.2 field found
  | null | bool | number | string => cases member

end Json

namespace Spec

theorem ofItems_eq_map (items : List Json) : ofItems items = items.map ofJson := by
  induction items with
  | nil => rfl
  | cons item rest ih => rw [ofItems, ih, List.map_cons]

theorem ofMembers_eq_map (members : Members Json) :
    ofMembers members = members.map fun (name, value) => (.required name, ofJson value) := by
  induction members with
  | nil => rfl
  | cons member rest ih => rw [ofMembers, ih, List.map_cons]

theorem children_ofJson (value : Json) : (ofJson value).children = value.parts.map ofJson := by
  cases value with
  | array items => simp [ofJson, children, Json.parts, ofItems_eq_map]
  | object members => simp [ofJson, children, Json.parts, ofMembers_eq_map]
  | null | bool | number | string => rfl

theorem keys_ofMembers (members : Members Json) :
    (ofMembers members).map (·.1) = members.names.map .required := by
  simp [ofMembers_eq_map, Members.names]

theorem ofJson_ne_slot (value : Json) (slot : Slot) : ofJson value ≠ .slot slot := by
  cases value <;> simp [ofJson]

end Spec

namespace Compiler

structure ValidSchema (c : Compiler) (document : Json) : Prop where
  markers : ∀ n marker, document.Encloses n (.string marker) → c.registry.recognizes marker
  names : ∀ n members, document.Encloses n (.object members) → "" ∉ Members.names members
  shallow : ∀ n value, document.Encloses n value → n ≤ c.options.maxDepth

mutual

/--
What a document is compiled to. Every record requires all its fields and has them in the order of
the object that it comes from.
-/
inductive Describes (c : Compiler) : Json → Validator Handle → Prop
  | marker {marker : String} {entry : Entry} {v : Validator Handle} {next after : Handle}
      (found : c.registry.find? marker = some entry)
      (made : entry.instantiate.run next = (v, after)) : Describes c (.string marker) v
  | literal {value : Json} {tag : Handle} (scalar : value.isScalar)
      (other : ∀ marker, value ≠ .string marker) : Describes c value (.leaf tag (.exact value))
  | list {item : Json} {inner : Validator Handle} {tag : Handle}
      (described : Describes c item inner) :
      Describes c (.array [item]) (.each tag inner c.options.failFast)
  | tuple {items : List Json} {vs : List (Validator Handle)} {tag : Handle}
      (arity : items.length ≠ 1) (described : DescribesItems c items vs) :
      Describes c (.array items) (.tuple tag vs c.options.failFast)
  | object {members : List (String × Json)} {fields : List (Field (Validator Handle))}
      {tag : Handle} (described : DescribesMembers c members fields) :
      Describes c (.object members)
        (.record tag fields c.options.extraKeys c.options.failFast)

inductive DescribesItems (c : Compiler) : List Json → List (Validator Handle) → Prop
  | nil : DescribesItems c [] []
  | cons {item : Json} {rest : List Json} {v : Validator Handle} {vs : List (Validator Handle)}
      (first : Describes c item v) (others : DescribesItems c rest vs) :
      DescribesItems c (item :: rest) (v :: vs)

inductive DescribesMembers (c : Compiler) :
    List (String × Json) → List (Field (Validator Handle)) → Prop
  | nil : DescribesMembers c [] []
  | cons {name : String} {value : Json} {rest : List (String × Json)} {inner : Validator Handle}
      {fields : List (Field (Validator Handle))} (first : Describes c value inner)
      (others : DescribesMembers c rest fields) :
      DescribesMembers c ((name, value) :: rest) (⟨name, .required, some inner⟩ :: fields)

end

variable {c : Compiler}

mutual

theorem Built.describes : (document : Json) → {v : Validator Handle} →
    c.Built (.ofJson document) v → c.Describes document v
  | .string _, _, .marker found made => .marker found made
  | .null, _, .literal _ => .literal rfl nofun
  | .bool _, _, .literal _ => .literal rfl nofun
  | .number _, _, .literal _ => .literal rfl nofun
  | .array [], _, .tuple _ .nil => .tuple (by decide) .nil
  | .array [item], _, .list built => .list (Built.describes item built)
  | .array [_], _, .tuple arity built => absurd built.length_eq arity
  | .array (item :: other :: rest), _, .tuple _ built =>
    .tuple (by simp) (BuiltAll.describes (item :: other :: rest) built)
  | .object members, _, .record _ built => .object (BuiltFields.describes members built)

theorem BuiltAll.describes : (items : List Json) → {vs : List (Validator Handle)} →
    c.BuiltAll (Spec.ofItems items) vs → c.DescribesItems items vs
  | [], _, .nil => .nil
  | item :: rest, _, .cons first others =>
    .cons (Built.describes item first) (BuiltAll.describes rest others)

theorem BuiltFields.describes : (members : List (String × Json)) →
    {fields : List (Field (Validator Handle))} →
    c.BuiltFields (Spec.ofMembers members) fields → c.DescribesMembers members fields
  | [], _, .nil => .nil
  | (_, value) :: rest, _, .cons _ (.required _) first others =>
    .cons (Built.describes value first) (BuiltFields.describes rest others)

end

-- In a document that is compiled every value is compiled on its own, at its own depth.
theorem Yields.enclosed {document inner : Json} {n : Nat} (encloses : document.Encloses n inner)
    {idle : List Slot} {trail : Trail} {depth : Nat} {p q : Progress} {v : Validator Handle}
    (yields : c.Yields idle (.ofJson document) trail depth p v q) :
    ∃ place before w after,
      c.Yields idle (.ofJson inner) place (depth + n) before w after := by
  induction encloses generalizing trail depth p v q with
  | here => exact ⟨_, _, _, _, yields⟩
  | @inside value part inner n member _ ih =>
    have child : Spec.ofJson part ∈ (Spec.ofJson value).children := by
      rw [Spec.children_ofJson]
      exact List.mem_map_of_mem member
    obtain ⟨place, before, w, after, below⟩ := yields.child child
    have same : depth + 1 + n = depth + (n + 1) := by omega
    exact same ▸ ih below

theorem Yields.validSchema {idle : List Slot} {document : Json} {trail : Trail} {p q : Progress}
    {v : Validator Handle} (yields : c.Yields idle (.ofJson document) trail 0 p v q) :
    c.ValidSchema document := by
  constructor
  · intro n marker encloses
    obtain ⟨place, before, w, after, inner⟩ := yields.enclosed encloses
    exact inner.admits (Spec.ofJson_ne_slot _)
  · intro n members encloses unnamed
    obtain ⟨place, before, w, after, inner⟩ := yields.enclosed encloses
    obtain ⟨sound, -⟩ := inner.admits (Spec.ofJson_ne_slot _)
    rw [Spec.keys_ofMembers] at sound
    obtain ⟨name, field, resolution, -⟩ := sound _ (List.mem_map_of_mem unnamed)
    cases resolution
  · intro n value encloses
    obtain ⟨place, before, w, after, inner⟩ := yields.enclosed encloses
    have fits := inner.fits
    omega

inductive Refuses (c : Compiler) : Nat → Json → Fault → Prop
  | unknown {n : Nat} {marker : String} (unknown : c.registry.find? marker = none) :
      Refuses c n (.string marker) (.unknownMarker marker)
  | unnamed {n : Nat} {members : Members Json} (unnamed : "" ∈ members.names) :
      Refuses c n (.object members) .emptyName
  | tooDeep {n : Nat} {value : Json} (deep : c.options.maxDepth < n) :
      Refuses c n value (.tooDeep c.options.maxDepth)

theorem eq_of_names_required {given name : String}
    (names : (KeySpec.required given).Names name) : given = name := by
  obtain ⟨field, resolution, rfl⟩ := names
  obtain ⟨-, rfl⟩ := KeySpec.bare_eq_ok_iff.mp resolution
  rfl

-- Required fields of different names can only be at fault for a name that is empty.
theorem emptyName_of_keysAtFault {names : List String} (distinct : names.Nodup) {e : CompileError}
    (keys : KeysAtFault 0 [] (names.map .required) e) : "" ∈ names ∧ e.fault = .emptyName := by
  cases keys with
  | @unsound i key fault found refused =>
    rw [List.getElem?_map] at found
    obtain ⟨name, here, rfl⟩ := Option.map_eq_some_iff.mp found
    rw [KeySpec.resolve, KeySpec.bare] at refused
    split at refused <;> cases refused
    next empty => exact ⟨empty ▸ List.mem_of_getElem? here, rfl⟩
  | @repeated i key name found names before =>
    obtain taken | ⟨j, earlier, other, found', names'⟩ := before
    · cases taken
    · rw [Option.mem_def, List.getElem?_map] at found'
      rw [List.getElem?_map] at found
      obtain ⟨first, here, rfl⟩ := Option.map_eq_some_iff.mp found'
      obtain ⟨second, there, rfl⟩ := Option.map_eq_some_iff.mp found
      obtain rfl := eq_of_names_required names
      obtain rfl := eq_of_names_required names'
      obtain ⟨inside, -⟩ := List.getElem?_eq_some_iff.mp here
      have same := (List.getElem?_inj inside distinct).mp (here.trans there.symm)
      omega

theorem refuses_of_faulty {document : Json} {e : CompileError} (distinct : document.Distinct)
    (planned : c.plan (.ofJson document) = .faulty e) (n : Nat) :
    c.Refuses n document e.fault := by
  cases document with
  | null | bool | number | array => cases planned
  | string marker =>
    rw [Spec.ofJson, plan] at planned
    split at planned <;> cases planned
    next unknown => exact .unknown unknown
  | object members =>
    rw [Spec.ofJson, plan] at planned
    split at planned <;> cases planned
    next failed =>
      have keys := declared_error _ _ _ _ failed
      rw [Spec.keys_ofMembers] at keys
      obtain ⟨unnamed, fault⟩ := emptyName_of_keysAtFault distinct.1 keys
      exact fault ▸ .unnamed unnamed

theorem Fails.refuses {idle : List Slot} {spec : Spec} {trail : Trail} {depth : Nat}
    {p : Progress} {e : CompileError} (fails : c.Fails idle spec trail depth p e)
    {document : Json} (distinct : document.Distinct) (same : spec = .ofJson document) :
    ∃ n inner, document.Encloses n inner ∧ c.Refuses (depth + n) inner e.fault := by
  induction fails generalizing document with
  | tooDeep deep => exact ⟨0, document, .here document, .tooDeep deep⟩
  | faulty fits planned =>
    rw [same] at planned
    exact ⟨0, document, .here document, refuses_of_faulty distinct planned _⟩
  | @part idle spec part trail depth p q frame before after step vs e _ _ split _ _ ih =>
    have member := mem_children_of_split split
    rw [same, Spec.children_ofJson] at member
    obtain ⟨value, inside, rfl⟩ := List.mem_map.mp member
    obtain ⟨n, inner, encloses, refuses⟩ := ih (distinct.part inside) rfl
    have deeper : depth + 1 + n = depth + (n + 1) := by omega
    exact ⟨n + 1, inner, .inside inside encloses, deeper ▸ refuses⟩
  | undefined | cyclic | inside => exact absurd same.symm (Spec.ofJson_ne_slot _ _)

theorem Refuses.not_validSchema {document inner : Json} {n : Nat} {fault : Fault}
    (refuses : c.Refuses n inner fault) (encloses : document.Encloses n inner) :
    ¬ c.ValidSchema document := by
  intro valid
  cases refuses with
  | @unknown marker unknown =>
    have known := valid.markers n marker encloses
    simp [Registry.recognizes, unknown] at known
  | unnamed unnamed => exact valid.names n _ encloses unnamed
  | tooDeep deep => exact absurd (valid.shallow n inner encloses) (Nat.not_le.mpr deep)

theorem Refuses.kind {n : Nat} {value : Json} {fault : Fault} (refuses : c.Refuses n value fault) :
    fault.kind ∉ [.duplicateField, .cyclic] := by
  cases refuses <;> simp [Fault.kind]

/--
A document can be compiled exactly if all its values are sound, wherever they are; it is refused
for one of them, and never for its names or for a cycle. What it is compiled to has a record of
required fields for each object, in its order.
-/
theorem compile_ofJson (c : Compiler) {document : Json} (distinct : document.Distinct)
    (next : Handle) :
    ((∃ v after, c.compile (.ofJson document) next = .ok (v, after)) ↔ c.ValidSchema document) ∧
    (∀ e, c.compile (.ofJson document) next = .error e →
      e.fault.kind ∉ [.duplicateField, .cyclic] ∧
        ∃ n inner, document.Encloses n inner ∧ c.Refuses n inner e.fault) ∧
    ∀ v after, c.compile (.ofJson document) next = .ok (v, after) → c.Describes document v := by
  have refuses (e : CompileError) (refused : c.compile (.ofJson document) next = .error e) :
      ∃ n inner, document.Encloses n inner ∧ c.Refuses n inner e.fault := by
    simpa using (fails_of_compile refused).refuses distinct rfl
  refine ⟨⟨?_, fun valid => ?_⟩, fun e refused => ?_, fun v after compiled => ?_⟩
  · rintro ⟨v, after, compiled⟩
    obtain ⟨q, yields⟩ := yields_of_compile compiled
    exact yields.validSchema
  · cases compiled : c.compile (.ofJson document) next with
    | ok made => exact ⟨made.1, made.2, rfl⟩
    | error e =>
      obtain ⟨n, inner, encloses, refused⟩ := refuses e compiled
      exact absurd valid (refused.not_validSchema encloses)
  · obtain ⟨n, inner, encloses, refused⟩ := refuses e refused
    exact ⟨refused.kind, n, inner, encloses, refused⟩
  · obtain ⟨q, yields⟩ := yields_of_compile compiled
    have built := (yields.built (by simp [FinishedBuilt])).1
    exact built.describes

-- Two levels, with a list, a tuple and a record without fields.
def invoice : Json :=
  .object [("tags", .array [.string "str"]), ("pair", .array [.null, .string "int"]),
    ("rest", .object [])]

def invoiceCompiler (maxDepth : Nat) : Compiler where
  registry := ⟨[("int", .factory (.leaf () (.primitive .integer))),
    ("str", .shared (.leaf 7 (.primitive .string)))]⟩
  options := { maxDepth }
  slots := .empty

def invoiceValidator : Validator Handle :=
  .record 15
    [⟨"tags", .required, some (.each 10 (.leaf 7 (.primitive .string)) false)⟩,
      ⟨"pair", .required,
        some (.tuple 13 [.leaf 11 (.exact .null), .leaf 12 (.primitive .integer)] false)⟩,
      ⟨"rest", .required, some (.record 14 [] .reject false)⟩]
    .reject false

theorem compile_invoice :
    invoice.Distinct ∧
      (invoiceCompiler 2).compile (.ofJson invoice) 10 = .ok (invoiceValidator, 16) ∧
      (invoiceCompiler 2).ValidSchema invoice ∧
      (invoiceCompiler 2).Describes invoice invoiceValidator ∧
      ¬ (invoiceCompiler 1).ValidSchema invoice := by
  have distinct : invoice.Distinct := by
    simp [invoice, Json.Distinct, Json.DistinctMembers, Json.DistinctItems]
  have compiled :
      (invoiceCompiler 2).compile (.ofJson invoice) 10 = .ok (invoiceValidator, 16) := by
    with_unfolding_all rfl
  have refused : (invoiceCompiler 1).compile (.ofJson invoice) 10 =
      .error ⟨[.field "tags", .index 0], .tooDeep 1⟩ := by
    with_unfolding_all rfl
  obtain ⟨valid, -, describes⟩ := compile_ofJson (invoiceCompiler 2) distinct 10
  obtain ⟨shallow, -, -⟩ := compile_ofJson (invoiceCompiler 1) distinct 10
  refine ⟨distinct, compiled, valid.mp ⟨_, _, compiled⟩, describes _ _ compiled, fun sound => ?_⟩
  obtain ⟨v, after, made⟩ := shallow.mpr sound
  rw [refused] at made
  cases made

end Compiler

end Conform
