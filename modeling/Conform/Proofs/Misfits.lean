import Conform.Proofs.Meaning
import Conform.Proofs.Members

set_option autoImplicit false

/-!
Where a value does not fit a specification, said by recursion on the specification and not
through a validator: each misfit has a path into the value and a failure that says what is wrong.
-/

namespace Conform

namespace Compiler

/-- What is wrong with a value, and where, if it should be as a specification says. -/
inductive Misfit (c : Compiler) : Spec → Json → Path → Failure → Prop
  | marker {name : String} {entry : Entry} {value : Json} {flaw : Failure}
      (known : c.registry.find? name = some entry) (refused : entry.check value = .error flaw) :
      Misfit c (.marker name) value [] flaw
  | literal {expected value : Json} {flaw : Failure}
      (refused : Check.exact expected value = .error flaw) :
      Misfit c (.literal expected) value [] flaw
  | notArray {specs : List Spec} {value : Json} (other : ∀ items, value ≠ .array items) :
      Misfit c (.sequence specs) value [] (.typeMismatch "array" value)
  | arity {specs : List Spec} {items : List Json} (tuple : specs.length ≠ 1)
      (apart : items.length ≠ specs.length) :
      Misfit c (.sequence specs) (.array items) [] (Check.wrongArity specs.length items.length)
  | element {spec : Spec} {items : List Json} {i : Nat} {item : Json} {p : Path} {flaw : Failure}
      (found : items[i]? = some item) (inside : Misfit c spec item p flaw) :
      Misfit c (.sequence [spec]) (.array items) (.index i :: p) flaw
  | position {specs : List Spec} {items : List Json} {i : Nat} {spec : Spec} {item : Json}
      {p : Path} {flaw : Failure} (tuple : specs.length ≠ 1) (fits : items.length = specs.length)
      (declared : specs[i]? = some spec) (found : items[i]? = some item)
      (inside : Misfit c spec item p flaw) :
      Misfit c (.sequence specs) (.array items) (.index i :: p) flaw
  | notObject {entries : List (KeySpec × Spec)} {extra : Option ExtraKeys} {value : Json}
      (other : ∀ members, value ≠ .object members) :
      Misfit c (.record entries extra) value [] (.typeMismatch "object" value)
  | missing {entries : List (KeySpec × Spec)} {extra : Option ExtraKeys} {members : Members Json}
      {key : KeySpec} {spec : Spec} {field : Field (Validator Handle)}
      (declared : (key, spec) ∈ entries) (resolved : key.resolve = .ok field)
      (absent : members.lookup field.name = none) (required : field.isRequired) :
      Misfit c (.record entries extra) (.object members) [.key field.name] .required
  | member {entries : List (KeySpec × Spec)} {extra : Option ExtraKeys} {members : Members Json}
      {key : KeySpec} {spec : Spec} {field : Field (Validator Handle)} {value : Json} {p : Path}
      {flaw : Failure} (declared : (key, spec) ∈ entries) (resolved : key.resolve = .ok field)
      (given : (members.lookup field.name).or field.default? = some value)
      (inside : Misfit c spec value p flaw) :
      Misfit c (.record entries extra) (.object members) (.key field.name :: p) flaw
  | undeclared {entries : List (KeySpec × Spec)} {extra : Option ExtraKeys}
      {members : Members Json} {name : String} (rejects : extra.getD c.options.extraKeys = .reject)
      (present : name ∈ members.names)
      (undeclared : ∀ key ∈ entries.map (·.1), ¬ key.Names name) :
      Misfit c (.record entries extra) (.object members) [.key name] .extraKey
  | slot {slot : Slot} {definition : Spec} {value : Json} {p : Path} {flaw : Failure}
      (defined : c.slots.get? slot = some definition) (inside : Misfit c definition value p flaw) :
      Misfit c (.slot slot) value p flaw

variable {c : Compiler} {p : Path} {flaw : Failure}

theorem misfit_notArray_iff {specs : List Spec} {value : Json}
    (other : ∀ items, value ≠ .array items) :
    c.Misfit (.sequence specs) value p flaw ↔ p = [] ∧ flaw = .typeMismatch "array" value := by
  constructor
  · intro misfit
    cases misfit with
    | notArray => exact ⟨rfl, rfl⟩
    | arity | element | position => exact absurd rfl (other _)
  · rintro ⟨rfl, rfl⟩
    exact .notArray other

theorem misfit_list_iff {spec : Spec} {items : List Json} :
    c.Misfit (.sequence [spec]) (.array items) p flaw ↔
      ∃ (i : Nat) (item : Json) (rest : Path), items[i]? = some item ∧ p = .index i :: rest ∧
        c.Misfit spec item rest flaw := by
  constructor
  · intro misfit
    cases misfit with
    | notArray other => exact absurd rfl (other items)
    | element found inside => exact ⟨_, _, _, found, rfl, inside⟩
    | arity tuple | position tuple => exact absurd rfl tuple
  · rintro ⟨i, item, rest, found, rfl, inside⟩
    exact .element found inside

theorem misfit_element_iff {spec : Spec} {items : List Json} {i : Nat} {item : Json}
    (found : items[i]? = some item) :
    c.Misfit (.sequence [spec]) (.array items) (.index i :: p) flaw ↔
      c.Misfit spec item p flaw := by
  rw [misfit_list_iff]
  constructor
  · rintro ⟨_, _, _, found', ⟨⟩, inside⟩
    cases found.symm.trans found'
    exact inside
  · exact fun inside => ⟨i, item, p, found, rfl, inside⟩

theorem misfit_arity_iff {specs : List Spec} {items : List Json} (tuple : specs.length ≠ 1)
    (apart : items.length ≠ specs.length) :
    c.Misfit (.sequence specs) (.array items) p flaw ↔
      p = [] ∧ flaw = Check.wrongArity specs.length items.length := by
  constructor
  · intro misfit
    cases misfit with
    | notArray other => exact absurd rfl (other items)
    | arity => exact ⟨rfl, rfl⟩
    | element => exact absurd rfl tuple
    | position _ fits => exact absurd fits apart
  · rintro ⟨rfl, rfl⟩
    exact .arity tuple apart

theorem misfit_tuple_iff {specs : List Spec} {items : List Json} (tuple : specs.length ≠ 1)
    (fits : items.length = specs.length) :
    c.Misfit (.sequence specs) (.array items) p flaw ↔
      ∃ (i : Nat) (spec : Spec) (item : Json) (rest : Path), specs[i]? = some spec ∧
        items[i]? = some item ∧ p = .index i :: rest ∧ c.Misfit spec item rest flaw := by
  constructor
  · intro misfit
    cases misfit with
    | notArray other => exact absurd rfl (other items)
    | arity _ apart => exact absurd fits apart
    | element => exact absurd rfl tuple
    | position _ _ declared found inside => exact ⟨_, _, _, _, declared, found, rfl, inside⟩
  · rintro ⟨i, spec, item, rest, declared, found, rfl, inside⟩
    exact .position tuple fits declared found inside

theorem misfit_position_iff {specs : List Spec} {items : List Json} (tuple : specs.length ≠ 1)
    (fits : items.length = specs.length) {i : Nat} {spec : Spec} {item : Json}
    (declared : specs[i]? = some spec) (found : items[i]? = some item) :
    c.Misfit (.sequence specs) (.array items) (.index i :: p) flaw ↔ c.Misfit spec item p flaw := by
  rw [misfit_tuple_iff tuple fits]
  constructor
  · rintro ⟨_, _, _, _, declared', found', ⟨⟩, inside⟩
    cases declared.symm.trans declared'
    cases found.symm.trans found'
    exact inside
  · exact fun inside => ⟨i, spec, item, p, declared, found, rfl, inside⟩

theorem misfit_notObject_iff {entries : List (KeySpec × Spec)} {extra : Option ExtraKeys}
    {value : Json} (other : ∀ members, value ≠ .object members) :
    c.Misfit (.record entries extra) value p flaw ↔
      p = [] ∧ flaw = .typeMismatch "object" value := by
  constructor
  · intro misfit
    cases misfit with
    | notObject => exact ⟨rfl, rfl⟩
    | missing | member | undeclared => exact absurd rfl (other _)
  · rintro ⟨rfl, rfl⟩
    exact .notObject other

theorem misfit_slot_iff {slot : Slot} {definition : Spec} {value : Json}
    (defined : c.slots.get? slot = some definition) :
    c.Misfit (.slot slot) value p flaw ↔ c.Misfit definition value p flaw := by
  constructor
  · intro misfit
    cases misfit with
    | slot defined' inside =>
      cases defined.symm.trans defined'
      exact inside
  · exact .slot defined

-- What is wrong with a field of an object, seen from the field.
def FieldMisfit (c : Compiler) (field : Field (Validator Handle)) (spec : Spec)
    (members : Members Json) (p : Path) (flaw : Failure) : Prop :=
  match (members.lookup field.name).or field.default? with
  | some value => c.Misfit spec value p flaw
  | none => field.isRequired ∧ p = [] ∧ flaw = .required

theorem misfit_record_iff {entries : List (KeySpec × Spec)} {extra : Option ExtraKeys}
    {members : Members Json} :
    c.Misfit (.record entries extra) (.object members) p flaw ↔
      (∃ key spec field rest, (key, spec) ∈ entries ∧ key.resolve = .ok field ∧
        p = .key field.name :: rest ∧ c.FieldMisfit field spec members rest flaw) ∨
      ∃ name ∈ members.names, (∀ key ∈ entries.map (·.1), ¬ key.Names name) ∧
        p = [.key name] ∧ extra.getD c.options.extraKeys = .reject ∧ flaw = .extraKey := by
  constructor
  · intro misfit
    cases misfit with
    | notObject other => exact absurd rfl (other members)
    | @missing _ _ _ key spec field declared resolved absent required =>
      refine .inl ⟨key, spec, field, [], declared, resolved, rfl, ?_⟩
      have supplied : field.default? = none := by
        rw [Field.isRequired] at required
        rw [Field.default?]
        split at required <;> simp_all
      rw [FieldMisfit, absent, supplied]
      exact ⟨required, rfl, rfl⟩
    | @member _ _ _ key spec field value p _ declared resolved given inside =>
      refine .inl ⟨key, spec, field, p, declared, resolved, rfl, ?_⟩
      rw [FieldMisfit, given]
      exact inside
    | undeclared rejects present undeclared =>
      exact .inr ⟨_, present, undeclared, rfl, rejects, rfl⟩
  · rintro (⟨key, spec, field, rest, declared, resolved, rfl, misfit⟩ |
      ⟨name, present, undeclared, rfl, rejects, rfl⟩)
    · rw [FieldMisfit] at misfit
      split at misfit
      next value given => exact .member declared resolved given misfit
      next absent =>
        obtain ⟨required, rfl, rfl⟩ := misfit
        exact .missing declared resolved (Option.or_eq_none_iff.mp absent).1 required
    · exact .undeclared rejects present undeclared

theorem Declares.unique {entries : List (KeySpec × Spec)} {fields : List (Field (Validator Handle))}
    (declares : Declares [] (entries.map (·.1)) fields) {key key' : KeySpec} {spec spec' : Spec}
    {field field' : Field (Validator Handle)} (declared : (key, spec) ∈ entries)
    (declared' : (key', spec') ∈ entries) (resolved : key.resolve = .ok field)
    (resolved' : key'.resolve = .ok field') (same : field.name = field'.name) :
    field = field' ∧ spec = spec' := by
  have named : (entries.map fun entry => entry.1.resolve.map Field.name).Nodup := by
    have names : (entries.map fun entry => entry.1.resolve.map Field.name) =
        (fields.map Field.name).map .ok := by
      have resolved := congrArg (List.map (Except.map Field.name)) declares.resolved
      rw [List.map_map, List.map_map, List.map_map] at resolved
      rw [List.map_map]
      exact resolved
    rw [names]
    exact declares.nodup.map fun _ _ => Except.ok.inj
  have alike : key.resolve.map Field.name = key'.resolve.map Field.name := by
    rw [resolved, resolved', Except.map, Except.map, same]
  cases List.inj_on_of_nodup_map named declared declared' alike
  cases resolved.symm.trans resolved'
  exact ⟨rfl, rfl⟩

section

variable {entries : List (KeySpec × Spec)} {extra : Option ExtraKeys} {members : Members Json}
  {fields : List (Field (Validator Handle))}

theorem misfit_declared_iff (declares : Declares [] (entries.map (·.1)) fields) {key : KeySpec}
    {spec : Spec} {field : Field (Validator Handle)} (declared : (key, spec) ∈ entries)
    (resolved : key.resolve = .ok field) :
    c.Misfit (.record entries extra) (.object members) (.key field.name :: p) flaw ↔
      c.FieldMisfit field spec members p flaw := by
  rw [misfit_record_iff]
  constructor
  · rintro (⟨key', spec', field', rest, declared', resolved', same, misfit⟩ |
      ⟨name, -, undeclared, same, -⟩)
    · simp only [List.cons.injEq, Segment.key.injEq] at same
      obtain ⟨rfl, rfl⟩ := declares.unique declared declared' resolved resolved' same.1
      exact same.2 ▸ misfit
    · simp only [List.cons.injEq, Segment.key.injEq] at same
      exact absurd ⟨field, resolved, same.1⟩ (undeclared key (List.mem_map_of_mem declared))
  · exact fun misfit => .inl ⟨key, spec, field, p, declared, resolved, rfl, misfit⟩

theorem misfit_undeclared_iff (declares : Declares [] (entries.map (·.1)) fields) {name : String}
    (present : name ∈ members.names) (unknown : name ∉ fields.map (·.name)) :
    c.Misfit (.record entries extra) (.object members) (.key name :: p) flaw ↔
      p = [] ∧ extra.getD c.options.extraKeys = .reject ∧ flaw = .extraKey := by
  rw [declares.mem_names_iff] at unknown
  rw [misfit_record_iff]
  constructor
  · rintro (⟨key, spec, field, rest, declared, resolved, same, -⟩ | ⟨other, -, -, same, rejects⟩)
    · simp only [List.cons.injEq, Segment.key.injEq] at same
      exact absurd ⟨key, List.mem_map_of_mem declared, field, resolved, same.1.symm⟩ unknown
    · exact ⟨(List.cons.inj same).2, rejects⟩
  · rintro ⟨rfl, rejects⟩
    have undeclared (key : KeySpec) (declared : key ∈ entries.map (·.1)) : ¬ key.Names name :=
      fun names => unknown ⟨key, declared, names⟩
    exact .inr ⟨name, present, undeclared, rfl, rejects⟩

end

end Compiler

end Conform
