import Conform.Proofs.Accept
import Conform.Proofs.Reordered

set_option autoImplicit false

/-!
The order of fields decides nothing. Validators that declare the same fields in different orders
accept the same values, whatever the order of members in them, and find the same things wrong.
-/

namespace Conform

-- What is wrong is compared only if nothing is cut short.
def Failure.Alike (collecting : Prop) (e f : Failure) : Prop := collecting → e.Reordered f

theorem Failure.Alike.under {collecting : Prop} (place : Segment) (e f : Failure)
    (alike : e.Alike collecting f) : (e.under place).Alike collecting (f.under place) :=
  fun collects => (alike collects).under place

namespace Outcome

variable {α β : Type} {collecting : Prop} {r : α → β → Prop}

abbrev Alike (collecting : Prop) : (α → β → Prop) → Outcome α → Outcome β → Prop :=
  Rel (Failure.Alike collecting)

theorem alike_error (e : Failure) : Alike collecting r (.error e) (.error e) :=
  .error fun _ => .refl e

theorem values_shuffled {outcomes : List (Outcome α)} {others : List (Outcome β)}
    (alike : Shuffled (Alike collecting r) outcomes others) :
    Shuffled r (values outcomes) (values others) := by
  rw [values_eq_filterMap, values_eq_filterMap]
  exact alike.filterMap fun _ _ => Rel.toOption

theorem failures_shuffled {outcomes : List (Outcome α)} {others : List (Outcome β)}
    (alike : Shuffled (Alike collecting r) outcomes others) :
    Shuffled (Failure.Alike collecting) (failures outcomes) (failures others) := by
  rw [failures_eq_filterMap, failures_eq_filterMap]
  exact alike.filterMap fun _ _ => Rel.failure?

theorem reordered_of_shuffled {es fs : List Failure} (collects : collecting)
    (parts : Shuffled (Failure.Alike collecting) es fs) {code message : String}
    {path : Path} {params : List (String × String)} :
    Failure.Reordered ⟨code, message, path, params, es⟩ ⟨code, message, path, params, fs⟩ := by
  obtain ⟨ys, pointwise, order⟩ := parts
  refine .node (Failure.reorderedAll_iff.mpr ?_) order
  exact pointwise.imp fun e f same => same collects

theorem settle_alike {failFast : Bool} (complete : collecting → failFast = false) (code : String)
    (message : Nat → String) {outcomes : List (Outcome α)} {others : List (Outcome β)}
    (alike : Shuffled (Alike collecting r) outcomes others) {s : List α → List β → Prop}
    (taken : s (values outcomes) (values others)) :
    Alike collecting s (settle failFast (Failure.gathered code message) outcomes)
      (settle failFast (Failure.gathered code message) others) := by
  have failed := failures_shuffled alike
  have same := failed.length_eq
  rw [settle, settle]
  generalize failures outcomes = es at failed same ⊢
  generalize failures others = fs at failed same ⊢
  cases es with
  | nil =>
    obtain rfl : fs = [] := List.length_eq_zero_iff.mp same.symm
    exact .ok taken
  | cons e es =>
    cases fs with
    | nil => cases same
    | cons f fs =>
      refine .error fun collects => ?_
      rw [complete collects]
      simp only [Bool.false_eq_true, if_false, Failure.gathered, same]
      exact reordered_of_shuffled collects failed

end Outcome

abbrev Field.Alike (collecting : Prop) : Field Check → Field Check → Prop :=
  Field.Rel (Failure.Alike collecting) Json.Reordered

namespace Check

open Outcome

variable {collecting : Prop}

-- Two checks do the same to a value and to a reordering of it.
abbrev Alike (collecting : Prop) : Check → Check → Prop :=
  Check.Rel (Failure.Alike collecting) Json.Reordered

theorem mismatch_alike {α β : Type} {r : α → β → Prop} (expected : String) {x y : Json}
    (same : x.Reordered y) :
    Outcome.Alike collecting r (.error (.typeMismatch expected x))
      (.error (.typeMismatch expected y)) := by
  rw [Failure.typeMismatch, Failure.typeMismatch, same.kind_eq]
  exact alike_error _

theorem alike_of_scalar {check : Check} (expected : String)
    (outs : ∀ value out, value.isScalar → check value = .ok out → out.isScalar)
    (others : ∀ value, value.isScalar = false →
      check value = .error (.typeMismatch expected value)) :
    Alike collecting check check := by
  intro x y same
  cases same with
  | scalar scalar =>
    cases result : check x with
    | error e => exact alike_error e
    | ok out => exact .ok (.scalar (outs x out scalar result))
  | array items =>
    rw [others _ rfl, others _ rfl]
    exact mismatch_alike _ (.array items)
  | object distinct members order =>
    rw [others _ rfl, others _ rfl]
    exact mismatch_alike _ (.object distinct members order)

theorem ofKind_alike (expected : String) :
    Alike collecting (ofKind expected) (ofKind expected) := by
  intro x y same
  rw [ofKind, ofKind, same.kind_eq]
  split
  · exact .ok same
  · exact mismatch_alike expected same

theorem primitive_alike (p : Primitive) : Alike collecting p.check p.check := by
  cases p with
  | any => exact fun _ _ => .ok
  | null | boolean | string | list | mapping => exact ofKind_alike _
  | integer =>
    refine alike_of_scalar "integer" (fun value out _ accepted => ?_) fun value composite => ?_
    · obtain ⟨n, rfl⟩ := whole_of_integer accepted
      rfl
    · cases value with
      | array | object => rfl
      | _ => cases composite
  | float =>
    refine alike_of_scalar "float" (fun value out _ accepted => ?_) fun value composite => ?_
    · obtain ⟨x, rfl⟩ := double_of_float accepted
      rfl
    · cases value with
      | array | object => rfl
      | _ => cases composite

theorem isExactly_congr (expected : Json) {x y : Json} (same : x.Reordered y) :
    isExactly expected x = isExactly expected y := by
  cases same with
  | scalar => rfl
  | array items => cases expected <;> exact Json.same_congr _ (.array items)
  | object distinct members order =>
    cases expected <;> exact Json.same_congr _ (.object distinct members order)

theorem exact_alike {expected : Json} (distinct : expected.Distinct) :
    Alike collecting (Check.exact expected) (Check.exact expected) := by
  intro x y same
  rw [Check.exact, Check.exact, isExactly_congr expected same]
  split
  · exact .ok distinct.reordered
  · exact alike_error _

theorem settle_indexed_alike {failFast : Bool} (complete : collecting → failFast = false)
    (code : String) (message : Nat → String) {outcomes others : List (Outcome Json)}
    (alike : List.Forall₂ (Outcome.Alike collecting Json.Reordered) outcomes others) :
    Outcome.Alike collecting Json.Reordered
      ((settle failFast (Failure.gathered code message) (indexed outcomes)).map .array)
      ((settle failFast (Failure.gathered code message) (indexed others)).map .array) := by
  have placed := indexed_forall₂ Failure.Alike.under alike
  have settled := settle_alike complete code message (.of_forall₂ placed) (values_forall₂ placed)
  exact settled.map fun _ _ _ items => .array (Json.reorderedItems_iff.mpr items)

-- A container that takes values of one kind only needs to be compared on these.
theorem each_alike {first second : Check} (alike : Alike collecting first second) {failFast : Bool}
    (complete : collecting → failFast = false) :
    Alike collecting (each first failFast) (each second failFast) := by
  intro x y same
  cases same with
  | array items =>
    have pointwise := Json.reorderedItems_iff.mp items
    rw [each, each, pointwise.length_eq]
    apply settle_indexed_alike complete
    exact List.rel_map (fun a b => alike a b) pointwise
  | scalar scalar =>
    cases x with
    | array | object => cases scalar
    | _ => exact alike_error _
  | object distinct members order => exact mismatch_alike _ (.object distinct members order)

theorem tuple_alike {first second : List Check}
    (alike : List.Forall₂ (Alike collecting) first second) {failFast : Bool}
    (complete : collecting → failFast = false) :
    Alike collecting (tuple first failFast) (tuple second failFast) := by
  intro x y same
  cases same with
  | array items =>
    have pointwise := Json.reorderedItems_iff.mp items
    rw [tuple, tuple, pointwise.length_eq, alike.length_eq]
    split
    · exact settle_indexed_alike complete _ _ (zipWith_forall₂ alike pointwise)
    · exact alike_error _
  | scalar scalar =>
    cases x with
    | array | object => cases scalar
    | _ => exact alike_error _
  | object distinct members order => exact mismatch_alike _ (.object distinct members order)

theorem undeclared_shuffled {names names' : List String}
    (same : ∀ name, name ∈ names ↔ name ∈ names') {xs ys : Members Json}
    (members : Shuffled Json.SameMember xs ys) :
    Shuffled Json.SameMember (undeclared names xs) (undeclared names' ys) := by
  rw [undeclared, undeclared, ← List.filterMap_eq_filter, ← List.filterMap_eq_filter]
  apply members.filterMap
  rintro ⟨name, x⟩ ⟨-, y⟩ ⟨rfl, value⟩
  by_cases declared : name ∈ names
  · have declared' := (same name).mp declared
    simp [Option.guard, declared, declared']
  · have declared' : name ∉ names' := fun here => declared ((same name).mpr here)
    simpa [Option.guard, declared, declared'] using ⟨rfl, value⟩

theorem extra_alike (extra : ExtraKeys) {a b : String × Json} (same : Json.SameMember a b) :
    Outcome.Alike collecting (Option.Rel Json.SameMember) (extra.entry a) (extra.entry b) := by
  obtain ⟨name, x⟩ := a
  obtain ⟨name', y⟩ := b
  obtain ⟨rfl, value⟩ := same
  cases extra with
  | reject => exact alike_error _
  | ignore => exact .ok .none
  | keep => exact .ok (.some ⟨rfl, value⟩)

theorem nodup_entries {fields : List (Field Check)} {extra : ExtraKeys} {failFast : Bool}
    {gather : List Failure → Failure} {members : Members Json}
    {entries : List (Option (String × Json))} (distinct : (fields.map (·.name)).Nodup)
    (distinct' : members.names.Nodup)
    (settled : settle failFast gather (fields.map (·.entry members) ++
      (undeclared (fields.map (·.name)) members).map extra.entry) = .ok entries) :
    (Members.names (entries.filterMap id)).Nodup := by
  obtain ⟨taken, kept, rfl, declared, others⟩ :=
    List.append_eq_map_iff.mp (settle_eq_ok_iff.mp settled)
  have named := names_taken declared.symm
  have inside : (Members.names (kept.filterMap id)).Sublist
      (Members.names (undeclared (fields.map (·.name)) members)) := by
    rw [kept_eq others.symm]
    split
    · exact .refl _
    · exact List.nil_sublist _
  have single : (Members.names (undeclared (fields.map (·.name)) members)).Nodup :=
    (List.filter_sublist.map _).nodup distinct'
  rw [List.filterMap_append, Members.names_append]
  refine List.nodup_append.mpr ⟨named.nodup distinct, inside.nodup single, ?_⟩
  rintro name declared other left rfl
  exact not_mem_of_kept others.symm left (named.subset declared)

theorem entries_reordered {xs ys : List (Option (String × Json))}
    (distinct : (Members.names (xs.filterMap id)).Nodup)
    (entries : Shuffled (Option.Rel Json.SameMember) xs ys) :
    (Json.object (Members.gather (xs.filterMap id))).Reordered
      (.object (Members.gather (ys.filterMap id))) := by
  have members : Shuffled Json.SameMember (xs.filterMap id) (ys.filterMap id) :=
    entries.filterMap fun _ _ same => same
  have distinct' : (Members.names (ys.filterMap id)).Nodup := by
    obtain ⟨middle, pointwise, order⟩ := members
    rw [Json.names_eq_of_forall₂ pointwise] at distinct
    exact (order.map _).nodup_iff.mp distinct
  rw [Members.gather_of_nodup distinct, Members.gather_of_nodup distinct']
  exact Json.reordered_object_iff.mpr ⟨distinct, _, rfl, members⟩

theorem record_alike {first second : List (Field Check)} (distinct : (first.map (·.name)).Nodup)
    (alike : Shuffled (Field.Alike collecting) first second) (extra : ExtraKeys) {failFast : Bool}
    (complete : collecting → failFast = false) :
    Alike collecting (record first extra failFast) (record second extra failFast) := by
  have names : Shuffled Eq (first.map (·.name)) (second.map (·.name)) :=
    alike.map fun _ _ same => same.name
  have declares (name : String) : name ∈ first.map (·.name) ↔ name ∈ second.map (·.name) := by
    obtain ⟨middle, same, order⟩ := names
    rw [List.forall₂_eq_eq_eq] at same
    rw [same, order.mem_iff]
  intro x y same
  cases x with
  | object xs =>
    obtain ⟨single, ys, rfl, members⟩ := Json.reordered_object_iff.mp same
    have declared := alike.map fun f g field =>
      Field.entry_rel field Failure.Alike.under (fun _ _ => .refl _)
        (Json.lookup_reordered single members)
    have others := (undeclared_shuffled declares members).map fun a b =>
      @extra_alike collecting extra a b
    have outcomes := declared.append others
    rw [record, record]
    refine (settle_alike complete _ _ outcomes (values_shuffled outcomes)).map ?_
    intro entries entries' settled shuffled
    exact entries_reordered (nodup_entries distinct single settled) shuffled
  | array =>
    cases same with
    | array items => exact mismatch_alike _ (.array items)
    | scalar scalar => cases scalar
  | _ =>
    cases same
    exact alike_error _

theorem combine_alike (mode : Combine) {first second : List Check}
    (alike : List.Forall₂ (Alike collecting) first second) :
    Alike collecting (combine mode first) (combine mode second) := by
  cases mode with
  | anyOf =>
    refine anyOf_rel alike fun es fs failed collects => ?_
    rw [noneAccepted, noneAccepted, failed.length_eq]
    exact reordered_of_shuffled collects (.of_forall₂ failed)
  | allOf => exact allOf_rel alike

end Check

namespace Validator

variable {ι κ : Type}

mutual

-- Whether no container in the tree stops at the first failure.
def Collects : Validator ι → Prop
  | leaf _ _ => True
  | record _ fields _ failFast => failFast = false ∧ CollectsFields fields
  | each _ inner failFast => failFast = false ∧ Collects inner
  | tuple _ items failFast => failFast = false ∧ CollectsAll items
  | combinator _ _ children => CollectsAll children

def CollectsAll : List (Validator ι) → Prop
  | [] => True
  | v :: rest => Collects v ∧ CollectsAll rest

def CollectsFields : List (Field (Validator ι)) → Prop
  | [] => True
  | ⟨_, _, some v⟩ :: rest => Collects v ∧ CollectsFields rest
  | ⟨_, _, none⟩ :: rest => CollectsFields rest

end

mutual

/--
The same tree of primitives, literals and containers with the fields of its records in another
order. No name is declared twice in a record.
-/
inductive Reordered : Validator ι → Validator κ → Prop
  | primitive {tag : ι} {tag' : κ} {p : Primitive} :
      Reordered (.leaf tag (.primitive p)) (.leaf tag' (.primitive p))
  | exact {tag : ι} {tag' : κ} {expected : Json} (distinct : expected.Distinct) :
      Reordered (.leaf tag (.exact expected)) (.leaf tag' (.exact expected))
  | record {tag : ι} {tag' : κ} {as : List (Field (Validator ι))}
      {bs cs : List (Field (Validator κ))} {extra : ExtraKeys} {failFast : Bool}
      (distinct : (as.map (·.name)).Nodup) (fields : ReorderedFields as bs)
      (order : bs.Perm cs) :
      Reordered (.record tag as extra failFast) (.record tag' cs extra failFast)
  | each {tag : ι} {tag' : κ} {v : Validator ι} {w : Validator κ} {failFast : Bool}
      (inner : Reordered v w) : Reordered (.each tag v failFast) (.each tag' w failFast)
  | tuple {tag : ι} {tag' : κ} {vs : List (Validator ι)} {ws : List (Validator κ)}
      {failFast : Bool} (items : ReorderedAll vs ws) :
      Reordered (.tuple tag vs failFast) (.tuple tag' ws failFast)
  | combinator {tag : ι} {tag' : κ} {mode : Combine} {vs : List (Validator ι)}
      {ws : List (Validator κ)} (children : ReorderedAll vs ws) :
      Reordered (.combinator tag mode vs) (.combinator tag' mode ws)

inductive ReorderedAll : List (Validator ι) → List (Validator κ) → Prop
  | nil : ReorderedAll [] []
  | cons {v : Validator ι} {w : Validator κ} {vs : List (Validator ι)} {ws : List (Validator κ)}
      (first : Reordered v w) (rest : ReorderedAll vs ws) : ReorderedAll (v :: vs) (w :: ws)

inductive ReorderedFields : List (Field (Validator ι)) → List (Field (Validator κ)) → Prop
  | nil : ReorderedFields [] []
  | checked {name : String} {absence : Absence} {v : Validator ι} {w : Validator κ}
      {as : List (Field (Validator ι))} {bs : List (Field (Validator κ))}
      (distinct : ∀ value, absence = .default value → value.Distinct) (inner : Reordered v w)
      (rest : ReorderedFields as bs) :
      ReorderedFields (⟨name, absence, some v⟩ :: as) (⟨name, absence, some w⟩ :: bs)
  | unchecked {name : String} {absence : Absence} {as : List (Field (Validator ι))}
      {bs : List (Field (Validator κ))}
      (distinct : ∀ value, absence = .default value → value.Distinct)
      (rest : ReorderedFields as bs) :
      ReorderedFields (⟨name, absence, none⟩ :: as) (⟨name, absence, none⟩ :: bs)

end

variable {collecting : Prop}

theorem default_reordered {α : Type} {field : Field α}
    (distinct : ∀ value, field.absence = .default value → value.Distinct) :
    ∀ value ∈ field.default?, value.Reordered value := by
  intro value given
  refine (distinct value ?_).reordered
  rw [Field.default?] at given
  cases absence : field.absence <;> simp [absence] at given ⊢
  exact given

mutual

theorem Reordered.alike {v : Validator ι} {w : Validator κ} : v.Reordered w →
    (collecting → v.Collects) → Check.Alike collecting v.check w.check
  | .primitive, _ => Check.primitive_alike _
  | .exact distinct, _ => Check.exact_alike distinct
  | .record distinct fields order, collects => by
    have inside := fields.alike fun here => (collects here).2
    rw [check, check]
    refine Check.record_alike ?_ ⟨_, inside, ?_⟩ _ fun here => (collects here).1
    · rwa [names_fieldChecks]
    · rw [fieldChecks_eq_map, fieldChecks_eq_map]
      exact order.map _
  | .each inner, collects =>
    Check.each_alike (inner.alike fun here => (collects here).2) fun here => (collects here).1
  | .tuple items, collects =>
    Check.tuple_alike (items.alike fun here => (collects here).2) fun here => (collects here).1
  | .combinator children, collects => Check.combine_alike _ (children.alike collects)

theorem ReorderedAll.alike {vs : List (Validator ι)} {ws : List (Validator κ)} :
    ReorderedAll vs ws → (collecting → CollectsAll vs) →
      List.Forall₂ (Check.Alike collecting) (checks vs) (checks ws)
  | .nil, _ => .nil
  | .cons first rest, collects =>
    .cons (first.alike fun here => (collects here).1) (rest.alike fun here => (collects here).2)

theorem ReorderedFields.alike {as : List (Field (Validator ι))}
    {bs : List (Field (Validator κ))} : ReorderedFields as bs → (collecting → CollectsFields as) →
      List.Forall₂ (Field.Alike collecting) (fieldChecks as) (fieldChecks bs)
  | .nil, _ => .nil
  | .checked distinct inner rest, collects =>
    .cons ⟨rfl, rfl, default_reordered distinct, .some (inner.alike fun here => (collects here).1)⟩
      (rest.alike fun here => (collects here).2)
  | .unchecked distinct rest, collects =>
    .cons ⟨rfl, rfl, default_reordered distinct, .none⟩ (rest.alike collects)

end

theorem check_reordered {v : Validator ι} {w : Validator κ} {x y : Json}
    (validators : v.Reordered w) (values : x.Reordered y) :
    ((∃ out, v.check x = .ok out) ↔ ∃ out, w.check y = .ok out) ∧
      (∀ out out', v.check x = .ok out → w.check y = .ok out' → out.Reordered out') ∧
      (v.Collects → ∀ e f, v.check x = .error e → w.check y = .error f →
        e.count = f.count ∧
          (e.flatten.map Failure.summary).Perm (f.flatten.map Failure.summary)) := by
  have checks : Check.Alike v.Collects v.check w.check := validators.alike id
  have alike := checks x y values
  generalize v.check x = one at alike ⊢
  generalize w.check y = other at alike ⊢
  cases alike with
  | ok out =>
    refine ⟨by simp, ?_, by simp⟩
    rintro _ _ ⟨⟩ ⟨⟩
    exact out
  | error failure =>
    refine ⟨by simp, by simp, ?_⟩
    rintro collects _ _ ⟨⟩ ⟨⟩
    exact ⟨(failure collects).count_eq, (failure collects).perm_flatten⟩

-- A record in a record, and a value at fault in both of them.
def parcel : Validator Unit :=
  .record () [⟨"to", .required, some (.leaf () (.primitive .string))⟩,
    ⟨"size", .required, some (.record ()
      [⟨"width", .required, some (.leaf () (.primitive .integer))⟩,
        ⟨"unit", .default (.string "mm"), some (.leaf () (.exact (.string "mm")))⟩]
      .reject false)⟩] .keep false

def parcelReordered : Validator Unit :=
  .record () [⟨"size", .required, some (.record ()
      [⟨"unit", .default (.string "mm"), some (.leaf () (.exact (.string "mm")))⟩,
        ⟨"width", .required, some (.leaf () (.primitive .integer))⟩]
      .reject false)⟩,
    ⟨"to", .required, some (.leaf () (.primitive .string))⟩] .keep false

def parcelInput : Json :=
  .object [("size", .object [("width", .string "wide"), ("depth", .null)]), ("to", .bool true)]

def parcelInputReordered : Json :=
  .object [("to", .bool true), ("size", .object [("depth", .null), ("width", .string "wide")])]

theorem parcel_reordered : parcel.Reordered parcelReordered := by
  have required (value : Json) : Absence.required = .default value → value.Distinct := nofun
  have unit (value : Json) : Absence.default (.string "mm") = .default value → value.Distinct := by
    rintro ⟨⟩
    trivial
  refine .record (by decide) (.checked required .primitive (.checked required ?_ .nil)) (.swap ..)
  exact .record (by decide) (.checked required .primitive (.checked unit (.exact trivial) .nil))
    (.swap ..)

theorem parcelInput_reordered : parcelInput.Reordered parcelInputReordered := by
  refine .object (by decide) (.cons ?_ (.cons (.scalar rfl) .nil)) (.swap ..)
  exact .object (by decide) (.cons (.scalar rfl) (.cons (.scalar rfl) .nil)) (.swap ..)

theorem check_parcel :
    ∃ e f, parcel.check parcelInput = .error e ∧
      parcelReordered.check parcelInputReordered = .error f ∧ e.count = 5 ∧ f.count = 5 ∧
      (e.flatten.map Failure.summary).Perm (f.flatten.map Failure.summary) := by
  obtain ⟨e, failed, count⟩ : ∃ e, parcel.check parcelInput = .error e ∧ e.count = 5 := by
    with_unfolding_all exact ⟨_, rfl, rfl⟩
  obtain ⟨-, -, alike⟩ := check_reordered parcel_reordered parcelInput_reordered
  obtain ⟨f, failed'⟩ : ∃ f, parcelReordered.check parcelInputReordered = .error f := by
    with_unfolding_all exact ⟨_, rfl⟩
  obtain ⟨same, order⟩ := alike (by simp [parcel, Collects, CollectsFields]) e f failed failed'
  exact ⟨e, f, failed, failed', count, same ▸ count, order⟩

end Validator

end Conform
