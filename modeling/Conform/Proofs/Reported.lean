import Conform.Proofs.Gathering
import Conform.Proofs.Misfits
import Conform.Proofs.NormalForm
import Conform.Proofs.Places
import Conform.Proofs.Reordered

set_option autoImplicit false

/-!
A compiled check that does not stop at the first failure reports each misfit of a value once, and
the messages of all of them are kept.
-/

namespace Conform

namespace Compiler

-- A fragment without combinators and validators of its own. Its markers blame a value with one
-- failure, and in its defaults no object has two members of one name.
def Itemized (c : Compiler) : Spec → Prop
  | .validator _ | .combinator _ _ => False
  | .marker name => ∀ entry, c.registry.find? name = some entry →
    ∀ value e, entry.check value = .error e → e.path = [] ∧ e.nested = []
  | .record entries _ => ∀ key ∈ entries.map (·.1), ∀ field, key.resolve = .ok field →
    ∀ value ∈ field.default?, value.Distinct
  | .literal _ | .sequence _ | .slot _ => True

variable {c : Compiler}

-- Whether a check reports what is wrong with a value and nothing else.
def Reports (c : Compiler) (spec : Spec) (check : Check) : Prop :=
  ∀ value : Json, value.Distinct →
    Failure.Lists (c.Misfit spec value) (Outcome.leaves (check value))

theorem reports_leaf {spec : Spec} {entry : Entry} (planned : c.plan spec = .leaf entry)
    (itemized : c.Itemized spec) : c.Reports spec entry.check := by
  intro value _
  rcases plan_leaf_cases planned with
    ⟨v, rfl, -⟩ | ⟨marker, rfl, found⟩ | ⟨expected, rfl, -, rfl⟩
  · cases itemized
  · refine (Failure.lists_check (itemized entry found value)).congr fun p flaw => ?_
    constructor
    · intro misfit
      cases misfit with
      | marker known refused =>
        cases found.symm.trans known
        exact ⟨rfl, refused⟩
    · rintro ⟨rfl, refused⟩
      exact .marker found refused
  · refine (Failure.lists_check fun e refused => Check.exact_flat refused).congr fun p flaw => ?_
    constructor
    · intro misfit
      cases misfit with
      | literal refused => exact ⟨rfl, refused⟩
    · rintro ⟨rfl, refused⟩
      exact .literal refused

theorem lists_notArray {specs : List Spec} {value : Json} (other : ∀ items, value ≠ .array items) :
    Failure.Lists (c.Misfit (.sequence specs) value) [.typeMismatch "array" value] :=
  (Failure.lists_single ⟨rfl, rfl⟩).congr fun _ _ => misfit_notArray_iff other

theorem reports_each {spec : Spec} {check : Check} (reports : c.Reports spec check) :
    c.Reports (.sequence [spec]) (Check.each check false) := by
  intro value distinct
  cases value with
  | array items =>
    rw [Json.Distinct, Json.distinctItems_iff] at distinct
    rw [Check.leaves_each]
    apply Failure.lists_indexed
    · intro i outcome checked
      rw [List.getElem?_map] at checked
      obtain ⟨item, found, rfl⟩ := Option.map_eq_some_iff.mp checked
      have listed := reports item (distinct item (List.mem_of_getElem? found))
      exact listed.congr fun p flaw => misfit_element_iff found
    · intro p flaw misfit
      obtain ⟨i, item, rest, found, rfl, -⟩ := misfit_list_iff.mp misfit
      rw [List.length_map]
      exact ⟨i, (List.getElem?_eq_some_iff.mp found).1, rest, rfl⟩
  | _ => exact lists_notArray fun items same => by cases same

theorem reports_tuple {specs : List Spec} {checks : List Check} (tuple : specs.length ≠ 1)
    (reports : List.Forall₂ c.Reports specs checks) :
    c.Reports (.sequence specs) (Check.tuple checks false) := by
  intro value distinct
  have length := reports.length_eq
  cases value with
  | array items =>
    rw [Json.Distinct, Json.distinctItems_iff] at distinct
    by_cases fits : items.length = specs.length
    · rw [Check.leaves_tuple (fits.trans length)]
      apply Failure.lists_indexed
      · intro i outcome checked
        obtain ⟨check, item, given, found, rfl⟩ := List.getElem?_zipWith_eq_some.mp checked
        obtain ⟨bound, rfl⟩ := List.getElem?_eq_some_iff.mp given
        have bound' : i < specs.length := length ▸ bound
        have here : c.Reports specs[i] checks[i] := reports.get bound' bound
        have declared : specs[i]? = some specs[i] := List.getElem?_eq_getElem bound'
        have listed := here item (distinct item (List.mem_of_getElem? found))
        exact listed.congr fun p flaw => misfit_position_iff tuple fits declared found
      · intro p flaw misfit
        obtain ⟨i, spec, item, rest, declared, found, rfl, -⟩ :=
          (misfit_tuple_iff tuple fits).mp misfit
        have bound := (List.getElem?_eq_some_iff.mp found).1
        refine ⟨i, ?_, rest, rfl⟩
        rw [List.length_zipWith]
        omega
    · have apart : items.length ≠ checks.length := fun same => fits (same.trans length.symm)
      rw [Check.tuple, if_neg apart, ← length]
      exact (Failure.lists_single ⟨rfl, rfl⟩).congr fun p flaw => misfit_arity_iff tuple fits
  | _ => exact lists_notArray fun items same => by cases same

theorem mem_attach {entries : List (KeySpec × Spec)} {fields : List (Field (Validator Handle))}
    {checks : List Check} {r : Spec → Check → Prop}
    (resolved : (entries.map (·.1)).map KeySpec.resolve = fields.map .ok)
    (related : List.Forall₂ r (entries.map (·.2)) checks) {field : Field Check}
    (member : field ∈ List.zipWith Field.attach fields checks) :
    ∃ key spec own check, (key, spec) ∈ entries ∧ key.resolve = .ok own ∧ r spec check ∧
      field = own.attach check := by
  induction entries generalizing fields checks with
  | nil =>
    cases related
    simp at member
  | cons entry rest ih =>
    obtain ⟨key, spec⟩ := entry
    cases fields with
    | nil => simp at resolved
    | cons own fields =>
      cases related with
      | cons first others =>
        simp only [List.map_cons, List.cons.injEq] at resolved
        rcases List.mem_cons.mp member with rfl | member
        · exact ⟨key, spec, own, _, List.mem_cons_self, resolved.1, first, rfl⟩
        · obtain ⟨key, spec, own, check, declared, found⟩ := ih resolved.2 others member
          exact ⟨key, spec, own, check, List.mem_cons_of_mem _ declared, found⟩

theorem lists_field {spec : Spec} {check : Check} (reports : c.Reports spec check)
    {field : Field (Validator Handle)} (supplied : ∀ value ∈ field.default?, value.Distinct)
    {members : Members Json} (distinct : Json.DistinctMembers members) :
    Failure.Lists (c.FieldMisfit field spec members) ((field.attach check).findings members) := by
  have given : (field.attach check).given members =
      (members.lookup field.name).or field.default? := rfl
  rw [Field.findings, given]
  cases found : (members.lookup field.name).or field.default? with
  | some value =>
    have whole : value.Distinct := by
      rcases Option.or_eq_some_iff.mp found with present | ⟨-, default⟩
      · exact distinct.lookup present
      · exact supplied value default
    refine (reports value whole).congr fun p flaw => ?_
    rw [FieldMisfit, found]
  | none =>
    have required : (field.attach check).isRequired = field.isRequired := rfl
    simp only [required]
    split
    next required =>
      refine (Failure.lists_single (e := .required) ⟨rfl, rfl⟩).congr fun p flaw => ?_
      rw [FieldMisfit, found]
      simp [required]
    next optional =>
      refine Failure.lists_nil.congr fun p flaw => ?_
      rw [FieldMisfit, found]
      simp [optional]

theorem lists_undeclared (extra : ExtraKeys) :
    Failure.Lists (fun p flaw => p = [] ∧ extra = .reject ∧ flaw = .extraKey) extra.findings := by
  rw [ExtraKeys.findings]
  split
  next rejects => exact (Failure.lists_single ⟨rfl, rfl⟩).congr (by simp [rejects])
  next accepts => exact Failure.lists_nil.congr (by simp [accepts])

section

variable {entries : List (KeySpec × Spec)} {extra : Option ExtraKeys} {members : Members Json}
  {fields : List (Field (Validator Handle))} {checks : List Check}

-- Declared fields have names of their own, and the members that are left over have others.
theorem nodup_names_undeclared (declares : Declares [] (entries.map (·.1)) fields)
    (distinct : members.names.Nodup) :
    (fields.map (·.name) ++ (undeclared (fields.map (·.name)) members).names).Nodup := by
  refine List.nodup_append.mpr ⟨declares.nodup, distinct.sublist (List.filter_sublist.map _), ?_⟩
  rintro name declared other left rfl
  exact Check.mem_names_undeclared left declared

theorem name_of_misfit (declares : Declares [] (entries.map (·.1)) fields) {p : Path}
    {flaw : Failure} (misfit : c.Misfit (.record entries extra) (.object members) p flaw) :
    ∃ name rest, p = .key name :: rest ∧
      (name ∈ fields.map (·.name) ∨ name ∈ (undeclared (fields.map (·.name)) members).names) := by
  rcases misfit_record_iff.mp misfit with
    ⟨key, spec, field, rest, declared, resolved, rfl, -⟩ | ⟨name, present, undeclared, rfl, -⟩
  · refine ⟨field.name, rest, rfl, .inl (declares.mem_names_iff.mpr ?_)⟩
    exact ⟨key, List.mem_map_of_mem declared, field, resolved, rfl⟩
  · obtain ⟨member, inside, rfl⟩ := List.mem_map.mp present
    have unknown : member.1 ∉ fields.map (·.name) := by
      rw [declares.mem_names_iff]
      rintro ⟨key, declared, named⟩
      exact undeclared key declared named
    have left : member ∈ Conform.undeclared (fields.map (·.name)) members :=
      List.mem_filter.mpr ⟨inside, decide_eq_true unknown⟩
    exact ⟨member.1, [], rfl, .inr (Members.mem_names_of_mem left)⟩

theorem reports_record (declares : Declares [] (entries.map (·.1)) fields)
    (itemized : c.Itemized (.record entries extra))
    (reports : List.Forall₂ c.Reports (entries.map (·.2)) checks) :
    c.Reports (.record entries extra)
      (Check.record (List.zipWith Field.attach fields checks)
        (extra.getD c.options.extraKeys) false) := by
  intro value distinct
  have sizes : fields.length = checks.length := by
    rw [← reports.length_eq, List.length_map, length_of_declares declares]
  have names := names_attach_of_length sizes
  cases value with
  | object members =>
    rw [Json.Distinct] at distinct
    rw [Check.leaves_record, names]
    apply Failure.lists_placed
    · have steps := (nodup_names_undeclared declares distinct.1).map fun _ _ => Segment.key.inj
      rw [List.map_append, ← names, Members.names, List.map_map, List.map_map, names] at steps
      rw [List.map_append, List.map_map, List.map_map]
      exact steps
    · -- a group belongs to a declared field or to a member that is left over
      intro group member
      rcases List.mem_append.mp member with declared | undeclared
      · obtain ⟨field, inside, rfl⟩ := List.mem_map.mp declared
        obtain ⟨key, spec, own, check, entry, resolved, related, rfl⟩ :=
          mem_attach declares.resolved reports inside
        have supplied := itemized key (List.mem_map_of_mem entry) own resolved
        exact (lists_field related supplied distinct.2).congr fun p flaw =>
          misfit_declared_iff declares entry resolved
      · obtain ⟨member, left, rfl⟩ := List.mem_map.mp undeclared
        have present := Members.mem_names_of_mem (List.mem_of_mem_filter left)
        have unknown := Check.mem_names_undeclared (Members.mem_names_of_mem left)
        exact (lists_undeclared _).congr fun p flaw =>
          misfit_undeclared_iff declares present unknown
    · intro p flaw misfit
      obtain ⟨name, rest, rfl, declared | left⟩ := name_of_misfit declares misfit
      · rw [← names] at declared
        obtain ⟨field, inside, rfl⟩ := List.mem_map.mp declared
        exact ⟨_, List.mem_append_left _ (List.mem_map_of_mem inside), rest, rfl⟩
      · obtain ⟨member, inside, rfl⟩ := List.mem_map.mp left
        exact ⟨_, List.mem_append_right _ (List.mem_map_of_mem inside), rest, rfl⟩
  | _ =>
    refine (Failure.lists_single ⟨rfl, rfl⟩).congr fun p flaw => misfit_notObject_iff ?_
    exact fun members same => by cases same

end

theorem reports_container {spec : Spec} {frame : Frame} {shapes : List (Validator Unit)}
    (planned : c.plan spec = .container frame) (itemized : c.Itemized spec)
    (reports : List.Forall₂ c.Reports spec.children (shapes.map Validator.check)) :
    c.Reports spec (frame.join false () shapes).check := by
  rcases plan_container_cases planned with
    ⟨items, rfl, rfl⟩ | ⟨mode, children, rfl, -⟩ | ⟨entries, extra, fields, rfl, declares, rfl⟩
  · have tuple (many : items.length ≠ 1) :
        c.Reports (.sequence items) (Check.tuple (shapes.map Validator.check) false) :=
      reports_tuple many reports
    have length : items.length = shapes.length := by
      simpa [Spec.children] using reports.length_eq
    cases shapes with
    | nil => exact tuple (by simp [length])
    | cons shape rest =>
      cases rest with
      | nil =>
        obtain ⟨item, rfl⟩ := List.length_eq_one_iff.mp length
        cases reports with
        | cons first _ => exact reports_each first
      | cons other rest =>
        rw [Frame.join, Validator.check, Validator.checks_eq_map]
        · exact tuple (by simp [length])
        · simp
  · cases itemized
  · rw [Frame.join, Validator.check, fieldChecks_attach]
    exact reports_record declares itemized reports

mutual

theorem Denotes.reports (slow : c.options.failFast = false) {spec : Spec}
    {shape : Validator Unit} : c.Denotes spec shape →
    (∀ fragment, Reaches c.slots spec fragment → c.Itemized fragment) →
      c.Reports spec shape.check
  | .leaf planned, itemized => by
    rw [Entry.shape_check]
    exact reports_leaf planned (itemized _ .refl)
  | .container planned parts, itemized => by
    have inside := parts.reports slow fun child member fragment reaches =>
      itemized fragment (.head (.child member) reaches)
    rw [slow]
    exact reports_container planned (itemized _ .refl) inside
  | .slot defined inner, itemized => by
    have reports := inner.reports slow fun fragment reaches =>
      itemized fragment (.head (.definition defined) reaches)
    exact fun value distinct => (reports value distinct).congr fun p flaw =>
      misfit_slot_iff defined

theorem DenotesAll.reports (slow : c.options.failFast = false) {specs : List Spec}
    {shapes : List (Validator Unit)} : c.DenotesAll specs shapes →
    (∀ spec ∈ specs, ∀ fragment, Reaches c.slots spec fragment → c.Itemized fragment) →
      List.Forall₂ c.Reports specs (shapes.map Validator.check)
  | .nil, _ => .nil
  | .cons first others, itemized => by
    have head := first.reports slow (itemized _ List.mem_cons_self)
    have tail := others.reports slow fun spec member =>
      itemized spec (List.mem_cons_of_mem _ member)
    exact .cons head tail

end

-- Objects are read and kept as maps, so a value and the defaults have no two members of one name.
theorem leaves_of_compile {spec : Spec} {next after : Handle} {v : Validator Handle}
    (itemized : ∀ fragment, Reaches c.slots spec fragment → c.Itemized fragment)
    (slow : c.options.failFast = false) (compiled : c.compile spec next = .ok (v, after))
    {value : Json} (distinct : value.Distinct) {e : Failure} (refused : v.check value = .error e) :
    (e.leaves.map (·.path)).Nodup ∧
      (∀ leaf, leaf ∈ e.leaves ↔
        ∃ p flaw, c.Misfit spec value p flaw ∧ leaf = { flaw with path := p }) ∧
      e.fieldMessages.length = e.leaves.length ∧
      ∀ leaf ∈ e.leaves, e.fieldMessages.lookup leaf.place = some leaf.message := by
  have lists := (denotes_of_compile compiled).reports slow itemized value distinct
  rw [v.check_shape, refused, Outcome.leaves_error] at lists
  have places := Failure.RootAlone.nodup_places lists.alone lists.distinct
  exact ⟨lists.distinct, lists.mem_iff, Failure.length_fieldMessages places, fun leaf member =>
    Failure.lookup_place_of_nodup places member⟩

-- A member that is missing, a default that does not fit, an array that is too short and two
-- members that are not declared, one under the name that stands for the value itself.
def intake : Compiler where
  registry := (Registry.builtin.run 0).1
  options := {}
  slots := ⟨[some (.listOf (.marker "int"))]⟩

def intakeSpec : Spec :=
  .record [(.required "id", .marker "int"),
    (.default "sizes" (.array [.string "7", .string "x"]), .slot 0),
    (.optional "at", .sequence [.marker "float", .marker "float"])] (some .reject)

def intakeRefused : Json :=
  .object [("at", .array [.null]), ("a.b", .null), ("$", .object [])]

theorem itemized_intake (fragment : Spec) (reaches : Reaches intake.slots intakeSpec fragment) :
    intake.Itemized fragment := by
  have listed : fragment = intakeSpec ∨ fragment = .slot 0 ∨
      fragment = .sequence [.marker "float", .marker "float"] ∨
      fragment = .listOf (.marker "int") ∨ fragment = .marker "int" ∨
      fragment = .marker "float" := by
    induction reaches with
    | refl => exact .inl rfl
    | tail _ mentions ih =>
      rcases ih with rfl | rfl | rfl | rfl | rfl | rfl
      · rw [mentions_iff_child (by simp [intakeSpec])] at mentions
        simp only [intakeSpec, Spec.children, List.map_cons, List.map_nil, List.mem_cons,
          List.not_mem_nil, or_false] at mentions
        tauto
      · rw [mentions_slot] at mentions
        obtain rfl := Option.some.inj mentions
        tauto
      · rw [mentions_iff_child (by simp)] at mentions
        simp only [Spec.children, List.mem_cons, List.not_mem_nil, or_false, or_self] at mentions
        tauto
      · rw [mentions_iff_child (by simp [Spec.listOf])] at mentions
        obtain rfl := List.mem_singleton.mp mentions
        tauto
      · rw [mentions_iff_child (by simp)] at mentions
        cases mentions
      · rw [mentions_iff_child (by simp)] at mentions
        cases mentions
  have markers : intake.registry.Flat := (Registry.primitives_builtin 0).flat
  rcases listed with rfl | rfl | rfl | rfl | rfl | rfl
  · intro key declared field resolved value supplied
    simp only [List.map_cons, List.map_nil, List.mem_cons, List.not_mem_nil, or_false] at declared
    rcases declared with rfl | rfl | rfl <;> cases resolved <;> cases supplied
    simp [Json.Distinct, Json.DistinctItems]
  · trivial
  · trivial
  · trivial
  · exact fun entry found => markers _ entry found
  · exact fun entry found => markers _ entry found

theorem leaves_intake :
    ∃ v e, intake.compile intakeSpec 8 = .ok (v, 11) ∧ v.check intakeRefused = .error e ∧
      e.fieldMessages.map (·.1) = ["$", "[\"a.b\"]", "at", "id", "sizes[1]"] ∧
      e.fieldMessages.length = e.leaves.length ∧
      ∀ leaf, leaf ∈ e.leaves ↔ ∃ p flaw,
        intake.Misfit intakeSpec intakeRefused p flaw ∧ leaf = { flaw with path := p } := by
  obtain ⟨v, e, compiled, refused, places⟩ :
      ∃ v e, intake.compile intakeSpec 8 = .ok (v, 11) ∧ v.check intakeRefused = .error e ∧
        e.fieldMessages.map (·.1) = ["$", "[\"a.b\"]", "at", "id", "sizes[1]"] := by
    with_unfolding_all exact ⟨_, _, rfl, rfl, rfl⟩
  have distinct : intakeRefused.Distinct := by
    simp [intakeRefused, Json.Distinct, Json.DistinctItems, Json.DistinctMembers, Members.names]
  obtain ⟨-, listed, length, -⟩ := leaves_of_compile itemized_intake rfl compiled distinct refused
  exact ⟨v, e, compiled, refused, places, length, listed⟩

end Compiler

end Conform
