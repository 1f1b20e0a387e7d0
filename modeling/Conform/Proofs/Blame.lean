import Conform.Proofs.Run
import Conform.Proofs.Reach

set_option autoImplicit false

/-!
Where the trail of an error leads. It is walked from the root of the specification, through
the definitions of slots without a step, and what is found at its end has the fault that the
error tells.
-/

namespace Conform

/-- A walk along a trail to a fragment, with the slots whose definitions it goes through. -/
inductive Walk (slots : Slots) : Spec → Trail → List Slot → Spec → Prop
  | here {spec : Spec} : Walk slots spec [] [] spec
  | through {slot : Slot} {definition fragment : Spec} {trail : Trail} {passed : List Slot}
      (defined : slots.get? slot = some definition)
      (rest : Walk slots definition trail passed fragment) :
      Walk slots (.slot slot) trail (slot :: passed) fragment
  | into {spec part fragment : Spec} {step : Step} {trail : Trail} {passed : List Slot}
      (member : (step, part) ∈ spec.parts) (rest : Walk slots part trail passed fragment) :
      Walk slots spec (step :: trail) passed fragment

-- One of the fragments is got from the other by nothing but definitions of slots.
def SamePlace (slots : Slots) (a b : Spec) : Prop :=
  ∃ passed, Walk slots a [] passed b ∨ Walk slots b [] passed a

variable {slots : Slots}

theorem Walk.reaches {spec fragment : Spec} {trail : Trail} {passed : List Slot}
    (walk : Walk slots spec trail passed fragment) : Reaches slots spec fragment := by
  induction walk with
  | here => exact .refl
  | through defined _ ih => exact .head (.definition defined) ih
  | into member _ ih => exact .head (.child (Spec.mem_children_of_mem_parts member)) ih

theorem Walk.reaches_of_passed {spec fragment : Spec} {trail : Trail} {passed : List Slot}
    {slot : Slot} (walk : Walk slots spec trail passed fragment) (member : slot ∈ passed) :
    ∃ definition, slots.get? slot = some definition ∧ Reaches slots definition fragment := by
  induction walk with
  | here => cases member
  | through defined rest ih =>
    rcases List.mem_cons.mp member with rfl | member
    · exact ⟨_, defined, rest.reaches⟩
    · exact ih member
  | into _ _ ih => exact ih member

namespace Compiler

/--
What is wrong at the end of a walk that passed some slots. Only an unsound key has a rest of
the trail to itself, since no walk leads past it.
-/
inductive Exhibits (c : Compiler) (passed : List Slot) : Spec → Trail → Fault → Prop
  | unknownMarker {marker : String} (unknown : c.registry.find? marker = none) :
      Exhibits c passed (.marker marker) [] (.unknownMarker marker)
  | compositeLiteral {value : Json} (composite : value.isScalar = false) :
      Exhibits c passed (.literal value) [] (.compositeLiteral value)
  | tooFewChildren {mode : Combine} {children : List Spec} (few : children.length < 2) :
      Exhibits c passed (.combinator mode children) [] (.tooFewChildren mode children.length)
  | undefinedSlot {slot : Slot} (missing : c.slots.get? slot = none) :
      Exhibits c passed (.slot slot) [] .undefinedSlot
  | duplicateField {entries : List (KeySpec × Spec)} {extra : Option ExtraKeys} {name : String}
      {i j : Nat} {earlier later : KeySpec} (order : j < i)
      (foundEarlier : (entries.map (·.1))[j]? = some earlier) (namesEarlier : earlier.Names name)
      (foundLater : (entries.map (·.1))[i]? = some later) (namesLater : later.Names name) :
      Exhibits c passed (.record entries extra) [] (.duplicateField name)
  | cyclic {slot : Slot} (again : slot ∈ passed) : Exhibits c passed (.slot slot) [] .cyclic
  | tooDeep {fragment : Spec} : Exhibits c passed fragment [] (.tooDeep c.options.maxDepth)
  | key {entries : List (KeySpec × Spec)} {extra : Option ExtraKeys} {i : Nat} {key : KeySpec}
      {fault : Fault} {step : Step} (found : (entries.map (·.1))[i]? = some key)
      (refused : key.resolve = .error fault) (kind : fault.kind = .unrecognizedKey)
      (last : key.StepAt i step) : Exhibits c passed (.record entries extra) [step] fault

variable {c : Compiler}

theorem Exhibits.mono {passed more : List Slot} {fragment : Spec} {trail : Trail} {fault : Fault}
    (included : passed ⊆ more) (exhibits : c.Exhibits passed fragment trail fault) :
    c.Exhibits more fragment trail fault := by
  cases exhibits with
  | cyclic again => exact .cyclic (included again)
  | unknownMarker unknown => exact .unknownMarker unknown
  | compositeLiteral composite => exact .compositeLiteral composite
  | tooFewChildren few => exact .tooFewChildren few
  | undefinedSlot missing => exact .undefinedSlot missing
  | duplicateField order foundEarlier namesEarlier foundLater namesLater =>
    exact .duplicateField order foundEarlier namesEarlier foundLater namesLater
  | tooDeep => exact .tooDeep
  | key found refused kind last => exact .key found refused kind last

theorem exhibits_of_faulty {spec : Spec} {e : CompileError} (passed : List Slot)
    (planned : c.plan spec = .faulty e) : c.Exhibits passed spec e.trail e.fault := by
  rcases plan_faulty_cases planned with
    ⟨marker, rfl, unknown, rfl⟩ | ⟨value, rfl, composite, rfl⟩ | ⟨mode, children, rfl, few, rfl⟩ |
      ⟨entries, extra, rfl, keys⟩
  · exact .unknownMarker unknown
  · exact .compositeLiteral composite
  · exact .tooFewChildren few
  · cases keys with
    | unsound found refused =>
      rw [Nat.zero_add]
      exact .key found refused (KeySpec.kind_of_refused refused) (KeySpec.stepAt_step _ _)
    | repeated found names before =>
      obtain ⟨j, order, earlier, foundEarlier, namesEarlier⟩ :=
        before.resolve_left List.not_mem_nil
      exact .duplicateField order foundEarlier namesEarlier found names

-- The trail leads to a fragment that has the fault, and every walk along it ends at this place.
-- Only a step to an unsound key may be left over.
def Blames (c : Compiler) (entered : List Slot) (spec : Spec) (trail : Trail) (fault : Fault) :
    Prop :=
  ∃ home tail passed fragment, trail = home ++ tail ∧ Walk c.slots spec home passed fragment ∧
    (∀ passed' other, Walk c.slots spec home passed' other → SamePlace c.slots fragment other) ∧
    c.Exhibits (entered ++ passed) fragment tail fault

theorem blames_here {entered : List Slot} {spec : Spec} {tail : Trail} {fault : Fault}
    (exhibits : c.Exhibits entered spec tail fault) : c.Blames entered spec tail fault := by
  refine ⟨[], tail, [], spec, rfl, .here, fun passed' other walk => ⟨passed', .inl walk⟩, ?_⟩
  rw [List.append_nil]
  exact exhibits

theorem Blames.part {entered : List Slot} {spec part : Spec} {frame : Frame} {step : Step}
    {trail : Trail} {fault : Fault} (planned : c.plan spec = .container frame)
    (member : (step, part) ∈ spec.parts) (blames : c.Blames entered part trail fault) :
    c.Blames entered spec (step :: trail) fault := by
  obtain ⟨home, tail, passed, fragment, rfl, walk, only, exhibits⟩ := blames
  refine ⟨step :: home, tail, passed, fragment, rfl, .into member walk, ?_, exhibits⟩
  intro passed' other walk'
  cases walk' with
  | through => cases planned
  | into member' rest =>
    have nodup := (parts_container planned).2
    obtain rfl := (Prod.mk.inj (List.inj_on_of_nodup_map nodup member member' rfl)).2
    exact only passed' other rest

theorem Blames.slot {entered : List Slot} {slot : Slot} {definition : Spec} {trail : Trail}
    {fault : Fault} (defined : c.slots.get? slot = some definition)
    (blames : c.Blames (slot :: entered) definition trail fault) :
    c.Blames entered (.slot slot) trail fault := by
  obtain ⟨home, tail, passed, fragment, rfl, walk, only, exhibits⟩ := blames
  refine ⟨home, tail, slot :: passed, fragment, rfl, .through defined walk, ?_, ?_⟩
  · intro passed' other walk'
    cases walk' with
    | here => exact ⟨slot :: passed, .inr (.through defined walk)⟩
    | through defined' rest =>
      rw [defined, Option.some.injEq] at defined'
      exact only _ other (defined' ▸ rest)
    | into member => cases member
  · refine exhibits.mono fun other member => ?_
    simp only [List.cons_append, List.mem_cons, List.mem_append] at member ⊢
    exact or_left_comm.mp member

-- A defined slot that is no longer idle was opened on the way, so a cycle leads back to it.
theorem Fails.blames {idle : List Slot} {spec : Spec} {trail : Trail} {depth : Nat}
    {p : Progress} {e : CompileError} (fails : c.Fails idle spec trail depth p e) :
    ∀ entered, (∀ slot ∉ idle, (c.slots.get? slot).isSome → slot ∈ entered) →
      ∃ rest, e.trail = trail ++ rest ∧ c.Blames entered spec rest e.fault := by
  induction fails with
  | tooDeep deep =>
    intro entered _
    exact ⟨[], (List.append_nil _).symm, blames_here .tooDeep⟩
  | faulty fits planned =>
    intro entered _
    exact ⟨_, rfl, blames_here (exhibits_of_faulty entered planned)⟩
  | undefined fits unfinished missing =>
    intro entered _
    exact ⟨[], (List.append_nil _).symm, blames_here (.undefinedSlot missing)⟩
  | cyclic fits unfinished defined busy =>
    intro entered opened
    have again := opened _ busy (by rw [defined]; rfl)
    exact ⟨[], (List.append_nil _).symm, blames_here (.cyclic again)⟩
  | part fits planned split passed failed ih =>
    intro entered opened
    obtain ⟨rest, same, blames⟩ := ih entered opened
    refine ⟨_ :: rest, same.trans (List.append_assoc _ _ _), blames.part planned ?_⟩
    rw [split]
    exact List.mem_append_right _ List.mem_cons_self
  | @inside idle slot trail depth p definition e fits unfinished defined waits failed ih =>
    intro entered opened
    obtain ⟨rest, same, blames⟩ := ih (slot :: entered) (fun other busy known => by
      by_cases here : other = slot
      · rw [here]
        exact List.mem_cons_self
      · have outside : other ∉ idle := fun waits => busy ((List.mem_erase_of_ne here).mpr waits)
        exact List.mem_cons_of_mem _ (opened other outside known))
    exact ⟨rest, same, blames.slot defined⟩

theorem mem_allSlots_of_defined {slot : Slot} (known : (c.slots.get? slot).isSome) :
    slot ∈ c.allSlots := by
  rw [allSlots, List.mem_range]
  by_contra outside
  have missing : c.slots.definitions[slot]? = none :=
    List.getElem?_eq_none (Nat.le_of_not_lt outside)
  rw [Slots.get?, missing] at known
  cases known

theorem blames_of_fails {spec : Spec} {next : Handle} {e : CompileError}
    (fails : c.Fails c.allSlots spec [] 0 ⟨next, []⟩ e) : c.Blames [] spec e.trail e.fault := by
  obtain ⟨rest, same, blames⟩ := fails.blames [] fun slot missing known =>
    absurd (mem_allSlots_of_defined known) missing
  rw [same]
  exact blames

theorem blames_of_compile {spec : Spec} {next : Handle} {e : CompileError}
    (refused : c.compile spec next = .error e) : c.Blames [] spec e.trail e.fault :=
  blames_of_fails (fails_of_compile refused)

-- A list of records that hold such a list again.
def endless : Compiler where
  registry := .empty
  options := {}
  slots := ⟨[some (.listOf (.slot 1)), some (.record [(.required "more", .slot 0)] none)]⟩

def oddlyKeyed (key : Json) : Spec :=
  .listOf (.record [(.required "id", .marker "?"), (.raw key, .slot 0)] none)

-- The name of a key is read past a member that is not known. An empty array shows no name.
def tagged : Json := .object [("tags", .null), ("name", .string "tag")]

def untitled : Json := .array []

theorem blames_endless :
    (endless.compile (.slot 0) 0 = .error ⟨[.index 0, .field "more"], .cyclic⟩ ∧
      endless.Blames [] (.slot 0) [.index 0, .field "more"] .cyclic) ∧
    (endless.compile (oddlyKeyed tagged) 0 =
        .error ⟨[.index 0, .field "tag"], .unsupportedKey tagged⟩ ∧
      endless.Blames [] (oddlyKeyed tagged) [.index 0, .field "tag"] (.unsupportedKey tagged)) ∧
    (endless.compile (oddlyKeyed untitled) 0 =
        .error ⟨[.index 0, .index 1], .unsupportedKey untitled⟩ ∧
      endless.Blames [] (oddlyKeyed untitled) [.index 0, .index 1] (.unsupportedKey untitled)) := by
  have again : endless.compile (.slot 0) 0 = .error ⟨[.index 0, .field "more"], .cyclic⟩ := by
    with_unfolding_all rfl
  have named : endless.compile (oddlyKeyed tagged) 0 =
      .error ⟨[.index 0, .field "tag"], .unsupportedKey tagged⟩ := by
    with_unfolding_all rfl
  have nameless : endless.compile (oddlyKeyed untitled) 0 =
      .error ⟨[.index 0, .index 1], .unsupportedKey untitled⟩ := by
    with_unfolding_all rfl
  exact ⟨⟨again, blames_of_compile again⟩, ⟨named, blames_of_compile named⟩,
    ⟨nameless, blames_of_compile nameless⟩⟩

end Compiler

end Conform
