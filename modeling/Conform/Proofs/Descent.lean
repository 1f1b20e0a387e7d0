import Conform.Proofs.Blame
import Conform.Proofs.Denotation
import Mathlib.Algebra.GroupWithZero.Nat
import Mathlib.Algebra.Order.BigOperators.Group.List
import Mathlib.Algebra.Order.Group.Nat

set_option autoImplicit false

/-!
How deep the compiler goes. A call either goes one level down into a part, or opens a slot
that no call around it has open. So no chain of calls is endless, and none gets deeper than
the levels of the specification and of all the slots that it reaches.
-/

namespace Conform

open Relation

namespace Spec

mutual

-- The levels of containers in a fragment. A slot adds none.
def height : Spec → Nat
  | .record entries _ => 1 + heightOfEntries entries
  | .sequence items => 1 + heightOfAll items
  | .combinator _ children => 1 + heightOfAll children
  | .validator _ | .marker _ | .literal _ | .slot _ => 0

def heightOfAll : List Spec → Nat
  | [] => 0
  | spec :: rest => max (height spec) (heightOfAll rest)

def heightOfEntries : List (KeySpec × Spec) → Nat
  | [] => 0
  | (_, spec) :: rest => max (height spec) (heightOfEntries rest)

end

theorem heightOfEntries_eq (entries : List (KeySpec × Spec)) :
    heightOfEntries entries = heightOfAll (entries.map (·.2)) := by
  induction entries with
  | nil => rfl
  | cons entry rest ih => rw [heightOfEntries, ih, List.map_cons, heightOfAll]

theorem height_le_heightOfAll {spec : Spec} {specs : List Spec} (member : spec ∈ specs) :
    spec.height ≤ heightOfAll specs := by
  induction specs with
  | nil => cases member
  | cons head rest ih =>
    rw [heightOfAll]
    rcases List.mem_cons.mp member with rfl | member
    · exact Nat.le_max_left _ _
    · exact Nat.le_trans (ih member) (Nat.le_max_right _ _)

theorem height_child {spec child : Spec} (member : child ∈ spec.children) :
    child.height + 1 ≤ spec.height := by
  have below := height_le_heightOfAll member
  cases spec with
  | record entries extra =>
    rw [children, ← heightOfEntries_eq] at below
    rw [height]
    omega
  | sequence | combinator =>
    rw [children] at below
    rw [height]
    omega
  | validator | marker | literal | slot => cases member

end Spec

namespace Slots

def height (slots : Slots) (slot : Slot) : Nat :=
  match slots.get? slot with
  | some definition => definition.height
  | none => 0

-- The heights of those of some slots that a specification reaches, added up.
noncomputable def heightBelow (slots : Slots) (among : List Slot) (spec : Spec) : Nat :=
  let reached (slot : Slot) : Bool :=
    @decide (Reaches slots spec (.slot slot)) (Classical.propDecidable _)
  ((among.filter reached).map slots.height).sum

noncomputable def totalHeight (slots : Slots) (spec : Spec) : Nat :=
  spec.height + slots.heightBelow (List.range slots.size) spec

variable {slots : Slots} {idle : List Slot}

theorem heightBelow_mono {inner outer : Spec}
    (further : ∀ slot, Reaches slots inner (.slot slot) → Reaches slots outer (.slot slot)) :
    slots.heightBelow idle inner ≤ slots.heightBelow idle outer := by
  apply List.Sublist.sum_le_sum
  · apply List.Sublist.map
    apply List.monotone_filter_right
    intro slot reaches
    simpa using further slot (by simpa using reaches)
  · simp

theorem heightBelow_le_sum (slots : Slots) (idle : List Slot) (spec : Spec) :
    slots.heightBelow idle spec ≤ (idle.map slots.height).sum := by
  apply List.Sublist.sum_le_sum
  · apply List.Sublist.map
    apply List.filter_sublist
  · simp

theorem heightBelow_open {slot : Slot} {spec : Spec} (waits : slot ∈ idle)
    (reaches : Reaches slots spec (.slot slot)) :
    slots.heightBelow idle spec = slots.height slot + slots.heightBelow (idle.erase slot) spec := by
  have moved := (List.perm_cons_erase waits).filter fun slot =>
    @decide (Reaches slots spec (.slot slot)) (Classical.propDecidable _)
  rw [heightBelow, (moved.map slots.height).sum_eq,
    List.filter_cons_of_pos (by simpa using reaches), List.map_cons, List.sum_cons, heightBelow]

end Slots

namespace Compiler

open Slots

-- One call of the compiler, with the slots that no call around it has open.
structure Call where
  idle : List Slot
  spec : Spec
  trail : Trail
  depth : Nat
  progress : Progress

def Call.run (c : Compiler) (call : Call) : Except CompileError (Validator Handle × Progress) :=
  (c.build (c.openSlot call.idle) call.spec call.trail call.depth).run call.progress

-- The call that a run begins with.
def start (c : Compiler) (spec : Spec) (next : Handle) : Call :=
  ⟨c.allSlots, spec, [], 0, ⟨next, []⟩⟩

theorem compile_eq_run (c : Compiler) (spec : Spec) (next : Handle) :
    c.compile spec next =
      ((c.start spec next).run c).map fun (v, progress) => (v, progress.next) := rfl

/--
The calls that a call makes itself. It looks at a part once those before it are compiled, and at
the definition of a slot that is not compiled yet.
-/
inductive Makes (c : Compiler) : Call → Call → Prop
  | part {call : Call} {frame : Frame} {before after : List (Step × Spec)} {step : Step}
      {part : Spec} {vs : List (Validator Handle)} {q : Progress}
      (fits : call.depth ≤ c.options.maxDepth) (planned : c.plan call.spec = .container frame)
      (split : call.spec.parts = before ++ (step, part) :: after)
      (passed : (c.buildParts (c.openSlot call.idle) call.trail (call.depth + 1) before).run
        call.progress = .ok (vs, q)) :
      Makes c call ⟨call.idle, part, call.trail ++ [step], call.depth + 1, q⟩
  | definition {call : Call} {slot : Slot} {definition : Spec}
      (fits : call.depth ≤ c.options.maxDepth) (mention : call.spec = .slot slot)
      (unfinished : call.progress.done.lookup slot = none)
      (defined : c.slots.get? slot = some definition) (waits : slot ∈ call.idle) :
      Makes c call ⟨call.idle.erase slot, definition, call.trail, call.depth, call.progress⟩

variable {c : Compiler} {call inner : Call}

theorem mem_children_of_split {spec part : Spec} {before after : List (Step × Spec)} {step : Step}
    (split : spec.parts = before ++ (step, part) :: after) : part ∈ spec.children := by
  have member : (step, part) ∈ spec.parts := by simp [split]
  exact Spec.mem_children_of_mem_parts member

theorem Makes.wellFounded (c : Compiler) : WellFounded (Function.swap c.Makes) := by
  have smaller := (Prod.lex Nat.lt_wfRel Nat.lt_wfRel).wf
  refine Subrelation.wf ?_ (InvImage.wf (fun call => (call.idle.length, sizeOf call.spec)) smaller)
  intro inner call made
  cases made with
  | part _ _ split => exact .right _ (Spec.sizeOf_child (mem_children_of_split split))
  | definition _ _ _ _ waits => exact .left _ _ (length_erase_lt waits)

-- What goes wrong in a call that is made goes wrong in the call that makes it.
theorem Makes.run_error {e : CompileError} (made : c.Makes call inner)
    (failed : inner.run c = .error e) : call.run c = .error e := by
  cases made with
  | @part frame before after step part vs q fits planned split passed =>
    simp only [Call.run] at failed ⊢
    rw [build_run_container fits planned, split, buildParts_run_part passed failed]
    rfl
  | @definition slot definition fits mention unfinished defined waits =>
    simp only [Call.run] at failed ⊢
    rw [mention, build_run_slot fits, openSlot_run, unfinished, defined]
    simp only [if_pos waits, failed]
    rfl

theorem run_error_of_made {e : CompileError} (made : ReflTransGen c.Makes call inner)
    (failed : inner.run c = .error e) : call.run c = .error e := by
  induction made using ReflTransGen.head_induction_on with
  | refl => exact failed
  | head first _ ih => exact first.run_error ih

-- The depth that the calls below a call can get to.
noncomputable def Call.reserve (slots : Slots) (call : Call) : Nat :=
  call.depth + call.spec.height + slots.heightBelow call.idle call.spec

-- A part has a level less, and a slot that is opened gives its own levels to its definition.
theorem Makes.reserve_le (made : c.Makes call inner) :
    inner.reserve c.slots ≤ call.reserve c.slots := by
  cases made with
  | @part frame before after step part vs q fits planned split passed =>
    have member := mem_children_of_split split
    have lower := Spec.height_child member
    have fewer : c.slots.heightBelow call.idle part ≤ c.slots.heightBelow call.idle call.spec :=
      heightBelow_mono fun slot reaches => .head (.child member) reaches
    simp only [Call.reserve]
    omega
  | @definition slot definition fits mention unfinished defined waits =>
    have here : c.slots.height slot = definition.height := by rw [height, defined]
    have opened := heightBelow_open waits (Relation.ReflTransGen.refl (r := Mentions c.slots))
    have fewer : c.slots.heightBelow (call.idle.erase slot) definition ≤
        c.slots.heightBelow (call.idle.erase slot) (.slot slot) :=
      heightBelow_mono fun other reaches => .head (.definition defined) reaches
    simp only [Call.reserve, mention, Spec.height]
    omega

theorem depth_le_reserve (made : ReflTransGen c.Makes call inner) :
    inner.depth ≤ call.reserve c.slots := by
  have kept : inner.reserve c.slots ≤ call.reserve c.slots := by
    induction made with
    | refl => exact Nat.le_refl _
    | tail _ last ih => exact Nat.le_trans last.reserve_le ih
  simp only [Call.reserve] at kept ⊢
  omega

theorem plan_faulty_kind {spec : Spec} {e : CompileError} (planned : c.plan spec = .faulty e) :
    e.fault.kind ≠ .tooDeep := by
  rcases plan_faulty_cases planned with
    ⟨marker, rfl, -, rfl⟩ | ⟨value, rfl, -, rfl⟩ | ⟨mode, children, rfl, -, rfl⟩ |
      ⟨entries, extra, rfl, keys⟩
  · exact nofun
  · exact nofun
  · exact nofun
  · cases keys with
    | unsound found refused =>
      rw [KeySpec.kind_of_refused refused]
      exact nofun
    | repeated => exact nofun

theorem Fails.exists_call_too_deep {idle : List Slot} {spec : Spec} {trail : Trail} {depth : Nat}
    {p : Progress} {e : CompileError} (fails : c.Fails idle spec trail depth p e)
    (kind : e.fault.kind = .tooDeep) :
    ∃ inner, ReflTransGen c.Makes ⟨idle, spec, trail, depth, p⟩ inner ∧
      c.options.maxDepth < inner.depth := by
  induction fails with
  | tooDeep deep => exact ⟨_, .refl, deep⟩
  | faulty fits planned =>
    have other := plan_faulty_kind planned
    exact absurd kind other
  | undefined | cyclic => cases kind
  | part fits planned split passed failed ih =>
    obtain ⟨inner, made, deep⟩ := ih kind
    exact ⟨inner, .head (.part fits planned split passed.run) made, deep⟩
  | inside fits unfinished defined waits failed ih =>
    obtain ⟨inner, made, deep⟩ := ih kind
    exact ⟨inner, .head (.definition fits rfl unfinished defined waits) made, deep⟩

theorem compile_tooDeep_iff (c : Compiler) (spec : Spec) (next : Handle) :
    (∃ e, c.compile spec next = .error e ∧ e.fault.kind = .tooDeep) ↔
      ∃ inner, ReflTransGen c.Makes (c.start spec next) inner ∧
        c.options.maxDepth < inner.depth := by
  constructor
  · rintro ⟨e, refused, kind⟩
    exact (fails_of_compile refused).exists_call_too_deep kind
  · rintro ⟨inner, made, deep⟩
    have refused : inner.run c = .error ⟨inner.trail, .tooDeep c.options.maxDepth⟩ :=
      build_run_of_deep deep
    refine ⟨⟨inner.trail, .tooDeep c.options.maxDepth⟩, ?_, rfl⟩
    rw [compile_eq_run, run_error_of_made made refused]
    rfl

-- Whether a specification reaches a slot that reaches itself.
def Loops (slots : Slots) (spec : Spec) : Prop :=
  ∃ slot definition, Reaches slots spec (.slot slot) ∧ slots.get? slot = some definition ∧
    Reaches slots definition (.slot slot)

theorem not_loops_of_compile {spec : Spec} {next after : Handle} {v : Validator Handle}
    (compiled : c.compile spec next = .ok (v, after)) : ¬ Loops c.slots spec := by
  rintro ⟨slot, definition, reaches, defined, again⟩
  obtain ⟨shape, denotes⟩ := (denotes_of_compile compiled).reached reaches
  exact not_reaches_self_of_acc denotes.acc defined again

-- Where an error is no cycle, the fragment it blames is at fault whatever the way to it.
theorem Blames.cyclic_or_exhibits {spec : Spec} {trail : Trail} {fault : Fault}
    (blames : c.Blames [] spec trail fault) :
    fault = .cyclic ∨
      ∃ fragment tail, Reaches c.slots spec fragment ∧ c.Exhibits [] fragment tail fault := by
  obtain ⟨home, tail, passed, fragment, -, walk, -, exhibits⟩ := blames
  by_cases cyclic : fault = .cyclic
  · exact .inl cyclic
  · refine .inr ⟨fragment, tail, walk.reaches, ?_⟩
    cases exhibits with
    | cyclic => exact absurd rfl cyclic
    | unknownMarker unknown => exact .unknownMarker unknown
    | compositeLiteral composite => exact .compositeLiteral composite
    | tooFewChildren few => exact .tooFewChildren few
    | undefinedSlot missing => exact .undefinedSlot missing
    | duplicateField order foundEarlier namesEarlier foundLater namesLater =>
      exact .duplicateField order foundEarlier namesEarlier foundLater namesLater
    | tooDeep => exact .tooDeep
    | key found refused kind last => exact .key found refused kind last

theorem depth_le_totalHeight (c : Compiler) (spec : Spec) (next : Handle) :
    WellFounded (Function.swap c.Makes) ∧
      (∀ inner, ReflTransGen c.Makes (c.start spec next) inner →
        inner.depth ≤ c.slots.totalHeight spec) ∧
      (c.slots.totalHeight spec ≤ c.options.maxDepth →
        (∀ e, c.compile spec next = .error e → e.fault.kind ≠ .tooDeep) ∧
          (Loops c.slots spec → ∃ e, c.compile spec next = .error e ∧
            (e.fault = .cyclic ∨ ∃ fragment tail,
              Reaches c.slots spec fragment ∧ c.Exhibits [] fragment tail e.fault))) := by
  have bounded (inner : Call) (made : ReflTransGen c.Makes (c.start spec next) inner) :
      inner.depth ≤ c.slots.totalHeight spec := by
    have below := depth_le_reserve made
    rwa [Call.reserve, start, Nat.zero_add] at below
  refine ⟨Makes.wellFounded c, bounded, fun room => ⟨fun e refused kind => ?_, fun loops => ?_⟩⟩
  · obtain ⟨inner, made, deep⟩ := (c.compile_tooDeep_iff spec next).mp ⟨e, refused, kind⟩
    have := bounded inner made
    omega
  · cases compiled : c.compile spec next with
    | ok made => exact absurd loops (not_loops_of_compile compiled)
    | error e => exact ⟨e, rfl, (blames_of_fails (fails_of_compile compiled)).cyclic_or_exhibits⟩

-- A list leads through an alias to a record, which holds the list again.
def circle : Compiler where
  registry := .empty
  options := { maxDepth := 2 }
  slots := ⟨[some (.listOf (.slot 1)), some (.slot 2),
    some (.record [(.required "more", .slot 0)] none)]⟩

theorem circle_refused :
    circle.slots.totalHeight (.slot 0) ≤ 2 ∧ Loops circle.slots (.slot 0) ∧
      (∀ e, circle.compile (.slot 0) 0 = .error e → e.fault.kind ≠ .tooDeep) ∧
        ∃ e, circle.compile (.slot 0) 0 = .error e ∧
          (e.fault = .cyclic ∨ ∃ fragment tail, Reaches circle.slots (.slot 0) fragment ∧
            circle.Exhibits [] fragment tail e.fault) := by
  have room : circle.slots.totalHeight (.slot 0) ≤ 2 := by
    have below := heightBelow_le_sum circle.slots (List.range 3) (.slot 0)
    have sum : ((List.range 3).map circle.slots.height).sum = 2 := by decide
    rw [sum] at below
    exact (Nat.zero_add _).trans_le below
  have loops : Loops circle.slots (.slot 0) := by
    refine ⟨0, _, .refl, rfl, ?_⟩
    have first : Mentions circle.slots (.listOf (.slot 1)) (.slot 1) := .child List.mem_cons_self
    have second : Mentions circle.slots (.slot 1) (.slot 2) := .definition rfl
    have third : Mentions circle.slots (.slot 2) (.record [(.required "more", .slot 0)] none) :=
      .definition rfl
    have last : Mentions circle.slots (.record [(.required "more", .slot 0)] none) (.slot 0) :=
      .child List.mem_cons_self
    exact .tail (.tail (.tail (.single first) second) third) last
  have settled := (depth_le_totalHeight circle (.slot 0) 0).2.2 room
  exact ⟨room, loops, settled.1, settled.2 loops⟩

end Compiler

end Conform
