import Conform.Proofs.Builtin
import Conform.Proofs.Extension
import Conform.Proofs.Leaves
import Conform.Proofs.Members

set_option autoImplicit false

/-!
Histories of registries. A marker stands for what the last call that named it has put there, of
those that went through, or else for what it stood for at the start. The empty marker gets in by a
replacement and by nothing else.
-/

namespace Conform

theorem Primitive.mem_all (p : Primitive) : p ∈ Primitive.all := by
  cases p <;> decide

theorem Primitive.names_apart :
    Primitive.all.Pairwise fun p q => ∀ name ∈ p.names, name ∉ q.names := by
  decide

inductive Registration where
  | register (marker : String) (factory : Validator Unit)
  | share (marker : String) (v : Validator Handle)
  | replace (marker : String) (factory : Validator Unit)

namespace Registration

def marker : Registration → String
  | register marker _ => marker
  | share marker _ => marker
  | replace marker _ => marker

def entry : Registration → Entry
  | register _ factory => .factory factory
  | share _ v => .shared v
  | replace _ factory => .factory factory

def Replaces : Registration → Prop
  | register _ _ => False
  | share _ _ => False
  | replace _ _ => True

def run (r : Registry) : Registration → Except RegistryFault Registry
  | register marker factory => r.register marker (.factory factory)
  | share marker v => r.register marker (.shared v)
  | replace marker factory => .ok (r.replace marker (.factory factory))

end Registration

namespace Registry

def after (r : Registry) (call : Registration) : Registry :=
  match call.run r with
  | .ok s => s
  | .error _ => r

def run (r : Registry) (calls : List Registration) : Registry := calls.foldl after r

-- What a call puts under a marker.
def granted (r : Registry) (marker : String) (call : Registration) : Option Entry :=
  match call.run r with
  | .ok _ => if marker = call.marker then some call.entry else none
  | .error _ => none

-- What the last call that puts anything under a marker puts there.
def lastGranted (marker : String) : Registry → List Registration → Option Entry
  | _, [] => none
  | r, call :: rest => (lastGranted marker (r.after call) rest).or (r.granted marker call)

theorem find?_replace (r : Registry) (marker : String) (entry : Entry) (other : String) :
    (r.replace marker entry).find? other = if other = marker then some entry else r.find? other :=
  Sorted.lookup_put marker entry r.entries other

theorem register_ok_iff {r s : Registry} {marker : String} {entry : Entry} :
    r.register marker entry = .ok s ↔
      (marker ≠ "" ∧ r.recognizes marker = false) ∧ s = r.replace marker entry := by
  unfold register
  split
  · simp [*]
  split
  · simp [*]
  · simp [*, eq_comm]

theorem run_ok_iff {r s : Registry} {call : Registration} :
    call.run r = .ok s ↔
      (call.Replaces ∨ call.marker ≠ "" ∧ r.recognizes call.marker = false) ∧
        s = r.replace call.marker call.entry := by
  cases call with
  | register marker factory =>
    rw [Registration.run, register_ok_iff]
    simp [Registration.Replaces, Registration.marker, Registration.entry]
  | share marker v =>
    rw [Registration.run, register_ok_iff]
    simp [Registration.Replaces, Registration.marker, Registration.entry]
  | replace marker factory =>
    rw [Registration.run, Except.ok.injEq, eq_comm]
    simp [Registration.Replaces, Registration.marker, Registration.entry]

theorem find?_after (r : Registry) (call : Registration) (marker : String) :
    (r.after call).find? marker = (r.granted marker call).or (r.find? marker) := by
  unfold after granted
  cases ran : call.run r with
  | error fault => simp
  | ok s =>
    obtain ⟨-, rfl⟩ := run_ok_iff.mp ran
    rw [find?_replace]
    split <;> simp

theorem find?_run (r : Registry) (calls : List Registration) (marker : String) :
    (r.run calls).find? marker = (lastGranted marker r calls).or (r.find? marker) := by
  induction calls generalizing r with
  | nil => simp [run, lastGranted]
  | cons call rest ih =>
    have others := ih (r.after call)
    rw [find?_after, ← Option.or_assoc] at others
    exact others

theorem pairwise_markers_after {r : Registry} (sorted : r.markers.Pairwise (· < ·))
    (call : Registration) : (r.after call).markers.Pairwise (· < ·) := by
  unfold after
  cases ran : call.run r with
  | error fault => exact sorted
  | ok s =>
    obtain ⟨-, rfl⟩ := run_ok_iff.mp ran
    exact Sorted.pairwise_put sorted

theorem pairwise_markers_run {r : Registry} (sorted : r.markers.Pairwise (· < ·))
    (calls : List Registration) : (r.run calls).markers.Pairwise (· < ·) := by
  induction calls generalizing r with
  | nil => exact sorted
  | cons call rest ih => exact ih (pairwise_markers_after sorted call)

theorem recognizes_iff_mem (r : Registry) (marker : String) :
    r.recognizes marker = true ↔ marker ∈ r.markers := by
  have absent : r.find? marker = none ↔ marker ∉ r.markers := Members.lookup_eq_none_iff
  rw [recognizes, Option.isSome_iff_ne_none, Ne, absent, not_not]

theorem instantiate_shared {r : Registry} {marker : String} {v : Validator Handle}
    (found : r.find? marker = some (.shared v)) (next : Handle) :
    (r.instantiate marker).run next = (some v, next) := by
  rw [instantiate, found]
  rfl

theorem instantiate_factory {r : Registry} {marker : String} {pattern : Validator Unit}
    (found : r.find? marker = some (.factory pattern)) (next : Handle) :
    ∃ v after, (r.instantiate marker).run next = (some v, after) ∧ v.shape = pattern ∧
      Numbered next v.tags after := by
  rw [instantiate, found]
  exact ⟨_, _, rfl, pattern.instantiate_shape next, pattern.instantiate_numbered next⟩

theorem recognizes_eq_isSome (r : Registry) (marker : String) (next : Handle) :
    r.recognizes marker = ((r.instantiate marker).run next).1.isSome := by
  rw [recognizes, instantiate]
  cases r.find? marker <;> rfl

theorem instantiate_congr {r s : Registry} {marker : String}
    (same : r.find? marker = s.find? marker) : r.instantiate marker = s.instantiate marker := by
  rw [instantiate, instantiate, same]

theorem find?_foldl_replace (names : List String) (entry : Entry) (r : Registry)
    (marker : String) :
    (names.foldl (fun r name => r.replace name entry) r).find? marker =
      if marker ∈ names then some entry else r.find? marker := by
  induction names generalizing r with
  | nil => simp
  | cons name rest ih =>
    rw [List.foldl_cons, ih, find?_replace]
    by_cases later : marker ∈ rest <;> by_cases here : marker = name <;> simp [later, here]

theorem find?_addPrimitive (r : Registry) (p : Primitive) (tag : Handle) (marker : String) :
    ((r.addPrimitive p).run tag).1.find? marker =
      if marker ∈ p.names then some (.shared (.leaf tag (.primitive p))) else r.find? marker :=
  find?_foldl_replace p.names _ r marker

theorem find?_addAll {kinds : List Primitive}
    (apart : kinds.Pairwise fun p q => ∀ name ∈ p.names, name ∉ q.names) (r : Registry)
    (next : Handle) :
    (∀ p ∈ kinds, ∃ tag, ∀ marker ∈ p.names,
        ((kinds.foldlM addPrimitive r).run next).1.find? marker =
          some (.shared (.leaf tag (.primitive p)))) ∧
      ∀ marker, (∀ p ∈ kinds, marker ∉ p.names) →
        ((kinds.foldlM addPrimitive r).run next).1.find? marker = r.find? marker := by
  induction kinds generalizing r next with
  | nil => exact ⟨by simp, fun _ _ => rfl⟩
  | cons p rest ih =>
    obtain ⟨unlike, apart⟩ := List.pairwise_cons.mp apart
    obtain ⟨known, others⟩ := ih apart ((r.addPrimitive p).run next).1 (next + 1)
    constructor
    · intro q member
      rcases List.mem_cons.mp member with rfl | member
      · refine ⟨next, fun marker named => ?_⟩
        have kept := others marker fun q member => unlike q member marker named
        rw [find?_addPrimitive, if_pos named] at kept
        exact kept
      · exact known q member
    · intro marker unnamed
      have kept := others marker fun q member => unnamed q (List.mem_cons_of_mem p member)
      rw [find?_addPrimitive, if_neg (unnamed p List.mem_cons_self)] at kept
      exact kept

theorem find?_builtin (next : Handle) (p : Primitive) :
    ∃ tag, ∀ marker ∈ p.names,
      (builtin.run next).1.find? marker = some (.shared (.leaf tag (.primitive p))) :=
  (find?_addAll Primitive.names_apart empty next).1 p p.mem_all

theorem find?_builtin_of_unnamed (next : Handle) {marker : String}
    (unnamed : ∀ p : Primitive, marker ∉ p.names) : (builtin.run next).1.find? marker = none :=
  (find?_addAll Primitive.names_apart empty next).2 marker fun p _ => unnamed p

theorem pairwise_markers_builtin (next : Handle) :
    (builtin.run next).1.markers.Pairwise (· < ·) := by
  apply builtin_induction (motive := fun r => r.markers.Pairwise (· < ·))
  · simp [markers, empty]
  · intro r name tag p sorted
    exact Sorted.pairwise_put sorted

theorem find?_after_of_known {r : Registry} {call : Registration} (keeps : ¬ call.Replaces)
    {marker : String} {entry : Entry} (found : r.find? marker = some entry) :
    (r.after call).find? marker = some entry := by
  unfold after
  cases ran : call.run r with
  | error fault => exact found
  | ok s =>
    obtain ⟨accepted, rfl⟩ := run_ok_iff.mp ran
    obtain ⟨-, new⟩ := accepted.resolve_left keeps
    have apart : marker ≠ call.marker := by
      rintro rfl
      simp [recognizes, found] at new
    rw [find?_replace, if_neg apart, found]

theorem find?_run_of_known {r : Registry} {calls : List Registration}
    (keep : ∀ call ∈ calls, ¬ call.Replaces) {marker : String} {entry : Entry}
    (found : r.find? marker = some entry) : (r.run calls).find? marker = some entry := by
  induction calls generalizing r with
  | nil => exact found
  | cons call rest ih =>
    have first := find?_after_of_known (keep call List.mem_cons_self) found
    exact ih (fun other member => keep other (List.mem_cons_of_mem call member)) first

end Registry

inductive Origin where
  | empty
  | builtin (next : Handle)

namespace Origin

def registry : Origin → Registry
  | empty => .empty
  | builtin next => (Registry.builtin.run next).1

theorem pairwise_markers (origin : Origin) : origin.registry.markers.Pairwise (· < ·) := by
  cases origin with
  | empty => simp [registry, Registry.empty, Registry.markers]
  | builtin next => exact Registry.pairwise_markers_builtin next

end Origin

open Registry

/--
The registry is a map of its history: what it tells of a marker is what the last call that named
the marker and went through has put there, or else what it began with.
-/
structure Faithful (origin : Origin) (calls : List Registration) (r : Registry) : Prop where
  accepts : ∀ call : Registration, (∃ s, call.run r = .ok s) ↔
    call.Replaces ∨ call.marker ≠ "" ∧ r.recognizes call.marker = false
  refuses : ∀ (call : Registration) (fault : RegistryFault), call.run r = .error fault →
    r.after call = r
  others : ∀ (call : Registration) (marker : String), marker ≠ call.marker →
    (r.after call).instantiate marker = r.instantiate marker
  shared : ∀ marker v, lastGranted marker origin.registry calls = some (.shared v) →
    ∀ next, (r.instantiate marker).run next = (some v, next)
  anew : ∀ marker pattern, lastGranted marker origin.registry calls = some (.factory pattern) →
    ∀ next, ∃ v after, (r.instantiate marker).run next = (some v, after) ∧ v.shape = pattern ∧
      Numbered next v.tags after
  builtin : ∀ next, origin = .builtin next → ∀ p : Primitive, ∃ tag, ∀ marker ∈ p.names,
    lastGranted marker origin.registry calls = none →
      ∀ next', (r.instantiate marker).run next' = (some (.leaf tag (.primitive p)), next')
  unknown : ∀ marker, lastGranted marker origin.registry calls = none →
    (origin = .empty ∨ ∀ p : Primitive, marker ∉ p.names) → r.recognizes marker = false
  recognized : ∀ marker next,
    r.recognizes marker = true ↔ ((r.instantiate marker).run next).1.isSome
  listed : ∀ marker, r.recognizes marker = true ↔ marker ∈ r.markers
  sorted : r.markers.Pairwise (· < ·)
  size : r.markers.length = r.size
  compiles : ∀ more : List Registration, (∀ call ∈ more, ¬ call.Replaces) →
    ∀ options slots spec next v after,
      Compiler.compile ⟨r, options, slots⟩ spec next = .ok (v, after) →
      ∀ next', Compiler.outcome (Compiler.compile ⟨r.run more, options, slots⟩ spec next') =
        .ok v.shape

theorem faithful_run (origin : Origin) (calls : List Registration) :
    Faithful origin calls (origin.registry.run calls) := by
  have held := find?_run origin.registry calls
  constructor
  case accepts =>
    intro call
    simp [run_ok_iff]
  case refuses =>
    intro call fault refused
    simp [Registry.after, refused]
  case others =>
    intro call marker apart
    apply instantiate_congr
    rw [find?_after, granted]
    split <;> simp [apart]
  case shared =>
    intro marker v granted
    apply instantiate_shared
    simp [held, granted]
  case anew =>
    intro marker pattern granted
    apply instantiate_factory
    simp [held, granted]
  case builtin =>
    rintro next rfl p
    obtain ⟨tag, known⟩ := find?_builtin next p
    refine ⟨tag, fun marker named ungranted => instantiate_shared ?_⟩
    rw [held, ungranted, Option.none_or]
    exact known marker named
  case unknown =>
    intro marker ungranted outside
    have absent : origin.registry.find? marker = none := by
      cases origin with
      | empty => rfl
      | builtin next => exact find?_builtin_of_unnamed next (outside.resolve_left (by simp))
    simp [recognizes, held, ungranted, absent]
  case recognized =>
    intro marker next
    rw [recognizes_eq_isSome _ _ next]
  case listed => exact recognizes_iff_mem _
  case sorted => exact pairwise_markers_run origin.pairwise_markers calls
  case size => simp [markers, size]
  case compiles =>
    intro more keep options slots spec next v after compiled
    have extends' : Compiler.Extends ⟨origin.registry.run calls, options, slots⟩
        ⟨(origin.registry.run calls).run more, options, slots⟩ :=
      ⟨rfl, fun marker entry => find?_run_of_known keep, fun _ _ => id⟩
    exact Compiler.outcome_compile_extend extends' (Nat.le_refl _) compiled

def zeroFactory : Validator Unit := .leaf () (.exact (.whole .zero))

-- The second call and the last are refused.
def renamings : List Registration :=
  [.share "home" (.leaf 8 (.exact (.string "localhost"))), .register "int" zeroFactory,
    .replace "bool" zeroFactory, .register "home" zeroFactory]

theorem faithful_renamings :
    let r := (Origin.builtin 0).registry.run renamings
    (r.instantiate "home").run 9 = (some (.leaf 8 (.exact (.string "localhost"))), 9) ∧
      (∃ tag, ∀ marker ∈ Primitive.integer.names,
        (r.instantiate marker).run 9 = (some (.leaf tag (.primitive .integer)), 9)) ∧
      (∃ v after, (r.instantiate "bool").run 9 = (some v, after) ∧ v.shape = zeroFactory ∧
        Numbered 9 v.tags after) ∧
      r.recognizes "port" = false := by
  intro r
  have faithful : Faithful (.builtin 0) renamings r := faithful_run (.builtin 0) renamings
  obtain ⟨tag, integers⟩ := faithful.builtin 0 rfl .integer
  have untouched : ∀ marker ∈ Primitive.integer.names,
      lastGranted marker (Origin.builtin 0).registry renamings = none := by
    intro marker named
    rcases List.mem_pair.mp named with rfl | rfl <;> with_unfolding_all rfl
  refine ⟨faithful.shared "home" _ ?_ 9, ⟨tag, fun marker named => ?_⟩,
    faithful.anew "bool" zeroFactory ?_ 9, faithful.unknown "port" ?_ (.inr ?_)⟩
  · with_unfolding_all rfl
  · exact integers marker named (untouched marker named) 9
  · with_unfolding_all rfl
  · with_unfolding_all rfl
  · intro p
    cases p <;> decide

namespace Registry

theorem granted_empty_isSome_iff (r : Registry) (call : Registration) :
    (r.granted "" call).isSome = true ↔ ∃ factory, call = .replace "" factory := by
  rw [granted]
  cases ran : call.run r with
  | error fault =>
    constructor
    · simp
    · rintro ⟨factory, rfl⟩
      cases ran
  | ok s =>
    obtain ⟨accepted, -⟩ := run_ok_iff.mp ran
    cases call with
    | replace marker factory =>
      by_cases empty : "" = marker
      · simp [Registration.marker, empty]
      · simp [Registration.marker, empty, Ne.symm empty]
    | register marker factory =>
      have named : marker ≠ "" := (accepted.resolve_left id).1
      simp [Registration.marker, Ne.symm named]
    | share marker v =>
      have named : marker ≠ "" := (accepted.resolve_left id).1
      simp [Registration.marker, Ne.symm named]

theorem lastGranted_empty_isSome_iff (r : Registry) (calls : List Registration) :
    (lastGranted "" r calls).isSome = true ↔ ∃ factory, .replace "" factory ∈ calls := by
  induction calls generalizing r with
  | nil => simp [lastGranted]
  | cons call rest ih =>
    rw [lastGranted, Option.isSome_or, Bool.or_eq_true, ih, granted_empty_isSome_iff]
    simp only [List.mem_cons, exists_or, eq_comm]
    exact or_comm

end Registry

theorem Origin.find?_empty (origin : Origin) : origin.registry.find? "" = none := by
  cases origin with
  | empty => rfl
  | builtin next =>
    apply find?_builtin_of_unnamed
    intro p
    cases p <;> decide

theorem Compiler.Denotes.recognizes {c : Compiler} {marker : String} {shape : Validator Unit}
    (denotes : c.Denotes (.marker marker) shape) : c.registry.recognizes marker = true := by
  cases found : c.registry.find? marker with
  | some entry => simp [Registry.recognizes, found]
  | none => cases denotes <;> simp_all [plan]

theorem Compiler.compile_marker {c : Compiler} {marker : String} {entry : Entry}
    (found : c.registry.find? marker = some entry) (next : Handle) :
    ∃ v after, c.compile (.marker marker) next = .ok (v, after) := by
  have planned : c.plan (.marker marker) = .leaf entry := by
    simp [plan, found]
  exact ⟨_, _, compile_of_yields (.leaf (Nat.zero_le _) planned rfl)⟩

-- The last part is about every specification that mentions the empty marker anywhere.
theorem recognizes_empty_iff (origin : Origin) (calls : List Registration) :
    ("" ∈ (origin.registry.run calls).markers ↔ ∃ factory, .replace "" factory ∈ calls) ∧
      ((origin.registry.run calls).recognizes "" = true ↔
        ∃ factory, .replace "" factory ∈ calls) ∧
      ((∃ options slots spec next v after, Reaches slots spec (.marker "") ∧
          Compiler.compile ⟨origin.registry.run calls, options, slots⟩ spec next =
            .ok (v, after)) ↔
        ∃ factory, .replace "" factory ∈ calls) := by
  have known : (origin.registry.run calls).recognizes "" = true ↔
      ∃ factory, .replace "" factory ∈ calls := by
    rw [← lastGranted_empty_isSome_iff origin.registry, recognizes, find?_run, origin.find?_empty,
      Option.or_none]
  refine ⟨?_, known, ?_⟩
  · rw [← recognizes_iff_mem, known]
  · rw [← known]
    constructor
    · rintro ⟨options, slots, spec, next, v, after, reaches, compiled⟩
      obtain ⟨shape, denotes⟩ := (Compiler.denotes_of_compile compiled).reached reaches
      exact denotes.recognizes
    · intro recognized
      obtain ⟨entry, found⟩ := Option.isSome_iff_exists.mp recognized
      obtain ⟨v, after, compiled⟩ :=
        Compiler.compile_marker (c := ⟨origin.registry.run calls, {}, .empty⟩) found 0
      exact ⟨{}, .empty, .marker "", 0, v, after, .refl, compiled⟩

theorem recognizes_empty_replaced :
    let r := (Origin.builtin 0).registry.run [.replace "" zeroFactory]
    "" ∈ r.markers ∧ r.recognizes "" = true ∧
      Compiler.compile ⟨r, {}, .empty⟩ (.marker "") 8 =
        .ok (.leaf 8 (.exact (.whole .zero)), 9) := by
  intro r
  have known : r.recognizes "" = true := by
    with_unfolding_all rfl
  refine ⟨(r.recognizes_iff_mem "").mp known, known, ?_⟩
  with_unfolding_all rfl

end Conform
