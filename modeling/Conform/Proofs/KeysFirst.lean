import Conform.Proofs.Descent

set_option autoImplicit false

/-!
The keys of a record come before its values. The first key at fault decides what is told of the
record, whatever its values are and whatever comes after that key, and nothing is ever told of
keys that are sound and have different names.
-/

namespace Conform.Compiler

open Relation

inductive KeyFault (keys : List KeySpec) (i : Nat) : CompileError → Prop
  | unsound {key : KeySpec} {fault : Fault} (found : keys[i]? = some key)
      (refused : key.resolve = .error fault) (kind : fault.kind = .unrecognizedKey) :
      KeyFault keys i ⟨[key.step i], fault⟩
  | repeated {key earlier : KeySpec} {name : String} {j : Nat} (found : keys[i]? = some key)
      (names : key.Names name) (order : j < i) (before : keys[j]? = some earlier)
      (namesEarlier : earlier.Names name) : KeyFault keys i ⟨[], .duplicateField name⟩

def FirstFault (keys : List KeySpec) (i : Nat) (e : CompileError) : Prop :=
  KeyFault keys i e ∧ ∀ j < i, ∀ other, ¬ KeyFault keys j other

-- The error is about the keys of the record at this place.
def TellsOfKeys (trail : Trail) (e : CompileError) : Prop :=
  (e.trail = trail ∧ e.fault.kind = .duplicateField) ∨
    ∃ step, e.trail = trail ++ [step] ∧ e.fault.kind = .unrecognizedKey

variable {c : Compiler} {keys : List KeySpec}

theorem exists_keyFault {e : CompileError} (faulty : KeysAtFault 0 [] keys e) :
    ∃ i < keys.length, KeyFault keys i e := by
  cases faulty with
  | @unsound i key fault found refused =>
    refine ⟨i, (List.getElem?_eq_some_iff.mp found).1, ?_⟩
    rw [Nat.zero_add]
    exact .unsound found refused (KeySpec.kind_of_refused refused)
  | @repeated i key name found names before =>
    obtain ⟨j, order, earlier, foundEarlier, namesEarlier⟩ :=
      before.resolve_left List.not_mem_nil
    exact ⟨i, (List.getElem?_eq_some_iff.mp found).1,
      .repeated found names order foundEarlier namesEarlier⟩

theorem KeyFault.congr {others : List KeySpec} {i : Nat} {e : CompileError}
    (fault : KeyFault keys i e) (agree : ∀ j ≤ i, others[j]? = keys[j]?) : KeyFault others i e := by
  cases fault with
  | unsound found refused kind =>
    rw [← agree i (Nat.le_refl i)] at found
    exact .unsound found refused kind
  | repeated found names order before namesEarlier =>
    rw [← agree i (Nat.le_refl i)] at found
    rw [← agree _ order.le] at before
    exact .repeated found names order before namesEarlier

theorem not_keyFault_of_declares {fields : List (Field (Validator Handle))}
    (declares : Declares [] keys fields) (i : Nat) (e : CompileError) : ¬ KeyFault keys i e := by
  intro fault
  cases fault with
  | unsound found refused =>
    obtain ⟨field, -, resolution⟩ := declares.mem (List.mem_of_getElem? found)
    cases refused.symm.trans resolution
  | repeated found names order before namesEarlier =>
    obtain ⟨below, rfl⟩ := List.getElem?_eq_some_iff.mp found
    obtain ⟨inside, rfl⟩ := List.getElem?_eq_some_iff.mp before
    exact List.pairwise_iff_getElem.mp declares.distinct _ _ inside below order _ namesEarlier names

theorem faultless_iff :
    (∀ i e, ¬ KeyFault keys i e) ↔ ∃ fields, Declares [] keys fields := by
  constructor
  · intro faultless
    cases found : declared [] 0 [] keys with
    | ok fields => exact ⟨fields, (declared_ok_iff 0 [] keys fields).mp found⟩
    | error e =>
      obtain ⟨i, -, fault⟩ := exists_keyFault (declared_error 0 [] keys e found)
      exact absurd fault (faultless i e)
  · rintro ⟨fields, declares⟩
    exact not_keyFault_of_declares declares

-- A key at fault is the first one exactly if those before it declare fields together.
theorem firstFault_iff {i : Nat} {e : CompileError} :
    FirstFault keys i e ↔ KeyFault keys i e ∧ ∃ fields, Declares [] (keys.take i) fields := by
  have agree {j k : Nat} (below : j < i) (order : k ≤ j) : (keys.take i)[k]? = keys[k]? :=
    List.getElem?_take_of_lt (Nat.lt_of_le_of_lt order below)
  rw [FirstFault, ← faultless_iff]
  refine and_congr_right fun _ => ⟨?_, ?_⟩
  · intro least j other fault
    have inside : j < (keys.take i).length := by
      cases fault with
      | unsound found | repeated found => exact (List.getElem?_eq_some_iff.mp found).1
    have below : j < i := Nat.lt_of_lt_of_le inside (List.length_take_le i keys)
    exact least j below other (fault.congr fun k order => (agree below order).symm)
  · intro faultless j below other fault
    exact faultless j other (fault.congr fun k order => agree below order)

-- Keys that declare fields leave nothing behind but their number and their names.
theorem declared_append {before : List KeySpec} {fields : List (Field (Validator Handle))}
    {seen : List String} (declares : Declares seen before fields) (position : Nat)
    (after : List KeySpec) :
    declared [] position seen (before ++ after) =
      (declared [] (position + before.length) ((fields.map (·.name)).reverse ++ seen) after).map
        (fields ++ ·) := by
  induction before generalizing position seen fields with
  | nil =>
    obtain rfl : fields = [] := by simpa using declares.resolved.symm
    change declared [] position seen after = (declared [] position seen after).map _
    cases declared [] position seen after <;> rfl
  | cons key rest ih =>
    cases fields with
    | nil => simpa using declares.resolved
    | cons field fields =>
      rw [declares_cons] at declares
      obtain ⟨resolution, free, others⟩ := declares
      have shifted : position + 1 + rest.length = position + (rest.length + 1) := by omega
      rw [List.cons_append, declared, resolution]
      simp only [if_neg free, ih others, List.length_cons, List.map_cons, List.reverse_cons,
        List.append_assoc, List.singleton_append, shifted]
      cases declared [] (position + (rest.length + 1))
        ((fields.map (·.name)).reverse ++ field.name :: seen) after <;> rfl

theorem FirstFault.declared_eq {i : Nat} {e : CompileError} (first : FirstFault keys i e)
    {all : List KeySpec} (known : keys.take (i + 1) <+: all) : declared [] 0 [] all = .error e := by
  obtain ⟨fault, fields, declares⟩ := firstFault_iff.mp first
  obtain ⟨rest, rfl⟩ := known
  have one {key : KeySpec} (found : keys[i]? = some key) :
      declared [] 0 [] (keys.take (i + 1) ++ rest) =
        (declared [] i (fields.map (·.name)).reverse (key :: rest)).map (fields ++ ·) := by
    have count : (keys.take i).length = i := by
      have inside := (List.getElem?_eq_some_iff.mp found).1
      simp [inside.le]
    rw [List.take_add_one, found, Option.toList_some, List.append_assoc, List.singleton_append,
      declared_append declares, List.append_nil, Nat.zero_add, count]
  cases fault with
  | unsound found refused kind =>
    rw [one found, declared, refused]
    rfl
  | @repeated key earlier name j found names order before namesEarlier =>
    obtain ⟨field, resolution, rfl⟩ := names
    have taken : field.name ∈ fields.map (·.name) := by
      refine declares.mem_names_iff.mpr ⟨earlier, ?_, namesEarlier⟩
      exact List.mem_of_getElem? ((List.getElem?_take_of_lt order).trans before)
    rw [one found, declared, resolution]
    simp only [List.mem_reverse, if_pos taken]
    rfl

theorem FirstFault.plan_record {i : Nat} {e : CompileError} (first : FirstFault keys i e)
    (c : Compiler) {entries : List (KeySpec × Spec)}
    (known : keys.take (i + 1) <+: entries.map (·.1)) (extra : Option ExtraKeys) :
    c.plan (.record entries extra) = .faulty e := by
  rw [plan, first.declared_eq known]

theorem FirstFault.call_run {i : Nat} {e : CompileError} (first : FirstFault keys i e)
    {entries : List (KeySpec × Spec)} (known : keys.take (i + 1) <+: entries.map (·.1))
    {extra : Option ExtraKeys} {call : Call} (here : call.spec = .record entries extra)
    (fits : call.depth ≤ c.options.maxDepth) :
    call.run c = .error ⟨call.trail ++ e.trail, e.fault⟩ := by
  have planned := first.plan_record c known extra
  rw [← here] at planned
  exact (Fails.faulty fits planned).run

theorem entries_eq_of_samePlace {slots : Slots} {entries entries' : List (KeySpec × Spec)}
    {extra extra' : Option ExtraKeys}
    (same : SamePlace slots (.record entries extra) (.record entries' extra')) :
    entries = entries' := by
  obtain ⟨passed, walk | walk⟩ := same
  · cases walk
    rfl
  · cases walk
    rfl

-- An error that tells of keys ends its walk at the record, where one of the keys is at fault.
theorem exists_keyFault_of_tells {spec : Spec} {trail : Trail} {passed : List Slot}
    {entries : List (KeySpec × Spec)} {extra : Option ExtraKeys} {e : CompileError}
    (walk : Walk c.slots spec trail passed (.record entries extra))
    (blames : c.Blames [] spec e.trail e.fault) (tells : TellsOfKeys trail e) :
    ∃ i other, KeyFault (entries.map (·.1)) i other := by
  obtain ⟨home, tail, passed', fragment, same, -, only, exhibits⟩ := blames
  obtain ⟨place, fault⟩ := e
  dsimp only [TellsOfKeys] at same exhibits tells
  rcases tells with ⟨rfl, kind⟩ | ⟨step, rfl, kind⟩
  · cases exhibits with
    | duplicateField order foundEarlier namesEarlier foundLater namesLater =>
      obtain rfl : place = home := same.trans (List.append_nil home)
      obtain rfl := entries_eq_of_samePlace (only passed _ walk)
      exact ⟨_, _, .repeated foundLater namesLater order foundEarlier namesEarlier⟩
    | key found refused other => cases other.symm.trans kind
    | unknownMarker | compositeLiteral | tooFewChildren | undefinedSlot | cyclic | tooDeep =>
      cases kind
  · cases exhibits with
    | key found refused other =>
      obtain ⟨rfl, -⟩ := List.append_inj' same rfl
      obtain rfl := entries_eq_of_samePlace (only passed _ walk)
      exact ⟨_, _, .unsound found refused other⟩
    | unknownMarker | compositeLiteral | tooFewChildren | undefinedSlot | duplicateField | cyclic
      | tooDeep => cases kind

/--
The keys of a record up to the first one at fault settle what compiling the record comes to, by
itself and wherever it is met in a larger specification. If no key is at fault, no error is about
the keys of the record.
-/
theorem compile_record_keys (keys : List KeySpec) :
    (∀ i e, FirstFault keys i e →
      ∀ (c : Compiler) (entries : List (KeySpec × Spec)) (extra : Option ExtraKeys),
        keys.take (i + 1) <+: entries.map (·.1) →
        (∀ next, c.compile (.record entries extra) next = .error e) ∧
          ∀ spec next call, ReflTransGen c.Makes (c.start spec next) call →
            call.spec = .record entries extra → call.depth ≤ c.options.maxDepth →
            c.compile spec next = .error ⟨call.trail ++ e.trail, e.fault⟩) ∧
    ((∀ i e, ¬ KeyFault keys i e) →
      ∀ (c : Compiler) (entries : List (KeySpec × Spec)) (extra : Option ExtraKeys),
        entries.map (·.1) = keys →
        ∀ spec trail passed, Walk c.slots spec trail passed (.record entries extra) →
          ∀ next e, c.compile spec next = .error e → ¬ TellsOfKeys trail e) := by
  constructor
  · intro i e first c entries extra known
    have inside (spec : Spec) (next : Handle) (call : Call)
        (made : ReflTransGen c.Makes (c.start spec next) call)
        (here : call.spec = .record entries extra) (fits : call.depth ≤ c.options.maxDepth) :
        c.compile spec next = .error ⟨call.trail ++ e.trail, e.fault⟩ := by
      rw [compile_eq_run, run_error_of_made made (first.call_run known here fits)]
      rfl
    exact ⟨fun next => inside _ next _ .refl rfl (Nat.zero_le _), inside⟩
  · rintro faultless c entries extra rfl spec trail passed walk next e refused tells
    obtain ⟨i, other, fault⟩ := exists_keyFault_of_tells walk (blames_of_compile refused) tells
    exact faultless i other fault

-- The second key has a name that can be read and a member that is not known; the third comes too
-- late to be told of. None of the values compiles.
def tangledKeys : List KeySpec :=
  [.required "id", .raw (.object [("name", .string "tag"), ("tags", .null)]), .required "id"]

def tangledFault : CompileError :=
  ⟨[.field "tag"], .unsupportedKey (.object [("name", .string "tag"), ("tags", .null)])⟩

def tangled : Spec :=
  .record (tangledKeys.zip [.marker "?", .slot 7, .literal (.array [])]) none

-- The key is sound, but the record that it has for a value has a name twice.
def nestedTwins : Spec :=
  .record [(.required "id", .record [(.required "x", .slot 7), (.required "x", .slot 7)] none)] none

theorem compile_tangled :
    FirstFault tangledKeys 1 tangledFault ∧
      endless.compile tangled 0 = .error tangledFault ∧
      endless.compile (.listOf tangled) 0 =
        .error ⟨[.index 0, .field "tag"], tangledFault.fault⟩ ∧
      endless.compile nestedTwins 0 = .error ⟨[.field "id"], .duplicateField "x"⟩ ∧
      ¬ TellsOfKeys [] ⟨[.field "id"], .duplicateField "x"⟩ := by
  have before : Declares [] [.required "id"] [⟨"id", .required, none⟩] :=
    (declared_ok_iff 0 [] _ _).mp rfl
  have found : tangledKeys[1]? = some tangledKeys[1] := rfl
  have first : FirstFault tangledKeys 1 tangledFault :=
    firstFault_iff.mpr ⟨.unsound found rfl rfl, _, before⟩
  have settled := (compile_record_keys tangledKeys).1 1 tangledFault first endless
    (tangledKeys.zip [.marker "?", .slot 7, .literal (.array [])]) none ⟨[.required "id"], rfl⟩
  have split : (Spec.listOf tangled).parts = [] ++ (.index 0, tangled) :: [] := rfl
  have passed : (endless.buildParts (endless.openSlot endless.allSlots) [] 1 []).run ⟨0, []⟩ =
      .ok ([], ⟨0, []⟩) := rfl
  have listed : endless.Makes (endless.start (.listOf tangled) 0)
      ⟨endless.allSlots, tangled, [.index 0], 1, ⟨0, []⟩⟩ :=
    .part (Nat.zero_le _) rfl split passed
  have refused : endless.compile nestedTwins 0 = .error ⟨[.field "id"], .duplicateField "x"⟩ := by
    with_unfolding_all rfl
  have silent := (compile_record_keys [.required "id"]).2 (not_keyFault_of_declares before) endless
    [(.required "id", .record [(.required "x", .slot 7), (.required "x", .slot 7)] none)] none rfl
    nestedTwins [] [] .here 0
  exact ⟨first, settled.1 0, settled.2 _ 0 _ (.single listed) rfl (by decide), refused,
    silent _ refused⟩

end Conform.Compiler
