import Conform.Schema.Compile

set_option autoImplicit false

/-!
What the keys of a record declare, each and all together, and what is wrong with them otherwise.
-/

namespace Conform

def KeySpec.Names (key : KeySpec) (name : String) : Prop :=
  ∃ field, key.resolve = .ok field ∧ field.name = name

theorem KeySpec.kind_of_refused {key : KeySpec} {fault : Fault}
    (refused : key.resolve = .error fault) : fault.kind = .unrecognizedKey := by
  have bare (name : String) (absence : Absence) (h : KeySpec.bare name absence = .error fault) :
      fault.kind = .unrecognizedKey := by
    rw [KeySpec.bare] at h
    split at h <;> cases h
    rfl
  cases key with
  | field field =>
    rw [resolve] at refused
    split at refused <;> cases refused
    rfl
  | required | default | optional => exact bare _ _ refused
  | raw value =>
    rw [resolve, ofRaw.eq_def] at refused
    split at refused
    next => exact bare _ _ refused
    next => exact bare _ _ refused
    next members =>
      split at refused
      next name named =>
        split at refused
        · cases refused
          rfl
        · split at refused
          · cases refused
            rfl
          · split at refused <;> cases refused
            rfl
      next =>
        cases refused
        rfl
    next =>
      cases refused
      rfl

namespace KeySpec

inductive States : KeySpec → String → Absence → Prop
  | field (given : Field (Validator Handle)) : States (.field given) given.name given.absence
  | required (name : String) : States (.required name) name .required
  | default (name : String) (value : Json) : States (.default name value) name (.default value)
  | optional (name : String) : States (.optional name) name .optional
  | text (name : String) : States (.raw (.string name)) name .required
  | pair (name : String) (value : Json) :
      States (.raw (.array [.string name, value])) name (.default value)
  | bareObject {members : Members Json} {name : String}
      (named : members.lookup "name" = some (.string name))
      (without : members.lookup "default" = none)
      (flag : members.lookup "optional" ≠ some (.bool true)) :
      States (.raw (.object members)) name .required
  | defaultObject {members : Members Json} {name : String} {value : Json}
      (named : members.lookup "name" = some (.string name))
      (given : members.lookup "default" = some value)
      (flag : members.lookup "optional" ≠ some (.bool true)) :
      States (.raw (.object members)) name (.default value)
  | optionalObject {members : Members Json} {name : String}
      (named : members.lookup "name" = some (.string name))
      (without : members.lookup "default" = none)
      (flag : members.lookup "optional" = some (.bool true)) :
      States (.raw (.object members)) name .optional

-- The name that a key shows, whether it can be compiled or not.
inductive Shows : KeySpec → String → Prop
  | field (given : Field (Validator Handle)) : Shows (.field given) given.name
  | required (name : String) : Shows (.required name) name
  | default (name : String) (value : Json) : Shows (.default name value) name
  | optional (name : String) : Shows (.optional name) name
  | text (name : String) : Shows (.raw (.string name)) name
  | array (name : String) (more : List Json) : Shows (.raw (.array (.string name :: more))) name
  | object {members : Members Json} {name : String}
      (named : members.lookup "name" = some (.string name)) : Shows (.raw (.object members)) name

-- The last step to a key: its name where it shows one, and its position where it does not.
inductive StepAt (key : KeySpec) (position : Nat) : Step → Prop
  | named {name : String} (shown : key.Shows name) : StepAt key position (.field name)
  | nameless (hidden : ∀ name, ¬ key.Shows name) : StepAt key position (.index position)

theorem name?_eq_some_iff {key : KeySpec} {name : String} :
    key.name? = some name ↔ key.Shows name := by
  constructor
  · intro read
    rw [name?.eq_def] at read
    split at read
    case h_7 members =>
      split at read
      next found =>
        cases read
        exact .object found
      next => cases read
    all_goals cases read
    all_goals constructor
  · intro shown
    cases shown with
    | object named => rw [name?, named]
    | _ => rfl

theorem stepAt_step (key : KeySpec) (position : Nat) :
    key.StepAt position (key.step position) := by
  rw [step]
  cases read : key.name? with
  | some name => exact .named (name?_eq_some_iff.mp read)
  | none =>
    refine .nameless fun name shown => ?_
    rw [name?_eq_some_iff.mpr shown] at read
    cases read

theorem bare_eq_ok_iff {name : String} {absence : Absence} {field : Field (Validator Handle)} :
    bare name absence = .ok field ↔ name ≠ "" ∧ field = ⟨name, absence, none⟩ := by
  by_cases empty : name = "" <;> simp [bare, empty, eq_comm]

theorem states_object {members : Members Json} {name : String} {absence : Absence}
    (named : members.lookup "name" = some (.string name))
    (said : absence? (members.lookup "default") (members.lookup "optional") = some absence) :
    States (.raw (.object members)) name absence := by
  rw [absence?.eq_def] at said
  split at said <;> cases said
  next given flag => exact .defaultObject named given (by simp [flag])
  next given flag => exact .defaultObject named given (by simp [flag])
  next without flag => exact .optionalObject named without flag
  next without flag => exact .bareObject named without (by simp [flag])
  next without flag => exact .bareObject named without (by simp [flag])

-- A loose key that declares a field has one of three forms.
theorem ofRaw_eq_ok {value : Json} {field : Field (Validator Handle)}
    (made : ofRaw value = .ok field) :
    field.name ≠ "" ∧ field.inner = none ∧
      (value = .string field.name ∧ field.absence = .required ∨
        (∃ fallback, value = .array [.string field.name, fallback] ∧
          field.absence = .default fallback) ∨
        ∃ members : Members Json, value = .object members ∧
          (∀ member ∈ members, member.1 ∈ ["name", "default", "optional"]) ∧
          members.lookup "name" = some (.string field.name) ∧
          absence? (members.lookup "default") (members.lookup "optional") =
            some field.absence) := by
  rw [ofRaw.eq_def] at made
  split at made
  next name =>
    obtain ⟨named, rfl⟩ := bare_eq_ok_iff.mp made
    exact ⟨named, rfl, .inl ⟨rfl, rfl⟩⟩
  next name fallback =>
    obtain ⟨named, rfl⟩ := bare_eq_ok_iff.mp made
    exact ⟨named, rfl, .inr (.inl ⟨fallback, rfl, rfl⟩)⟩
  next members =>
    split at made
    next name found =>
      split at made
      · cases made
      next known =>
        split at made
        · cases made
        next named =>
          split at made <;> cases made
          next absence said =>
            simp only [Bool.not_eq_true, List.any_eq_false, decide_eq_true_eq,
              Decidable.not_not] at known
            exact ⟨named, rfl, .inr (.inr ⟨members, rfl, known, found, said⟩)⟩
    next => cases made
  next => cases made

-- No key declares a field without a name, and its field has no more of it than that it says so.
theorem states_of_resolve {key : KeySpec} {field : Field (Validator Handle)}
    (resolution : key.resolve = .ok field) :
    key.States field.name field.absence ∧ field.name ≠ "" := by
  cases key with
  | field given =>
    rw [resolve] at resolution
    split at resolution <;> cases resolution
    next named => exact ⟨.field _, named⟩
  | required name | default name value | optional name =>
    obtain ⟨named, rfl⟩ := bare_eq_ok_iff.mp resolution
    exact ⟨by constructor, named⟩
  | raw value =>
    obtain ⟨named, -, ⟨rfl, said⟩ | ⟨fallback, rfl, said⟩ | ⟨members, rfl, -, found, said⟩⟩ :=
      ofRaw_eq_ok resolution
    · exact ⟨said ▸ .text field.name, named⟩
    · exact ⟨said ▸ .pair field.name fallback, named⟩
    · exact ⟨states_object found said, named⟩

end KeySpec

namespace Compiler

-- Every key gives a field, and no name comes twice or is taken already.
structure Declares (seen : List String) (keys : List KeySpec)
    (fields : List (Field (Validator Handle))) : Prop where
  resolved : keys.map KeySpec.resolve = fields.map .ok
  nodup : (fields.map (·.name)).Nodup
  unseen : ∀ field ∈ fields, field.name ∉ seen

theorem declares_cons (seen : List String) (key : KeySpec) (keys : List KeySpec)
    (field : Field (Validator Handle)) (fields : List (Field (Validator Handle))) :
    Declares seen (key :: keys) (field :: fields) ↔
      key.resolve = .ok field ∧ field.name ∉ seen ∧
        Declares (field.name :: seen) keys fields := by
  constructor
  · rintro ⟨resolved, nodup, unseen⟩
    simp only [List.map_cons, List.cons.injEq, List.nodup_cons] at resolved nodup
    refine ⟨resolved.1, unseen field (by simp), resolved.2, nodup.2, ?_⟩
    intro other member taken
    rcases List.mem_cons.mp taken with same | taken
    · exact nodup.1 (List.mem_map.mpr ⟨other, member, same⟩)
    · exact unseen other (by simp [member]) taken
  · rintro ⟨resolution, free, resolved, nodup, unseen⟩
    refine ⟨by simp [resolution, resolved], ?_, ?_⟩
    · refine List.nodup_cons.mpr ⟨?_, nodup⟩
      intro taken
      obtain ⟨other, member, same⟩ := List.mem_map.mp taken
      exact unseen other member (by simp [same])
    · intro other member
      rcases List.mem_cons.mp member with rfl | member
      · exact free
      · exact fun taken => unseen other member (List.mem_cons_of_mem _ taken)

theorem Declares.mem {seen : List String} {keys : List KeySpec}
    {fields : List (Field (Validator Handle))} {key : KeySpec}
    (declares : Declares seen keys fields) (member : key ∈ keys) :
    ∃ field ∈ fields, key.resolve = .ok field := by
  have resolved : key.resolve ∈ fields.map .ok := by
    rw [← declares.resolved]
    exact List.mem_map_of_mem member
  obtain ⟨field, inside, same⟩ := List.mem_map.mp resolved
  exact ⟨field, inside, same.symm⟩

theorem Declares.mem_names_iff {seen : List String} {keys : List KeySpec}
    {fields : List (Field (Validator Handle))} (declares : Declares seen keys fields)
    {name : String} : name ∈ fields.map (·.name) ↔ ∃ key ∈ keys, key.Names name := by
  constructor
  · intro member
    obtain ⟨field, inside, rfl⟩ := List.mem_map.mp member
    have resolved : .ok field ∈ keys.map KeySpec.resolve := by
      rw [declares.resolved]
      exact List.mem_map_of_mem inside
    obtain ⟨key, declared, same⟩ := List.mem_map.mp resolved
    exact ⟨key, declared, field, same, rfl⟩
  · rintro ⟨key, declared, field, resolved, rfl⟩
    obtain ⟨found, inside, resolved'⟩ := declares.mem declared
    cases resolved.symm.trans resolved'
    exact List.mem_map_of_mem inside

theorem Declares.distinct {seen : List String} {keys : List KeySpec}
    {fields : List (Field (Validator Handle))} (declares : Declares seen keys fields) :
    keys.Pairwise fun a b => ∀ name, a.Names name → ¬ b.Names name := by
  induction keys generalizing seen fields with
  | nil => exact .nil
  | cons key keys ih =>
    cases fields with
    | nil => simpa using declares.resolved
    | cons field fields =>
      rw [declares_cons] at declares
      obtain ⟨resolution, -, others⟩ := declares
      refine .cons ?_ (ih others)
      rintro other member name ⟨found, resolution', rfl⟩ ⟨declared, resolved, same⟩
      obtain ⟨late, inside, resolvedLate⟩ := others.mem member
      rw [resolution, Except.ok.injEq] at resolution'
      rw [resolved, Except.ok.injEq] at resolvedLate
      have unseen := others.unseen late inside
      rw [← resolvedLate, same, ← resolution'] at unseen
      exact unseen List.mem_cons_self

theorem declared_cons_eq_ok_iff {trail : Trail} {position : Nat} {seen : List String}
    {key : KeySpec} {keys : List KeySpec} {made : List (Field (Validator Handle))} :
    declared trail position seen (key :: keys) = .ok made ↔
      ∃ field fields, made = field :: fields ∧ key.resolve = .ok field ∧ field.name ∉ seen ∧
        declared trail (position + 1) (field.name :: seen) keys = .ok fields := by
  rw [declared]
  cases key.resolve with
  | error fault => simp
  | ok field =>
    by_cases taken : field.name ∈ seen
    · grind
    · cases others : declared trail (position + 1) (field.name :: seen) keys <;>
        grind [Except.map]

theorem declared_ok_iff (position : Nat) (seen : List String) (keys : List KeySpec)
    (fields : List (Field (Validator Handle))) :
    declared [] position seen keys = .ok fields ↔ Declares seen keys fields := by
  induction keys generalizing position seen fields with
  | nil =>
    constructor
    · rintro ⟨⟩
      exact ⟨rfl, .nil, by simp⟩
    · rintro ⟨resolved, -, -⟩
      cases fields with
      | nil => rfl
      | cons field fields => simp at resolved
  | cons key rest ih =>
    rw [declared_cons_eq_ok_iff]
    constructor
    · rintro ⟨field, later, rfl, resolution, free, others⟩
      exact (declares_cons _ _ _ _ _).mpr ⟨resolution, free, (ih _ _ _).mp others⟩
    · intro declares
      cases fields with
      | nil => simpa using declares.resolved
      | cons field later =>
        obtain ⟨resolution, free, others⟩ := (declares_cons _ _ _ _ _).mp declares
        exact ⟨field, later, rfl, resolution, free, (ih _ _ _).mpr others⟩

-- The two faults of keys: one of them is unsound, or its name came before.
inductive KeysAtFault (position : Nat) (seen : List String) (keys : List KeySpec) :
    CompileError → Prop
  | unsound {i : Nat} {key : KeySpec} {fault : Fault}
      (found : keys[i]? = some key) (refused : key.resolve = .error fault) :
      KeysAtFault position seen keys ⟨[key.step (position + i)], fault⟩
  | repeated {i : Nat} {key : KeySpec} {name : String}
      (found : keys[i]? = some key) (names : key.Names name)
      (before : name ∈ seen ∨ ∃ j < i, ∃ other ∈ keys[j]?, other.Names name) :
      KeysAtFault position seen keys ⟨[], .duplicateField name⟩

theorem KeysAtFault.cons {position : Nat} {seen : List String} {key : KeySpec}
    {keys : List KeySpec} {field : Field (Validator Handle)} {e : CompileError}
    (resolution : key.resolve = .ok field)
    (h : KeysAtFault (position + 1) (field.name :: seen) keys e) :
    KeysAtFault position seen (key :: keys) e := by
  cases h with
  | @unsound i bad fault found refused =>
    have shifted : position + 1 + i = position + (i + 1) := by omega
    rw [shifted]
    exact .unsound (by simpa using found) refused
  | @repeated i late name found names before =>
    refine .repeated (i := i + 1) (by simpa using found) names ?_
    rcases before with taken | ⟨j, less, other, found, names⟩
    · rcases List.mem_cons.mp taken with same | taken
      · exact .inr ⟨0, by omega, key, rfl, field, resolution, same.symm⟩
      · exact .inl taken
    · exact .inr ⟨j + 1, by omega, other, by simpa using found, names⟩

theorem declared_error (position : Nat) (seen : List String) (keys : List KeySpec)
    (e : CompileError) (failed : declared [] position seen keys = .error e) :
    KeysAtFault position seen keys e := by
  induction keys generalizing position seen with
  | nil => cases failed
  | cons key rest ih =>
    rw [declared] at failed
    cases resolution : key.resolve with
    | error fault =>
      rw [resolution] at failed
      cases failed
      exact .unsound (i := 0) rfl resolution
    | ok field =>
      rw [resolution] at failed
      dsimp only at failed
      split at failed
      next taken =>
        cases failed
        exact .repeated (i := 0) rfl ⟨field, resolution, rfl⟩ (.inl taken)
      next free =>
        cases others : declared [] (position + 1) (field.name :: seen) rest with
        | ok fields =>
          rw [others] at failed
          cases failed
        | error e' =>
          rw [others] at failed
          cases failed
          exact (ih _ _ others).cons resolution

-- The trail is only written in front of an error, so it can be left out till then.
theorem declared_trail (trail : Trail) (position : Nat) (seen : List String)
    (keys : List KeySpec) :
    declared trail position seen keys =
      (declared [] position seen keys).mapError fun e => ⟨trail ++ e.trail, e.fault⟩ := by
  induction keys generalizing position seen with
  | nil => rfl
  | cons key rest ih =>
    simp only [declared]
    cases key.resolve with
    | error fault => rfl
    | ok field =>
      dsimp only
      split
      · have place : trail = trail ++ [] := (List.append_nil trail).symm
        exact congrArg (fun here => Except.error (CompileError.mk here _)) place
      · rw [ih]
        cases declared [] (position + 1) (field.name :: seen) rest <;> rfl

end Compiler

end Conform
