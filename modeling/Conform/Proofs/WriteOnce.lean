import Conform.Proofs.Extension

set_option autoImplicit false

/-!
Histories of slots: slots are created, get further names and are defined under any of them, and
compile calls come in between. A slot keeps its first definition, and a specification keeps its
outcome, unless that is for want of a definition.
-/

namespace Conform

structure Session where
  slots : Slots
  names : List Slot
  next : Handle

-- Names are numbered in the order in which they are given.
inductive Request where
  | create
  | copy (name : Nat)
  | define (name : Nat) (spec : Spec)
  | compile (registry : Registry) (options : Options) (spec : Spec)

namespace Session

def start (next : Handle) : Session := ⟨.empty, [], next⟩

-- The definition of a slot, as it is seen under a name.
def get? (s : Session) (name : Nat) : Option Spec := s.names[name]?.bind s.slots.get?

def define (s : Session) (name : Nat) (spec : Spec) : Except Spec Session :=
  match s.names[name]? with
  | some slot => (s.slots.define slot spec).map fun slots => { s with slots }
  | none => .error spec

def compile (s : Session) (registry : Registry) (options : Options) (spec : Spec) :
    Except CompileError (Validator Handle × Handle) :=
  Compiler.compile ⟨registry, options, s.slots⟩ spec s.next

def after (s : Session) : Request → Session
  | .create => { s with slots := s.slots.create.2, names := s.names ++ [s.slots.create.1] }
  | .copy name => { s with names := s.names ++ s.names[name]?.toList }
  | .define name spec =>
    match s.define name spec with
    | .ok t => t
    | .error _ => s
  | .compile registry options spec =>
    match s.compile registry options spec with
    | .ok (_, next) => { s with next }
    | .error _ => s

def run (s : Session) (history : List Request) : Session := history.foldl after s

-- The definition that a request has for a slot.
def asked (s : Session) (slot : Slot) : Request → Option Spec
  | .define name spec => if s.names[name]? = some slot then some spec else none
  | _ => none

-- The first definition that a history has for a slot, whether or not the slot takes it.
def given (slot : Slot) : Session → List Request → Option Spec
  | _, [] => none
  | s, request :: rest => (s.asked slot request).or (given slot (s.after request) rest)

def Sound (s : Session) : Prop := ∀ slot ∈ s.names, slot < s.slots.size

variable {s t : Session} {name : Nat} {slot : Slot} {spec : Spec}

theorem define_unknown (unknown : s.names[name]? = none) (spec : Spec) :
    s.define name spec = .error spec := by
  simp [define, unknown]

theorem define_defined {first : Spec} (named : s.names[name]? = some slot)
    (defined : s.slots.get? slot = some first) (spec : Spec) :
    s.define name spec = .error spec := by
  simp [define, named, Slots.define, Slots.define?_eq_none defined, Except.map]

theorem define_undefined (sound : s.Sound) (named : s.names[name]? = some slot)
    (undefined : s.slots.get? slot = none) (spec : Spec) :
    ∃ slots, s.slots.define? slot spec = some slots ∧
      s.define name spec = .ok { s with slots } := by
  have inside := sound slot (List.mem_of_getElem? named)
  obtain ⟨slots, defined⟩ := Slots.define?_isSome inside undefined spec
  exact ⟨slots, defined, by simp [define, named, Slots.define, defined, Except.map]⟩

theorem define_ok (ok : s.define name spec = .ok t) :
    ∃ slot slots, s.names[name]? = some slot ∧ s.slots.define? slot spec = some slots ∧
      t = { s with slots } := by
  cases named : s.names[name]? with
  | none =>
    rw [define_unknown named] at ok
    cases ok
  | some slot =>
    cases defined : s.slots.define? slot spec with
    | none =>
      simp [define, named, Slots.define, defined, Except.map] at ok
    | some slots =>
      refine ⟨slot, slots, rfl, defined, ?_⟩
      simpa [define, named, Slots.define, defined, Except.map] using ok.symm

theorem after_define_ok (ok : s.define name spec = .ok t) : s.after (.define name spec) = t := by
  simp [after, ok]

theorem after_define_error {back : Spec} (refused : s.define name spec = .error back) :
    s.after (.define name spec) = s := by
  simp [after, refused]

theorem after_compile (registry : Registry) (options : Options) (spec : Spec) :
    (s.after (.compile registry options spec)).slots = s.slots ∧
      (s.after (.compile registry options spec)).names = s.names := by
  rw [after]
  split <;> exact ⟨rfl, rfl⟩

-- What a request does to the table and to the names, all but the definitions themselves.
theorem after_grows (s : Session) (request : Request) :
    s.slots.size ≤ (s.after request).slots.size ∧ s.names <+: (s.after request).names := by
  cases request with
  | create => exact ⟨by simp [after, Slots.size_create], s.names.prefix_append _⟩
  | copy name => exact ⟨Nat.le_refl _, s.names.prefix_append _⟩
  | define name spec =>
    cases defined : s.define name spec with
    | error back => simp [after_define_error defined]
    | ok t =>
      rw [after_define_ok defined]
      obtain ⟨slot, slots, -, set, rfl⟩ := define_ok defined
      exact ⟨Nat.le_of_eq (Slots.size_define set).symm, List.prefix_rfl⟩
  | compile registry options spec =>
    simp [after_compile registry options spec]

theorem Sound.after (sound : s.Sound) (request : Request) : (s.after request).Sound := by
  have grows := (s.after_grows request).1
  intro slot member
  cases request with
  | create =>
    rcases List.mem_append.mp member with old | new
    · exact Nat.lt_of_lt_of_le (sound slot old) grows
    · have last : slot = s.slots.size := by simpa [Slots.create] using new
      simp [Session.after, Slots.size_create, last]
  | copy name =>
    rcases List.mem_append.mp member with old | copied
    · exact sound slot old
    · exact sound slot (List.mem_of_getElem? (Option.mem_toList.mp copied))
  | define name spec =>
    cases defined : s.define name spec with
    | error back =>
      rw [after_define_error defined] at member ⊢
      exact sound slot member
    | ok t =>
      rw [after_define_ok defined] at member grows ⊢
      obtain ⟨_, _, -, -, rfl⟩ := define_ok defined
      exact Nat.lt_of_lt_of_le (sound slot member) grows
  | compile registry options spec =>
    obtain ⟨slots, names⟩ := s.after_compile registry options spec
    rw [names] at member
    rw [slots]
    exact sound slot member

theorem get?_after (sound : s.Sound) (request : Request) (slot : Slot) :
    (s.after request).slots.get? slot = (s.slots.get? slot).or (s.asked slot request) := by
  cases request with
  | create => simp [after, asked, Slots.get?_create]
  | copy name => simp [after, asked]
  | compile registry options spec => simp [after_compile registry options spec, asked]
  | define name spec =>
    cases named : s.names[name]? with
    | none => simp [after_define_error (define_unknown named spec), asked, named]
    | some other =>
      cases defined : s.slots.get? other with
      | some first =>
        rw [after_define_error (define_defined named defined spec)]
        by_cases same : other = slot
        · simp [← same, defined]
        · simp [asked, named, same]
      | none =>
        obtain ⟨slots, set, taken⟩ := define_undefined sound named defined spec
        rw [after_define_ok taken, Slots.get?_define set]
        by_cases same : slot = other
        · simp [same, defined, asked, named]
        · simp [same, asked, named, Ne.symm same]

theorem Sound.run (sound : s.Sound) (history : List Request) : (s.run history).Sound := by
  induction history generalizing s with
  | nil => exact sound
  | cons request rest ih => exact ih (sound.after request)

theorem run_grows (s : Session) (history : List Request) :
    s.slots.size ≤ (s.run history).slots.size ∧ s.names <+: (s.run history).names := by
  induction history generalizing s with
  | nil => exact ⟨Nat.le_refl _, List.prefix_rfl⟩
  | cons request rest ih =>
    have first := s.after_grows request
    have others := ih (s.after request)
    exact ⟨first.1.trans others.1, first.2.trans others.2⟩

theorem get?_run (sound : s.Sound) (history : List Request) (slot : Slot) :
    (s.run history).slots.get? slot = (s.slots.get? slot).or (given slot s history) := by
  induction history generalizing s with
  | nil => simp [run, given]
  | cons request rest ih =>
    have others := ih (sound.after request)
    rw [get?_after sound, Option.or_assoc] at others
    exact others

theorem sound_start (next : Handle) : (start next).Sound := by
  simp [Sound, start]

theorem get?_run_start (next : Handle) (history : List Request) (slot : Slot) :
    ((start next).run history).slots.get? slot = given slot (start next) history := by
  have undefined : (start next).slots.get? slot = none := by
    simp [start, Slots.empty, Slots.get?]
  simp [get?_run (sound_start next), undefined]

theorem le_run (sound : s.Sound) (more : List Request) : s.slots.Le (s.run more).slots := by
  intro slot definition defined
  simp [get?_run sound, defined]

theorem getElem?_names_run (named : s.names[name]? = some slot) (more : List Request) :
    (s.run more).names[name]? = some slot := by
  obtain ⟨later, names⟩ := (s.run_grows more).2
  have inside := (List.getElem?_eq_some_iff.mp named).1
  rw [← names, List.getElem?_append_left inside, named]

theorem outcome_compile_run (sound : s.Sound) {registry : Registry} {options : Options}
    (known : ∀ trail, s.compile registry options spec ≠ .error ⟨trail, .undefinedSlot⟩)
    (more : List Request) :
    Compiler.outcome ((s.run more).compile registry options spec) =
      Compiler.outcome (s.compile registry options spec) :=
  Compiler.outcome_compile_later (le_run sound more) (s.run_grows more).1 known _

/--
A slot takes the definition that is first meant for it and shows that one under all its names. What
a compile call tells of a specification, unless it misses a definition, it tells ever after.
-/
structure WriteOnce (s : Session) (first : Slot → Option Spec) : Prop where
  taken : ∀ (name : Nat) (slot : Slot), s.names[name]? = some slot → first slot = none → ∀ spec,
    ∃ t, s.define name spec = .ok t ∧ s.after (.define name spec) = t ∧ t.names = s.names ∧
      ∀ other, t.slots.get? other = if other = slot then some spec else s.slots.get? other
  refused : ∀ (name : Nat) (slot : Slot) (definition : Spec), s.names[name]? = some slot →
    first slot = some definition →
    ∀ spec, s.define name spec = .error spec ∧ s.after (.define name spec) = s
  named : ∀ (name : Nat) (slot : Slot), s.names[name]? = some slot →
    ∀ more, (s.run more).names[name]? = some slot
  seen : ∀ slot definition, first slot = some definition →
    ∀ more (name : Nat), (s.run more).names[name]? = some slot →
      (s.run more).get? name = some definition
  stable : ∀ registry options spec,
    (∀ trail, s.compile registry options spec ≠ .error ⟨trail, .undefinedSlot⟩) →
    ∀ more, Compiler.outcome ((s.run more).compile registry options spec) =
      Compiler.outcome (s.compile registry options spec)

theorem writeOnce_run (next : Handle) (history : List Request) :
    WriteOnce ((start next).run history) fun slot => given slot (start next) history := by
  have sound := (sound_start next).run history
  have held := get?_run_start next history
  constructor
  case taken =>
    intro name slot named unasked spec
    rw [← held] at unasked
    obtain ⟨slots, set, defined⟩ := define_undefined sound named unasked spec
    exact ⟨_, defined, after_define_ok defined, rfl, Slots.get?_define set⟩
  case refused =>
    intro name slot definition named asked spec
    rw [← held] at asked
    have refused := define_defined named asked spec
    exact ⟨refused, after_define_error refused⟩
  case named =>
    intro name slot named
    exact getElem?_names_run named
  case seen =>
    intro slot definition asked more name named
    rw [← held] at asked
    simp [Session.get?, named, le_run sound more slot definition asked]
  case stable =>
    intro registry options spec known
    exact outcome_compile_run sound known

-- One slot has two names and is defined under both, with a call in between that misses the other
-- slot. That one has no definition yet, and will close a circle.
def halfDefined : List Request :=
  [.create, .create, .copy 0, .define 0 (.listOf (.slot 1)), .compile .empty {} (.slot 0),
    .define 2 (.marker "int")]

def unknownFirst : Spec := .sequence [.marker "int", .slot 0]

theorem writeOnce_halfDefined :
    let s := (start 0).run halfDefined
    let closed := s.run [.define 1 (.slot 0), .copy 2]
    s.define 2 (.marker "int") = .error (.marker "int") ∧
      closed.get? 2 = some (.listOf (.slot 1)) ∧
      closed.get? 3 = some (.listOf (.slot 1)) ∧
      Compiler.outcome (s.compile .empty {} (.slot 0)) = .error ⟨[.index 0], .undefinedSlot⟩ ∧
      Compiler.outcome (closed.compile .empty {} (.slot 0)) = .error ⟨[.index 0], .cyclic⟩ ∧
      Compiler.outcome (s.compile .empty {} unknownFirst) =
        .error ⟨[.index 0], .unknownMarker "int"⟩ ∧
      Compiler.outcome (closed.compile .empty {} unknownFirst) =
        .error ⟨[.index 0], .unknownMarker "int"⟩ := by
  intro s closed
  have once : WriteOnce s fun slot => given slot (start 0) halfDefined :=
    writeOnce_run 0 halfDefined
  have asked : given 0 (start 0) halfDefined = some (.listOf (.slot 1)) := rfl
  have names : closed.names = [0, 1, 0, 0] := by
    with_unfolding_all rfl
  have told : s.compile .empty {} unknownFirst = .error ⟨[.index 0], .unknownMarker "int"⟩ := by
    with_unfolding_all rfl
  have again : Compiler.outcome (closed.compile .empty {} unknownFirst) =
      Compiler.outcome (s.compile .empty {} unknownFirst) := by
    apply once.stable
    intro trail
    simp [told]
  rw [told] at again
  have seen : ∀ name, closed.names[name]? = some 0 →
      closed.get? name = some (.listOf (.slot 1)) :=
    once.seen 0 _ asked _
  refine ⟨(once.refused 2 0 _ ?_ asked _).1, seen 2 ?_, seen 3 ?_, ?_, ?_, ?_, again⟩
  · with_unfolding_all rfl
  · simp [names]
  · simp [names]
  · with_unfolding_all rfl
  · with_unfolding_all rfl
  · rw [told]
    rfl

end Session

end Conform
