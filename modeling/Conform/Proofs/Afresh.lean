import Conform.Proofs.Denotation

set_option autoImplicit false

/-!
The compiler without its table of finished slots: every mention of a slot compiles the
definition again, at the place and the depth of the mention.
-/

namespace Conform.Compiler

open Compiling

def reopenSlot (c : Compiler) (idle : List Slot) : Opener := fun slot trail depth =>
  match c.slots.get? slot with
  | none => fail trail .undefinedSlot
  | some definition =>
    if _waits : slot ∈ idle then
      c.build (reopenSlot c (idle.erase slot)) definition trail depth
    else
      fail trail .cyclic
termination_by idle.length
decreasing_by exact length_erase_lt _waits

def afresh (c : Compiler) (idle : List Slot) (spec : Spec) (trail : Trail) (depth : Nat)
    (p : Progress) : Except CompileError (Validator Handle × Progress) :=
  (c.build (c.reopenSlot idle) spec trail depth).run p

def afreshAll (c : Compiler) (idle : List Slot) (parts : List (Step × Spec)) (trail : Trail)
    (depth : Nat) (p : Progress) : Except CompileError (List (Validator Handle) × Progress) :=
  (c.buildParts (c.reopenSlot idle) trail depth parts).run p

def compileAfresh (c : Compiler) (spec : Spec) (next : Handle) :
    Except CompileError (Validator Handle × Handle) :=
  (c.afresh c.allSlots spec [] 0 ⟨next, []⟩).map fun (v, progress) => (v, progress.next)

theorem reopenSlot_run (c : Compiler) (idle : List Slot) (slot : Slot) (trail : Trail)
    (depth : Nat) (p : Progress) :
    (c.reopenSlot idle slot trail depth).run p =
      match c.slots.get? slot with
      | none => .error ⟨trail, .undefinedSlot⟩
      | some definition =>
        if slot ∈ idle then c.afresh (idle.erase slot) definition trail depth p
        else .error ⟨trail, .cyclic⟩ := by
  rw [reopenSlot]
  cases c.slots.get? slot with
  | none => rfl
  | some definition =>
    dsimp only
    split <;> rfl

theorem afresh_eq (c : Compiler) (idle : List Slot) (spec : Spec) (trail : Trail) (depth : Nat)
    (p : Progress) :
    c.afresh idle spec trail depth p =
      if c.options.maxDepth < depth then
        .error ⟨trail, .tooDeep c.options.maxDepth⟩
      else
        match c.plan spec with
        | .leaf entry =>
          let (v, next) := entry.instantiate.run p.next
          .ok (v, { p with next })
        | .container frame =>
          (c.afreshAll idle spec.parts trail (depth + 1) p).map fun (vs, q) =>
            (frame.join c.options.failFast q.next vs, { q with next := q.next + 1 })
        | .mention slot =>
          match c.slots.get? slot with
          | none => .error ⟨trail, .undefinedSlot⟩
          | some definition =>
            if slot ∈ idle then c.afresh (idle.erase slot) definition trail depth p
            else .error ⟨trail, .cyclic⟩
        | .faulty e => .error ⟨trail ++ e.trail, e.fault⟩ := by
  rw [afresh, build_eq]
  split
  next => rfl
  next =>
    cases c.plan spec with
    | leaf entry => rfl
    | container frame => rw [carryOut_container_run]; rfl
    | mention slot => rw [carryOut, reopenSlot_run]
    | faulty e => rfl

theorem afreshAll_cons (c : Compiler) (idle : List Slot) (step : Step) (spec : Spec)
    (rest : List (Step × Spec)) (trail : Trail) (depth : Nat) (p : Progress) :
    c.afreshAll idle ((step, spec) :: rest) trail depth p =
      match c.afresh idle spec (trail ++ [step]) depth p with
      | .error e => .error e
      | .ok (v, q) => (c.afreshAll idle rest trail depth q).map fun (vs, r) => (v :: vs, r) :=
  buildParts_run_cons c (c.reopenSlot idle) trail depth step spec rest p

theorem afreshAll_append (c : Compiler) (idle : List Slot) (before rest : List (Step × Spec))
    (trail : Trail) (depth : Nat) (p : Progress) :
    c.afreshAll idle (before ++ rest) trail depth p =
      match c.afreshAll idle before trail depth p with
      | .error e => .error e
      | .ok (vs, q) =>
        (c.afreshAll idle rest trail depth q).map fun (ws, r) => (vs ++ ws, r) :=
  buildParts_run_append c (c.reopenSlot idle) trail depth before rest p

-- A run gives what is expected, or it gets too deep at one of these places below its start.
def Redoes {α β : Type} (c : Compiler) (view : α → β) (trail : Trail) (late : Trail → Prop)
    (expected : Except CompileError β) (result : Except CompileError (α × Progress)) : Prop :=
  result.map (fun made => view made.1) = expected ∨
    ∃ rest, late rest ∧ result = .error ⟨trail ++ rest, .tooDeep c.options.maxDepth⟩

section

variable {α β : Type} {c : Compiler} {view : α → β} {trail : Trail} {late : Trail → Prop}

theorem redoes_ok {made : α} {expected : β} {q : Progress} (same : view made = expected) :
    c.Redoes view trail late (.ok expected) (.ok (made, q)) :=
  .inl (congrArg Except.ok same)

theorem redoes_tooDeep {expected : Except CompileError β} {rest : Trail} (place : late rest) :
    c.Redoes view trail late expected
      (.error ⟨trail ++ rest, .tooDeep c.options.maxDepth⟩) :=
  .inr ⟨rest, place, rfl⟩

theorem redoes_here {expected : Except CompileError β} (place : late []) :
    c.Redoes view trail late expected (.error ⟨trail, .tooDeep c.options.maxDepth⟩) := by
  simpa using redoes_tooDeep place

theorem Redoes.imp {late' : Trail → Prop} {expected : Except CompileError β}
    {result : Except CompileError (α × Progress)} (places : ∀ rest, late rest → late' rest)
    (redoes : c.Redoes view trail late expected result) :
    c.Redoes view trail late' expected result :=
  redoes.imp_right fun ⟨rest, place, same⟩ => ⟨rest, places rest place, same⟩

theorem Redoes.of_ok {expected : β} {result : Except CompileError (α × Progress)}
    (redoes : c.Redoes view trail late (.ok expected) result) :
    (∃ made q, view made = expected ∧ result = .ok (made, q)) ∨
      ∃ rest, late rest ∧ result = .error ⟨trail ++ rest, .tooDeep c.options.maxDepth⟩ := by
  refine redoes.imp_left fun same => ?_
  cases result with
  | error e => cases same
  | ok made => exact ⟨made.1, made.2, Except.ok.inj same, rfl⟩

theorem Redoes.of_error {e : CompileError} {result : Except CompileError (α × Progress)}
    (redoes : c.Redoes view trail late (.error e) result) :
    result = .error e ∨
      ∃ rest, late rest ∧ result = .error ⟨trail ++ rest, .tooDeep c.options.maxDepth⟩ := by
  refine redoes.imp_left fun same => ?_
  cases result with
  | error other => exact congrArg Except.error (Except.error.inj same)
  | ok made => cases same

end

section

variable {c : Compiler} {idle : List Slot} {spec : Spec} {trail : Trail} {depth : Nat}
  {p : Progress} {late : Trail → Prop}

theorem redoes_deep {expected : Except CompileError (Validator Unit)}
    (deep : c.options.maxDepth < depth) (place : late []) :
    c.Redoes Validator.shape trail late expected (c.afresh idle spec trail depth p) := by
  rw [afresh_eq, if_pos deep]
  exact redoes_here place

theorem redoes_leaf {entry : Entry} (fits : depth ≤ c.options.maxDepth)
    (planned : c.plan spec = .leaf entry) :
    c.Redoes Validator.shape trail late (.ok entry.shape) (c.afresh idle spec trail depth p) := by
  rw [afresh_eq, if_neg (Nat.not_lt.mpr fits), planned]
  exact redoes_ok (Entry.instantiate_shape rfl)

theorem redoes_container {frame : Frame} {shapes : List (Validator Unit)} {inside : Trail → Prop}
    (fits : depth ≤ c.options.maxDepth) (planned : c.plan spec = .container frame)
    (places : ∀ rest, inside rest → late rest)
    (parts : c.Redoes (List.map Validator.shape) trail inside (.ok shapes)
      (c.afreshAll idle spec.parts trail (depth + 1) p)) :
    c.Redoes Validator.shape trail late (.ok (frame.join c.options.failFast () shapes))
      (c.afresh idle spec trail depth p) := by
  rw [afresh_eq, if_neg (Nat.not_lt.mpr fits), planned]
  dsimp only
  rcases parts.of_ok with ⟨vs, q, same, result⟩ | ⟨rest, place, result⟩
  · rw [result]
    refine redoes_ok ?_
    rw [Frame.join_shape, same]
  · rw [result]
    exact redoes_tooDeep (places rest place)

theorem redoes_part {frame : Frame} {before after : List (Step × Spec)} {step : Step}
    {part : Spec} {shapes : List (Validator Unit)} {e : CompileError} {earlier below : Trail → Prop}
    (fits : depth ≤ c.options.maxDepth) (planned : c.plan spec = .container frame)
    (split : spec.parts = before ++ (step, part) :: after)
    (earlierLate : ∀ rest, earlier rest → late rest)
    (belowLate : ∀ rest, below rest → late (step :: rest))
    (passed : c.Redoes (List.map Validator.shape) trail earlier (.ok shapes)
      (c.afreshAll idle before trail (depth + 1) p))
    (failed : ∀ q, c.Redoes Validator.shape (trail ++ [step]) below (.error e)
      (c.afresh idle part (trail ++ [step]) (depth + 1) q)) :
    c.Redoes Validator.shape trail late (.error e) (c.afresh idle spec trail depth p) := by
  rw [afresh_eq, if_neg (Nat.not_lt.mpr fits), planned, split]
  dsimp only
  rw [afreshAll_append]
  rcases passed.of_ok with ⟨vs, q, -, result⟩ | ⟨rest, place, result⟩
  · rw [result]
    dsimp only
    rw [afreshAll_cons]
    rcases (failed q).of_error with result | ⟨rest, place, result⟩
    · rw [result]
      exact .inl rfl
    · rw [result, List.append_assoc]
      exact redoes_tooDeep (belowLate rest place)
  · rw [result]
    exact redoes_tooDeep (earlierLate rest place)

theorem redoes_slot {slot : Slot} {definition : Spec}
    {expected : Except CompileError (Validator Unit)} (fits : depth ≤ c.options.maxDepth)
    (defined : c.slots.get? slot = some definition) (waits : slot ∈ idle)
    (inner : c.Redoes Validator.shape trail late expected
      (c.afresh (idle.erase slot) definition trail depth p)) :
    c.Redoes Validator.shape trail late expected (c.afresh idle (.slot slot) trail depth p) := by
  rw [afresh_eq, if_neg (Nat.not_lt.mpr fits)]
  simp only [plan, defined, if_pos waits]
  exact inner

theorem redoesAll_cons {step : Step} {rest : List (Step × Spec)} {shape : Validator Unit}
    {shapes : List (Validator Unit)} {below after : Trail → Prop}
    (belowLate : ∀ rest, below rest → late (step :: rest))
    (afterLate : ∀ rest, after rest → late rest)
    (first : c.Redoes Validator.shape (trail ++ [step]) below (.ok shape)
      (c.afresh idle spec (trail ++ [step]) depth p))
    (others : ∀ q, c.Redoes (List.map Validator.shape) trail after (.ok shapes)
      (c.afreshAll idle rest trail depth q)) :
    c.Redoes (List.map Validator.shape) trail late (.ok (shape :: shapes))
      (c.afreshAll idle ((step, spec) :: rest) trail depth p) := by
  rw [afreshAll_cons]
  rcases first.of_ok with ⟨v, q, rfl, result⟩ | ⟨rest, place, result⟩
  · rw [result]
    dsimp only
    rcases (others q).of_ok with ⟨vs, r, rfl, results⟩ | ⟨rest, place, results⟩
    · rw [results]
      exact redoes_ok rfl
    · rw [results]
      exact redoes_tooDeep (afterLate rest place)
  · rw [result, List.append_assoc]
    exact redoes_tooDeep (belowLate rest place)

end

variable {c : Compiler}

theorem Denotes.waits_inside {slot : Slot} {definition : Spec} {shape : Validator Unit}
    {idle : List Slot} (denotes : c.Denotes (.slot slot) shape)
    (defined : c.slots.get? slot = some definition)
    (waits : ∀ other, Reaches c.slots (.slot slot) (.slot other) → other ∈ idle) :
    ∀ other, Reaches c.slots definition (.slot other) → other ∈ idle.erase slot := by
  intro other reaches
  have apart : other ≠ slot := by
    rintro rfl
    exact not_reaches_self_of_acc denotes.acc defined reaches
  refine (List.mem_erase_of_ne apart).mpr (waits other ?_)
  exact (reaches_slot_of_defined defined).mpr (.inr reaches)

mutual

-- With all its slots idle, what can be compiled is compiled again, if it is not too deep now.
theorem Denotes.redone {spec : Spec} {shape : Validator Unit} : c.Denotes spec shape →
    ∀ (idle : List Slot), (∀ slot, Reaches c.slots spec (.slot slot) → slot ∈ idle) →
    ∀ (trail : Trail) (depth : Nat) (p : Progress),
      c.Redoes Validator.shape trail (fun rest => rest = [] → c.options.maxDepth < depth)
        (.ok shape) (c.afresh idle spec trail depth p)
  | .leaf planned, idle, waits, trail, depth, p => by
    by_cases fits : depth ≤ c.options.maxDepth
    · exact redoes_leaf fits planned
    · have deep := Nat.lt_of_not_le fits
      exact redoes_deep deep fun _ => deep
  | .container planned parts, idle, waits, trail, depth, p => by
    have all := parts.redone idle
    by_cases fits : depth ≤ c.options.maxDepth
    · refine redoes_container fits planned (fun rest place empty => absurd empty place) ?_
      refine all (fun child member slot reaches => ?_) _ (parts_container planned).1 _ _ _
      have apart := ne_slot_of_plan_container planned
      exact waits slot ((reaches_slot_iff_child apart).mpr ⟨child, member, reaches⟩)
    · have deep := Nat.lt_of_not_le fits
      exact redoes_deep deep fun _ => deep
  | .slot defined inner, idle, waits, trail, depth, p => by
    have again := inner.redone
    have waitsInside := (Denotes.slot defined inner).waits_inside defined waits
    by_cases fits : depth ≤ c.options.maxDepth
    · exact redoes_slot fits defined (waits _ .refl) (again _ waitsInside trail depth p)
    · have deep := Nat.lt_of_not_le fits
      exact redoes_deep deep fun _ => deep

theorem DenotesAll.redone {specs : List Spec} {shapes : List (Validator Unit)} :
    c.DenotesAll specs shapes →
    ∀ (idle : List Slot),
      (∀ spec ∈ specs, ∀ slot, Reaches c.slots spec (.slot slot) → slot ∈ idle) →
    ∀ (parts : List (Step × Spec)), parts.map (·.2) = specs →
    ∀ (trail : Trail) (depth : Nat) (p : Progress),
      c.Redoes (List.map Validator.shape) trail (fun rest => rest ≠ []) (.ok shapes)
        (c.afreshAll idle parts trail depth p)
  | .nil, idle, waits, parts, same, trail, depth, p => by
    obtain rfl := List.map_eq_nil_iff.mp same
    exact redoes_ok rfl
  | .cons first others, idle, waits, parts, same, trail, depth, p => by
    have head := first.redone idle (waits _ (by simp))
    have tail := others.redone idle fun spec member => waits spec (by simp [member])
    obtain ⟨⟨step, spec⟩, rest, rfl, rfl, remaining⟩ := List.map_eq_cons_iff.mp same
    exact redoesAll_cons (fun below _ => List.cons_ne_nil step below) (fun _ place => place)
      (head _ _ _) (tail rest remaining trail depth)

end

end Conform.Compiler
