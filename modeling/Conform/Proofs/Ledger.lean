import Conform.Proofs.Occurrence
import Conform.Proofs.Openings

set_option autoImplicit false

/-!
A ledger of a run: which tag was handed out for which occurrence of a fragment. No occurrence is
entered twice and no tag is used twice, and the validators that are made follow the ledger and
the slots that are finished.
-/

namespace Conform

open Relation

theorem Validator.instantiate_tag {pattern : Validator Unit} {v : Validator Handle}
    {next after : Handle} (made : pattern.instantiate.run next = (v, after)) :
    v.tag = next ∧ next < after := by
  obtain rfl : (pattern.instantiate.run next).1 = v := congrArg Prod.fst made
  obtain rfl : (pattern.instantiate.run next).2 = after := congrArg Prod.snd made
  have some : 0 < (pattern.instantiate.run next).1.tags.length := by
    cases pattern <;> exact Nat.succ_pos _
  constructor
  · cases pattern <;> rfl
  · rw [(instantiate_numbered pattern next).last]
    exact Nat.lt_add_of_pos_right some

namespace Compiler

abbrev Ledger := List (Occurrence × Handle)

mutual

/-- A validator stands for a fragment, with tags by the ledger and slots by what is finished. -/
inductive Placed (c : Compiler) (ledger : Ledger) (done : List (Slot × Validator Handle)) :
    Occurrence → Spec → Validator Handle → Prop
  | shared {o : Occurrence} {spec : Spec} {v : Validator Handle}
      (planned : c.plan spec = .leaf (.shared v)) : Placed c ledger done o spec v
  | made {o : Occurrence} {spec : Spec} {pattern : Validator Unit} {v : Validator Handle}
      (planned : c.plan spec = .leaf (.factory pattern)) (entered : (o, v.tag) ∈ ledger) :
      Placed c ledger done o spec v
  | container {o : Occurrence} {spec : Spec} {frame : Frame} {tag : Handle}
      {vs : List (Validator Handle)} (planned : c.plan spec = .container frame)
      (entered : (o, tag) ∈ ledger) (parts : PlacedAll c ledger done o spec.parts vs) :
      Placed c ledger done o spec (frame.join c.options.failFast tag vs)
  | slot {o : Occurrence} {slot : Slot} {definition : Spec} {v : Validator Handle}
      (finished : done.lookup slot = some v) (defined : c.slots.get? slot = some definition)
      (inner : Placed c ledger done (.inside slot) definition v) :
      Placed c ledger done o (.slot slot) v

inductive PlacedAll (c : Compiler) (ledger : Ledger) (done : List (Slot × Validator Handle)) :
    Occurrence → List (Step × Spec) → List (Validator Handle) → Prop
  | nil {o : Occurrence} : PlacedAll c ledger done o [] []
  | cons {o : Occurrence} {step : Step} {spec : Spec} {rest : List (Step × Spec)}
      {v : Validator Handle} {vs : List (Validator Handle)}
      (first : Placed c ledger done (o.part step) spec v)
      (others : PlacedAll c ledger done o rest vs) :
      PlacedAll c ledger done o ((step, spec) :: rest) (v :: vs)

end

variable {c : Compiler} {ledger ledger' : Ledger} {first : Handle}

-- Finished slots keep their validators.
def Keeps (done done' : List (Slot × Validator Handle)) : Prop :=
  ∀ slot v, done.lookup slot = some v → done'.lookup slot = some v

theorem keeps_cons {done : List (Slot × Validator Handle)} {slot : Slot}
    (unfinished : done.lookup slot = none) (v : Validator Handle) :
    Keeps done ((slot, v) :: done) := by
  intro other w found
  have apart : other ≠ slot := by
    rintro rfl
    cases unfinished.symm.trans found
  rw [List.lookup_cons, beq_eq_false_iff_ne.mpr apart]
  exact found

mutual

theorem Placed.mono {done done' : List (Slot × Validator Handle)} (more : ledger ⊆ ledger')
    (keeps : Keeps done done') {o : Occurrence} {spec : Spec} {v : Validator Handle} :
    c.Placed ledger done o spec v → c.Placed ledger' done' o spec v
  | .shared planned => .shared planned
  | .made planned entered => .made planned (more entered)
  | .container planned entered parts =>
    .container planned (more entered) (parts.mono more keeps)
  | .slot finished defined inner => .slot (keeps _ _ finished) defined (inner.mono more keeps)

theorem PlacedAll.mono {done done' : List (Slot × Validator Handle)} (more : ledger ⊆ ledger')
    (keeps : Keeps done done') {o : Occurrence} {parts : List (Step × Spec)}
    {vs : List (Validator Handle)} :
    c.PlacedAll ledger done o parts vs → c.PlacedAll ledger' done' o parts vs
  | .nil => .nil
  | .cons first others => .cons (first.mono more keeps) (others.mono more keeps)

end

theorem PlacedAll.mem {done : List (Slot × Validator Handle)} {o : Occurrence}
    {parts : List (Step × Spec)} {vs : List (Validator Handle)} {step : Step} {part : Spec}
    (placed : c.PlacedAll ledger done o parts vs) (member : (step, part) ∈ parts) :
    ∃ (i : Nat) (w : Validator Handle), parts[i]? = some (step, part) ∧ vs[i]? = some w ∧
      c.Placed ledger done (o.part step) part w := by
  induction parts generalizing vs with
  | nil => cases member
  | cons head rest ih =>
    cases placed with
    | cons first others =>
      rcases List.mem_cons.mp member with same | member
      · cases same
        exact ⟨0, _, rfl, rfl, first⟩
      · obtain ⟨i, w, found, given, placed⟩ := ih others member
        exact ⟨i + 1, w, found, given, placed⟩

-- Where a trail leads to a fragment, the same trail leads to the validator that stands for it.
theorem Placed.at {done : List (Slot × Validator Handle)} {o target : Occurrence}
    {spec fragment : Spec} {trail : Trail} {v : Validator Handle}
    (placed : c.Placed ledger done o spec v)
    (leads : Leads c.slots o spec trail target fragment) :
    ∃ w, v.at? trail = some w ∧ c.Placed ledger done target fragment w := by
  induction leads generalizing v with
  | here => exact ⟨v, rfl, placed⟩
  | through defined _ ih =>
    cases placed with
    | shared planned | made planned | container planned => cases planned
    | slot _ defined' inner =>
      cases defined.symm.trans defined'
      exact ih inner
  | into member _ ih =>
    cases placed with
    | shared planned | made planned =>
      rw [parts_leaf planned] at member
      cases member
    | slot => cases member
    | container planned _ parts =>
      obtain ⟨i, w, found, given, placed⟩ := parts.mem member
      obtain ⟨target, here, further⟩ := ih placed
      refine ⟨target, ?_, further⟩
      rw [Validator.at?_cons_of_step (step?_join planned found given _ _), here]

/--
What a ledger has at some moment of a run. The slots of its occurrences are finished or open, and
all that is finished is entered.
-/
structure Logged (c : Compiler) (first : Handle) (idle : List Slot) (p : Progress)
    (ledger : Ledger) : Prop where
  ahead : first ≤ p.next
  bounds : ∀ entry ∈ ledger, first ≤ entry.2 ∧ entry.2 < p.next
  occurrences : (ledger.map (·.1)).Nodup
  tags : (ledger.map (·.2)).Nodup
  homes : ∀ entry ∈ ledger, ∀ slot, entry.1.home = some slot →
    slot ∈ p.done.map (·.1) ∨ slot ∉ idle
  placed : ∀ slot v, p.done.lookup slot = some v →
    ∀ o, c.Placed ledger p.done o (.slot slot) v

/-- From one moment to a later one, entries are made for these occurrences and in idle slots. -/
structure Grown (c : Compiler) (first : Handle) (idle : List Slot) (p q : Progress)
    (ledger ledger' : Ledger) (within : Occurrence → Prop) : Prop where
  logged : c.Logged first idle q ledger'
  keeps : Keeps p.done q.done
  older : ledger ⊆ ledger'
  newer : ∀ entry ∈ ledger', entry ∈ ledger ∨ within entry.1 ∨
    ∃ slot ∈ idle, entry.1.home = some slot

-- An occurrence that no entry stands within, in the root or in a slot that is open.
structure Vacant (idle : List Slot) (ledger : Ledger) (o : Occurrence) : Prop where
  clear : ∀ entry ∈ ledger, ¬ o.Covers entry.1
  home : ∀ slot ∈ idle, o.home ≠ some slot

variable {idle : List Slot} {p q : Progress}

theorem Logged.enter (logged : c.Logged first idle p ledger) {o : Occurrence}
    (apart : ∀ entry ∈ ledger, entry.1 ≠ o) (home : ∀ slot ∈ idle, o.home ≠ some slot)
    {next : Handle} (later : p.next < next) :
    c.Logged first idle { p with next } ((o, p.next) :: ledger) where
  ahead := logged.ahead.trans later.le
  bounds := by
    refine List.forall_mem_cons.mpr ⟨⟨logged.ahead, later⟩, fun entry member => ?_⟩
    have bounds := logged.bounds entry member
    exact ⟨bounds.1, bounds.2.trans later⟩
  occurrences := by
    refine List.nodup_cons.mpr ⟨fun member => ?_, logged.occurrences⟩
    obtain ⟨entry, inside, same⟩ := List.mem_map.mp member
    exact apart entry inside same
  tags := by
    refine List.nodup_cons.mpr ⟨fun member => ?_, logged.tags⟩
    obtain ⟨entry, inside, same⟩ := List.mem_map.mp member
    exact absurd same (logged.bounds entry inside).2.ne
  homes := by
    refine List.forall_mem_cons.mpr ⟨fun slot here => ?_, logged.homes⟩
    exact .inr fun waits => home slot waits here
  placed slot v found o' :=
    (logged.placed slot v found o').mono (List.subset_cons_self _ _) fun _ _ found => found

theorem Vacant.part {o : Occurrence} {step : Step} (vacant : Vacant idle ledger o) :
    Vacant idle ledger (o.part step) where
  clear entry member covers := vacant.clear entry member (Occurrence.covers_of_part covers)
  home := vacant.home

theorem Grown.refl (logged : c.Logged first idle p ledger) (within : Occurrence → Prop) :
    c.Grown first idle p p ledger ledger within :=
  ⟨logged, fun _ _ found => found, List.Subset.refl _, fun _ member => .inl member⟩

theorem Grown.trans {r : Progress} {ledger'' : Ledger} {near far within : Occurrence → Prop}
    (grown : c.Grown first idle p q ledger ledger' near)
    (further : c.Grown first idle q r ledger' ledger'' far) (nearWithin : ∀ o, near o → within o)
    (farWithin : ∀ o, far o → within o) : c.Grown first idle p r ledger ledger'' within where
  logged := further.logged
  keeps slot v found := further.keeps slot v (grown.keeps slot v found)
  older := List.Subset.trans grown.older further.older
  newer entry member := by
    rcases further.newer entry member with old | late | inside
    · rcases grown.newer entry old with older | early | inside
      · exact .inl older
      · exact .inr (.inl (nearWithin _ early))
      · exact .inr (.inr inside)
    · exact .inr (.inl (farWithin _ late))
    · exact .inr (.inr inside)

-- A tag for the fragment at an occurrence, where only parts of it were entered before.
theorem Grown.enter {o : Occurrence} {inner : Occurrence → Prop}
    (grown : c.Grown first idle p q ledger ledger' inner) (vacant : Vacant idle ledger o)
    (parts : ∀ other, inner other → ∃ step, (o.part step).Covers other) {next : Handle}
    (later : q.next < next) :
    c.Grown first idle p { q with next } ledger ((o, q.next) :: ledger') o.Covers where
  logged := by
    refine grown.logged.enter ?_ vacant.home later
    rintro entry member rfl
    rcases grown.newer entry member with old | inside | ⟨slot, waits, home⟩
    · exact vacant.clear entry old entry.1.covers_self
    · obtain ⟨step, covers⟩ := parts _ inside
      exact Occurrence.not_part_covers _ step covers
    · exact vacant.home slot waits home
  keeps := grown.keeps
  older := List.subset_cons_of_subset _ grown.older
  newer := by
    refine List.forall_mem_cons.mpr ⟨.inr (.inl o.covers_self), fun entry member => ?_⟩
    refine (grown.newer entry member).imp_right (Or.imp_left fun inside => ?_)
    obtain ⟨step, covers⟩ := parts _ inside
    exact Occurrence.covers_of_part covers

-- What was entered for one part leaves the others vacant.
theorem Grown.vacant {o : Occurrence} {step other : Step}
    (grown : c.Grown first idle p q ledger ledger' (o.part step).Covers)
    (vacant : Vacant idle ledger (o.part other)) (apart : step ≠ other) :
    Vacant idle ledger' (o.part other) where
  clear entry member covers := by
    rcases grown.newer entry member with old | inside | ⟨slot, waits, home⟩
    · exact vacant.clear entry old covers
    · exact apart (Occurrence.eq_of_parts_cover inside covers)
    · exact vacant.home slot waits (covers.1.symm.trans home)
  home := vacant.home

-- Before a slot is opened nothing of its definition is entered.
theorem Logged.open {slot : Slot} (logged : c.Logged first idle p ledger) (nodup : idle.Nodup)
    (unfinished : p.done.lookup slot = none) (waits : slot ∈ idle) :
    c.Logged first (idle.erase slot) p ledger ∧
      Vacant (idle.erase slot) ledger (.inside slot) := by
  constructor
  · obtain ⟨ahead, bounds, occurrences, tags, homes, placed⟩ := logged
    refine ⟨ahead, bounds, occurrences, tags, fun entry member other home => ?_, placed⟩
    exact (homes entry member other home).imp_right fun busy waits =>
      busy (List.mem_of_mem_erase waits)
  · constructor
    · intro entry member covers
      rw [Progress.lookup_done_eq_none] at unfinished
      exact (logged.homes entry member slot covers.1).elim unfinished fun busy => busy waits
    · intro other waits same
      cases same
      exact nodup.not_mem_erase waits

theorem Grown.finish {slot : Slot} {v : Validator Handle}
    (grown : c.Grown first (idle.erase slot) p q ledger ledger' (Occurrence.inside slot).Covers)
    (waits : slot ∈ idle) (unfinished : q.done.lookup slot = none)
    (placed : ∀ o, c.Placed ledger' ((slot, v) :: q.done) o (.slot slot) v)
    (within : Occurrence → Prop) :
    c.Grown first idle p { q with done := (slot, v) :: q.done } ledger ledger' within := by
  have keeps := keeps_cons unfinished v
  obtain ⟨⟨ahead, bounds, occurrences, tags, homes, finished⟩, kept, older, newer⟩ := grown
  refine ⟨⟨ahead, bounds, occurrences, tags, ?_, ?_⟩, ?_, older, ?_⟩
  · intro entry member other home
    by_cases same : other = slot
    · exact .inl (same ▸ List.mem_cons_self)
    · refine (homes entry member other home).imp (List.mem_cons_of_mem _) fun busy waits => ?_
      exact busy ((List.mem_erase_of_ne same).mpr waits)
  · refine Progress.forall_lookup_cons placed fun other w found o => ?_
    exact (finished other w found o).mono (List.Subset.refl _) keeps
  · exact fun other w found => keeps other w (kept other w found)
  · intro entry member
    refine (newer entry member).imp_right fun inside => .inr ?_
    rcases inside with covers | ⟨other, waits, home⟩
    · exact ⟨slot, waits, covers.1⟩
    · exact ⟨other, List.mem_of_mem_erase waits, home⟩

theorem placed_leaf {spec : Spec} {entry : Entry} {v : Validator Handle} {next : Handle}
    (planned : c.plan spec = .leaf entry) (made : entry.instantiate.run p.next = (v, next))
    {o : Occurrence} (logged : c.Logged first idle p ledger) (vacant : Vacant idle ledger o) :
    ∃ ledger', c.Grown first idle p { p with next } ledger ledger' o.Covers ∧
      c.Placed ledger' p.done o spec v := by
  cases entry with
  | shared w =>
    cases made
    exact ⟨ledger, .refl logged _, .shared planned⟩
  | factory pattern =>
    obtain ⟨tag, later⟩ := Validator.instantiate_tag made
    have grown := (Grown.refl logged fun _ => False).enter vacant nofun later
    exact ⟨_, grown, .made planned (tag ▸ List.mem_cons_self)⟩

mutual

theorem Yields.placed {idle : List Slot} {spec : Spec} {trail : Trail} {depth : Nat}
    {p q : Progress} {v : Validator Handle} :
    c.Yields idle spec trail depth p v q → c.Settled idle p → idle.Nodup →
    ∀ {ledger : Ledger} {o : Occurrence}, c.Logged first idle p ledger → Vacant idle ledger o →
      ∃ ledger', c.Grown first idle p q ledger ledger' o.Covers ∧
        c.Placed ledger' q.done o spec v
  | .leaf fits planned made, settled, nodup, ledger, o, logged, vacant =>
    placed_leaf planned made logged vacant
  | .container fits planned parts, settled, nodup, ledger, o, logged, vacant => by
    have apart := (parts_container planned).2
    obtain ⟨ledger', grown, placed⟩ :=
      parts.placed settled nodup apart logged fun _ _ => vacant.part
    have entered := grown.enter vacant (fun _ inside => inside) (Nat.lt_succ_self _)
    refine ⟨_, entered, .container planned List.mem_cons_self (placed.mono ?_ ?_)⟩
    · exact List.subset_cons_self _ _
    · exact fun _ _ found => found
  | .again fits finished, settled, nodup, ledger, o, logged, vacant =>
    ⟨ledger, .refl logged _, logged.placed _ _ finished o⟩
  | .opened fits unfinished defined waits inner, settled, nodup, ledger, o, logged, vacant => by
    obtain ⟨opened, inside⟩ := logged.open nodup unfinished waits
    obtain ⟨ledger', grown, placed⟩ :=
      inner.placed (settled.open unfinished) (nodup.erase _) opened inside
    have after := unfinished_inside settled unfinished defined inner
    have placed' : ∀ o, c.Placed ledger' ((_, _) :: _) o (.slot _) _ := fun o =>
      .slot (List.lookup_cons_self ..) defined
        (placed.mono (List.Subset.refl _) (keeps_cons after _))
    exact ⟨ledger', grown.finish waits after placed' _, placed' o⟩

theorem YieldsAll.placed {idle : List Slot} {parts : List (Step × Spec)} {trail : Trail}
    {depth : Nat} {p q : Progress} {vs : List (Validator Handle)} :
    c.YieldsAll idle parts trail depth p vs q → c.Settled idle p → idle.Nodup →
    (parts.map (·.1)).Nodup → ∀ {ledger : Ledger} {o : Occurrence},
      c.Logged first idle p ledger →
      (∀ step ∈ parts.map (·.1), Vacant idle ledger (o.part step)) →
      ∃ ledger', c.Grown first idle p q ledger ledger'
          (fun other => ∃ step, (o.part step).Covers other) ∧
        c.PlacedAll ledger' q.done o parts vs
  | .nil, settled, nodup, apart, ledger, o, logged, vacant =>
    ⟨ledger, .refl logged _, .nil⟩
  | .cons first others, settled, nodup, apart, ledger, o, logged, vacant => by
    rw [List.map_cons, List.nodup_cons] at apart
    rw [List.map_cons, List.forall_mem_cons] at vacant
    obtain ⟨middle, grown, placed⟩ := first.placed settled nodup logged vacant.1
    have clear := fun step member => grown.vacant (vacant.2 step member) fun same =>
      apart.1 (same ▸ member)
    obtain ⟨ledger', further, placedAll⟩ := others.placed (first.completed settled).2.settled
      nodup apart.2 grown.logged clear
    refine ⟨ledger', grown.trans further (fun _ covers => ⟨_, covers⟩) fun _ inside => inside, ?_⟩
    exact .cons (placed.mono further.older further.keeps) placedAll

end

theorem placed_of_compile {spec : Spec} {next after : Handle} {v : Validator Handle}
    (compiled : c.compile spec next = .ok (v, after)) :
    ∃ ledger done, (∀ entry ∈ ledger, next ≤ entry.2 ∧ entry.2 < after) ∧
      (ledger.map (·.1)).Nodup ∧ (ledger.map (·.2)).Nodup ∧ c.Placed ledger done .root spec v := by
  obtain ⟨q, yields⟩ := yields_of_compile compiled
  obtain rfl : q.next = after := by
    rw [compile_of_yields yields] at compiled
    cases compiled
    rfl
  have empty : c.Logged next c.allSlots ⟨next, []⟩ [] :=
    ⟨Nat.le_refl _, nofun, .nil, .nil, nofun, nofun⟩
  have vacant : Vacant c.allSlots [] .root := ⟨nofun, nofun⟩
  obtain ⟨ledger, grown, placed⟩ :=
    yields.placed (c.settled_start next) List.nodup_range empty vacant
  exact ⟨ledger, q.done, grown.logged.bounds, grown.logged.occurrences, grown.logged.tags, placed⟩

end Compiler

end Conform
