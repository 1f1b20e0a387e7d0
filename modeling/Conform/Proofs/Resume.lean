import Conform.Proofs.Revisit

set_option autoImplicit false

/-!
Runs of the compiler that have more to go on. Where one run gives a validator, so does another
that has no fewer levels left and finds no fewer slots finished.
-/

namespace Conform.Compiler

def withMaxDepth (c : Compiler) (maxDepth : Nat) : Compiler :=
  { c with options := { c.options with maxDepth } }

variable {c : Compiler}

mutual

theorem Denotes.withMaxDepth (maxDepth : Nat) {spec : Spec} {shape : Validator Unit} :
    c.Denotes spec shape → (c.withMaxDepth maxDepth).Denotes spec shape
  | .leaf planned => .leaf planned
  | .container planned parts => .container planned (parts.withMaxDepth maxDepth)
  | .slot defined inner => .slot defined (inner.withMaxDepth maxDepth)

theorem DenotesAll.withMaxDepth (maxDepth : Nat) {specs : List Spec}
    {shapes : List (Validator Unit)} :
    c.DenotesAll specs shapes → (c.withMaxDepth maxDepth).DenotesAll specs shapes
  | .nil => .nil
  | .cons first others => .cons (first.withMaxDepth maxDepth) (others.withMaxDepth maxDepth)

end

theorem fits_withMaxDepth {maxDepth depth depth' : Nat} (fits : depth ≤ c.options.maxDepth)
    (levels : depth' + c.options.maxDepth ≤ depth + maxDepth) :
    depth' ≤ (c.withMaxDepth maxDepth).options.maxDepth := by
  change depth' ≤ maxDepth
  omega

theorem yields_again {idle : List Slot} {slot : Slot} {trail : Trail} {depth : Nat} {p : Progress}
    (fits : depth ≤ c.options.maxDepth) (finished : slot ∈ p.met) :
    ∃ v, c.Yields idle (.slot slot) trail depth p v p := by
  have found : p.done.lookup slot ≠ none :=
    fun missing => Progress.lookup_done_eq_none.mp missing finished
  obtain ⟨v, found⟩ := Option.ne_none_iff_exists'.mp found
  exact ⟨v, .again fits found⟩

mutual

/--
A run goes through again at any other place from which no fewer levels are left, whatever was
finished before it, as long as that is no less than before the first run.
-/
theorem Yields.resume (maxDepth : Nat) {idle : List Slot} {spec : Spec} {trail : Trail}
    {depth : Nat} {p q : Progress} {v : Validator Handle} :
    c.Yields idle spec trail depth p v q → c.Settled idle p →
    ∀ (trail' : Trail) (depth' : Nat) (p' : Progress),
      depth' + c.options.maxDepth ≤ depth + maxDepth →
      (c.withMaxDepth maxDepth).Settled idle p' → p.met ⊆ p'.met →
        ∃ v' q', (c.withMaxDepth maxDepth).Yields idle spec trail' depth' p' v' q'
  | .leaf fits planned made, settled => by
    intro trail' depth' p' levels settled' more
    exact ⟨_, _, .leaf (fits_withMaxDepth fits levels) planned rfl⟩
  | .container fits planned parts, settled => by
    intro trail' depth' p' levels settled' more
    obtain ⟨vs, q', parts'⟩ :=
      parts.resume maxDepth settled _ rfl trail' (depth' + 1) p' (by omega) settled' more
    exact ⟨_, _, .container (fits_withMaxDepth fits levels) planned parts'⟩
  | .again fits finished, settled => by
    intro trail' depth' p' levels settled' more
    have known := more (Progress.mem_done_of_lookup finished)
    obtain ⟨v, again⟩ := yields_again (fits_withMaxDepth fits levels) known
    exact ⟨v, p', again⟩
  | @Yields.opened _ _ slot _ _ _ _ _ _ fits unfinished defined waits inner, settled => by
    intro trail' depth' p' levels settled' more
    have fits' := fits_withMaxDepth fits levels
    -- what came before may have finished the slot, and then there is nothing left to do
    by_cases known : slot ∈ p'.met
    · obtain ⟨v, again⟩ := yields_again fits' known
      exact ⟨v, p', again⟩
    · have unfinished' := Progress.lookup_done_eq_none.mpr known
      obtain ⟨v, q', inner'⟩ := inner.resume maxDepth (settled.open unfinished) trail' depth' p'
        levels (settled'.open unfinished') more
      exact ⟨v, _, .opened fits' unfinished' defined waits inner'⟩

theorem YieldsAll.resume (maxDepth : Nat) {idle : List Slot} {parts : List (Step × Spec)}
    {trail : Trail} {depth : Nat} {p q : Progress} {vs : List (Validator Handle)} :
    c.YieldsAll idle parts trail depth p vs q → c.Settled idle p →
    ∀ (parts' : List (Step × Spec)), parts'.map (·.2) = parts.map (·.2) →
    ∀ (trail' : Trail) (depth' : Nat) (p' : Progress),
      depth' + c.options.maxDepth ≤ depth + maxDepth →
      (c.withMaxDepth maxDepth).Settled idle p' → p.met ⊆ p'.met →
        ∃ vs' q', (c.withMaxDepth maxDepth).YieldsAll idle parts' trail' depth' p' vs' q'
  | .nil, settled => by
    intro parts' same trail' depth' p' levels settled' more
    obtain rfl := List.map_eq_nil_iff.mp same
    exact ⟨[], p', .nil⟩
  | .cons first others, settled => by
    intro parts' same trail' depth' p' levels settled' more
    have advanced := (first.completed settled).2
    have head := first.resume maxDepth settled
    have tail := others.resume maxDepth advanced.settled
    obtain ⟨⟨step, spec⟩, rest, rfl, rfl, remaining⟩ := List.map_eq_cons_iff.mp same
    obtain ⟨v, q', first'⟩ := head (trail' ++ [step]) depth' p' levels settled' more
    have advanced' := (first'.completed settled').2
    rw [advanced.met_eq] at tail
    obtain ⟨vs, r', others'⟩ := tail rest remaining trail' depth' q' levels advanced'.settled
      (advanced'.met_eq ▸ Set.union_subset_union_left _ more)
    exact ⟨v :: vs, r', .cons first' others'⟩

end

end Conform.Compiler
