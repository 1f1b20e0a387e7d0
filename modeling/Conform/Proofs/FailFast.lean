import Conform.Proofs.FirstFailure
import Conform.Proofs.NormalForm

set_option autoImplicit false

/-!
Stopping at the first failure is a shortcut. Whatever compiles also compiles with the other
setting, and of the two validators one accepts what the other does and ends with the failure
where the failure of the other begins.
-/

namespace Conform

variable {exact : Prop}

theorem attach_shortens {α : Type} (fields : List (Field α)) {fulls firsts : List Check}
    (shorten : List.Forall₂ (Check.Shortens exact) fulls firsts) :
    List.Forall₂ (Field.Rel (Begins exact) Eq) (List.zipWith Field.attach fields fulls)
      (List.zipWith Field.attach fields firsts) := by
  induction fields generalizing fulls firsts with
  | nil => exact .nil
  | cons field rest ih =>
    cases shorten with
    | nil => exact .nil
    | cons head tail => exact .cons ⟨rfl, rfl, fun _ _ => rfl, .some head⟩ (ih tail)

-- All alternatives fail together, and then no one of them is where their failure begins.
theorem join_shortens {ι : Type} (tag : ι) {frame : Frame} {fulls firsts : List (Validator ι)}
    (ordered : exact → frame ≠ .combinator .anyOf)
    (shorten : List.Forall₂ (fun full first => Check.Shortens exact full.check first.check)
      fulls firsts) :
    Check.Shortens exact (frame.join false tag fulls).check (frame.join true tag firsts).check := by
  have checks : List.Forall₂ (Check.Shortens exact) (fulls.map Validator.check)
      (firsts.map Validator.check) := by
    rw [List.forall₂_map_left_iff, List.forall₂_map_right_iff]
    exact shorten
  cases frame with
  | record fields extra =>
    rw [Frame.join, Frame.join, Validator.check, Validator.check, Compiler.fieldChecks_attach,
      Compiler.fieldChecks_attach]
    exact Check.record_shortens (attach_shortens fields checks) extra
  | combinator mode =>
    rw [Frame.join, Frame.join, Validator.check, Validator.check, Validator.checks_eq_map,
      Validator.checks_eq_map]
    cases mode with
    | anyOf => exact Check.anyOf_rel checks fun _ _ _ here => absurd rfl (ordered here)
    | allOf => exact Check.allOf_rel checks
  | sequence =>
    rw [← Validator.checks_eq_map, ← Validator.checks_eq_map] at checks
    cases shorten with
    | nil => exact Check.tuple_shortens checks
    | cons only rest =>
      cases rest with
      | nil => exact Check.each_shortens only
      | cons _ _ => exact Check.tuple_shortens checks

namespace Compiler

def withFailFast (c : Compiler) (failFast : Bool) : Compiler :=
  { c with options := { c.options with failFast } }

-- Two runs that are equally far, with the same tag to go on with and the same slots finished.
structure Abreast (p q : Progress) : Prop where
  next : q.next = p.next
  slots : q.done.map (·.1) = p.done.map (·.1)

theorem Abreast.lookup_eq_none {p q : Progress} (abreast : Abreast p q) {slot : Slot} :
    q.done.lookup slot = none ↔ p.done.lookup slot = none := by
  rw [Progress.lookup_done_eq_none, Progress.lookup_done_eq_none, abreast.slots]

variable {c : Compiler}

mutual

-- Plans do not depend on the setting, nor does it matter what a table holds for a slot.
theorem Yields.withFailFast (failFast : Bool) {idle : List Slot} {spec : Spec} {trail : Trail}
    {depth : Nat} {p q : Progress} {v : Validator Handle} : c.Yields idle spec trail depth p v q →
      ∀ {p'}, Abreast p p' → ∃ v' q',
        (c.withFailFast failFast).Yields idle spec trail depth p' v' q' ∧ Abreast q q'
  | .leaf fits planned made, p', abreast => by
    rw [← abreast.next] at made
    exact ⟨_, _, .leaf fits planned made, rfl, abreast.slots⟩
  | .container fits planned parts, p', abreast => by
    obtain ⟨vs, q', parts', ahead⟩ := parts.withFailFast failFast abreast
    exact ⟨_, _, .container fits planned parts', congrArg (· + 1) ahead.next, ahead.slots⟩
  | .again fits finished, p', abreast => by
    obtain ⟨v', finished'⟩ : ∃ v', p'.done.lookup _ = some v' := by
      rw [← Option.ne_none_iff_exists', Ne, abreast.lookup_eq_none, finished]
      simp
    exact ⟨v', p', .again fits finished', abreast⟩
  | .opened fits unfinished defined waits inner, p', abreast => by
    obtain ⟨v', q', inner', ahead⟩ := inner.withFailFast failFast abreast
    have unfinished' := abreast.lookup_eq_none.mpr unfinished
    refine ⟨v', _, .opened fits unfinished' defined waits inner', ahead.next, ?_⟩
    exact congrArg (List.cons _) ahead.slots

theorem YieldsAll.withFailFast (failFast : Bool) {idle : List Slot} {parts : List (Step × Spec)}
    {trail : Trail} {depth : Nat} {p q : Progress} {vs : List (Validator Handle)} :
    c.YieldsAll idle parts trail depth p vs q → ∀ {p'}, Abreast p p' → ∃ vs' q',
      (c.withFailFast failFast).YieldsAll idle parts trail depth p' vs' q' ∧ Abreast q q'
  | .nil, p', abreast => ⟨[], p', .nil, abreast⟩
  | .cons first others, p', abreast => by
    obtain ⟨v', q', first', between⟩ := first.withFailFast failFast abreast
    obtain ⟨vs', r', others', ahead⟩ := others.withFailFast failFast between
    exact ⟨v' :: vs', r', .cons first' others', ahead⟩

end

theorem compile_withFailFast (failFast : Bool) {spec : Spec} {next after : Handle}
    {v : Validator Handle} (compiled : c.compile spec next = .ok (v, after)) :
    ∃ w, (c.withFailFast failFast).compile spec next = .ok (w, after) := by
  obtain ⟨q, yields⟩ := yields_of_compile compiled
  obtain ⟨w, q', yields', ahead⟩ := yields.withFailFast failFast ⟨rfl, rfl⟩
  have reached : q.next = after := by
    rw [compile_of_yields yields] at compiled
    cases compiled
    rfl
  exact ⟨w, by rw [compile_of_yields yields', ahead.next, reached]⟩

-- A fragment that is neither a validator of its own nor a choice.
def Direct : Spec → Prop
  | .validator _ | .combinator .anyOf _ => False
  | .combinator .allOf _ | .marker _ | .record _ _ | .sequence _ | .literal _ | .slot _ => True

theorem direct_of_ne {spec : Spec} (bare : ∀ v, spec ≠ .validator v)
    (single : ∀ children, spec ≠ .combinator .anyOf children) : Direct spec := by
  cases spec with
  | validator v => exact bare v rfl
  | combinator mode children =>
    cases mode with
    | anyOf => exact single children rfl
    | allOf => trivial
  | marker | record | sequence | literal | slot => trivial

theorem ne_anyOf_of_direct {spec : Spec} {frame : Frame} (planned : c.plan spec = .container frame)
    (direct : Direct spec) : frame ≠ .combinator .anyOf := by
  rintro rfl
  rcases plan_container_cases planned with
    ⟨items, -, same⟩ | ⟨mode, children, rfl, -, same⟩ | ⟨entries, extra, fields, -, -, same⟩
  · cases same
  · cases same
    cases direct
  · cases same

theorem shortens_leaf {spec : Spec} {entry : Entry} (planned : c.plan spec = .leaf entry)
    (flat : exact → c.registry.Flat) (direct : exact → Direct spec) :
    Check.Shortens exact entry.shape.check entry.shape.check := by
  refine Check.shortens_self fun here value e refused => ?_
  rw [entry.shape_check] at refused
  rcases plan_leaf_cases planned with
    ⟨v, rfl, -⟩ | ⟨marker, rfl, found⟩ | ⟨expected, rfl, -, rfl⟩
  · cases direct here
  · exact (flat here marker entry found value e refused).2
  · exact (Check.exact_flat refused).2

mutual

theorem Denotes.shortens (flat : exact → c.registry.Flat) {spec : Spec}
    {full first : Validator Unit} : (c.withFailFast false).Denotes spec full →
      (c.withFailFast true).Denotes spec first →
      (exact → ∀ fragment, Reaches c.slots spec fragment → Direct fragment) →
        Check.Shortens exact full.check first.check
  | .leaf planned, other, direct => by
    obtain rfl := other.eq_of_leaf planned
    exact shortens_leaf planned flat fun here => direct here _ .refl
  | .container planned parts, other, direct => by
    obtain ⟨firsts, parts', rfl⟩ := other.of_container planned
    have inside := parts.shortens flat parts' fun here spec member fragment reaches =>
      direct here fragment (.head (.child member) reaches)
    exact join_shortens () (fun here => ne_anyOf_of_direct planned (direct here _ .refl)) inside
  | .slot defined inner, other, direct =>
    inner.shortens flat (other.of_slot defined) fun here fragment reaches =>
      direct here fragment (.head (.definition defined) reaches)

theorem DenotesAll.shortens (flat : exact → c.registry.Flat) {specs : List Spec}
    {fulls firsts : List (Validator Unit)} : (c.withFailFast false).DenotesAll specs fulls →
      (c.withFailFast true).DenotesAll specs firsts →
      (exact → ∀ spec ∈ specs, ∀ fragment, Reaches c.slots spec fragment → Direct fragment) →
        List.Forall₂ (fun full first => Check.Shortens exact full.check first.check) fulls firsts
  | .nil, .nil, _ => .nil
  | .cons head tail, .cons head' tail', direct => by
    refine .cons (head.shortens flat head' ?_) (tail.shortens flat tail' ?_)
    · exact fun here => direct here _ List.mem_cons_self
    · exact fun here spec member => direct here spec (List.mem_cons_of_mem _ member)

end

-- Any registry and any fragment will do for the results. The failures are compared where a leaf
-- fails with one failure, and where no alternatives hide some of those that come first.
theorem failFast_shortens {spec : Spec} {next after : Handle} {v : Validator Handle}
    (compiled : c.compile spec next = .ok (v, after)) :
    ∃ full first, (c.withFailFast false).compile spec next = .ok (full, after) ∧
      (c.withFailFast true).compile spec next = .ok (first, after) ∧
      ∀ value, (∀ out, full.check value = .ok out ↔ first.check value = .ok out) ∧
        (c.registry.Flat → (∀ w, ¬ Reaches c.slots spec (.validator w)) →
          (∀ children, ¬ Reaches c.slots spec (.combinator .anyOf children)) →
          ∀ e f, full.check value = .error e → first.check value = .error f →
            f = e.innermost ∧ f.count = 1) := by
  obtain ⟨full, compiledFull⟩ := compile_withFailFast false compiled
  obtain ⟨first, compiledFirst⟩ := compile_withFailFast true compiled
  refine ⟨full, first, compiledFull, compiledFirst, fun value => ?_⟩
  have denotes := denotes_of_compile compiledFull
  have denotes' := denotes_of_compile compiledFirst
  have shortens : Check.Shortens (c.registry.Flat ∧
      ∀ fragment, Reaches c.slots spec fragment → Direct fragment) full.check first.check := by
    rw [← full.check_shape, ← first.check_shape]
    exact denotes.shortens And.left denotes' And.right
  have compared := shortens value value rfl
  generalize full.check value = one at compared ⊢
  generalize first.check value = other at compared ⊢
  cases compared with
  | ok same => exact ⟨by simp [same], by simp⟩
  | error begins =>
    refine ⟨by simp, fun flat bare single e f failed failed' => ?_⟩
    have direct (fragment : Spec) (reaches : Reaches c.slots spec fragment) : Direct fragment :=
      direct_of_ne (fun w same => bare w (same ▸ reaches)) fun children same =>
        single children (same ▸ reaches)
    cases failed
    cases failed'
    have same := begins ⟨flat, direct⟩
    exact ⟨same, Failure.count_of_flat (same ▸ Failure.nested_innermost _)⟩

-- Two of the sizes are at fault.
def stockRefused : Json :=
  .object [("port", .string "80"), ("sizes", .array [.string "7", .string "x", .null])]

theorem failFast_shortens_stock :
    ∃ full first e f, (stock.withFailFast false).compile stockSpec 8 = .ok (full, 10) ∧
      (stock.withFailFast true).compile stockSpec 8 = .ok (first, 10) ∧
      full.check stockRefused = .error e ∧ first.check stockRefused = .error f ∧
      e.count = 4 ∧ f = e.innermost ∧ f.path = [.key "sizes", .index 1] := by
  have compiled : stock.compile stockSpec 8 = .ok (stockValidator, 10) := by
    with_unfolding_all rfl
  obtain ⟨full, first, compiledFull, compiledFirst, alike⟩ := failFast_shortens compiled
  obtain ⟨agree, begins⟩ := alike stockRefused
  obtain rfl : stockValidator = full := by
    have same : (stock.withFailFast false).compile stockSpec 8 = .ok (stockValidator, 10) := by
      with_unfolding_all rfl
    rw [same] at compiledFull
    cases compiledFull
    rfl
  obtain ⟨e, failed, count, path⟩ : ∃ e, stockValidator.check stockRefused = .error e ∧
      e.count = 4 ∧ e.innermost.path = [.key "sizes", .index 1] := by
    with_unfolding_all exact ⟨_, rfl, rfl, rfl⟩
  obtain ⟨f, failed'⟩ : ∃ f, first.check stockRefused = .error f := by
    cases result : first.check stockRefused with
    | ok out => cases failed.symm.trans ((agree out).mpr result)
    | error f => exact ⟨f, rfl⟩
  have flat : stock.registry.Flat := (Registry.primitives_builtin 0).flat
  obtain ⟨same, -⟩ := begins flat (fun w => plain_stock (.validator w))
    (fun children => plain_stock (.combinator .anyOf children)) e f failed failed'
  exact ⟨_, first, e, f, compiledFull, compiledFirst, failed, failed', count, same, same ▸ path⟩

end Compiler

end Conform
