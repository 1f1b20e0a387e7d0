import Conform.Proofs.Meaning
import Conform.Proofs.Resume

set_option autoImplicit false

/-!
Specifications joined by `Spec.combine`. How the joins are bracketed makes no difference, what
joins two specifications that compile needs one level more, and its validator puts the two
together, whether or not their children were taken over.
-/

namespace Conform

namespace Check

theorem allOf_append (firsts seconds : List Check) (value : Json) :
    allOf (firsts ++ seconds) value = (allOf firsts value).bind (allOf seconds) := by
  induction firsts generalizing value with
  | nil => rfl
  | cons check rest ih =>
    rw [List.cons_append, allOf, allOf]
    cases check value with
    | ok out => exact ih out
    | error e => rfl

theorem firstSuccess_append (firsts seconds : List Check) (value : Json) :
    firstSuccess (firsts ++ seconds) value =
      match firstSuccess firsts value with
      | .ok out => .ok out
      | .error es => (firstSuccess seconds value).mapError (es ++ ·) := by
  induction firsts with
  | nil =>
    rw [List.nil_append, firstSuccess]
    cases firstSuccess seconds value <;> rfl
  | cons check rest ih =>
    rw [List.cons_append, firstSuccess, firstSuccess, ih]
    cases check value with
    | ok out => rfl
    | error e =>
      cases firstSuccess rest value with
      | ok out => rfl
      | error es => cases firstSuccess seconds value <;> rfl

theorem firstSuccess_eq_ok_iff {checks : List Check} {value out : Json} :
    firstSuccess checks value = .ok out ↔ anyOf checks value = .ok out := by
  rw [anyOf]
  cases firstSuccess checks value <;> simp [Except.mapError]

-- What one check does that stands for two others, with their inputs and their order.
def Joins : Combine → Check → Check → Check → Prop
  | .anyOf, first, second, joined =>
    ∀ value out, joined value = .ok out ↔
      first value = .ok out ∨ (∃ e, first value = .error e) ∧ second value = .ok out
  | .allOf, first, second, joined => ∀ value, joined value = (first value).bind second

-- A list of checks does what one check does, or is that check alone.
def Serves (mode : Combine) (checks : List Check) (whole : Check) : Prop :=
  combine mode checks = whole ∨ checks = [whole]

theorem Serves.firstSuccess_eq_ok_iff {checks : List Check} {whole : Check}
    (serves : Serves .anyOf checks whole) {value out : Json} :
    firstSuccess checks value = .ok out ↔ whole value = .ok out := by
  rcases serves with rfl | rfl
  · exact Check.firstSuccess_eq_ok_iff
  · rw [firstSuccess]
    cases whole value <;> simp [firstSuccess, Except.mapError]

theorem Serves.allOf_eq {checks : List Check} {whole : Check}
    (serves : Serves .allOf checks whole) : allOf checks = whole := by
  rcases serves with rfl | rfl
  · rfl
  · funext value
    rw [allOf]
    cases whole value <;> rfl

theorem joins_append {mode : Combine} {firsts seconds : List Check} {first second : Check}
    (serves : Serves mode firsts first) (serves' : Serves mode seconds second) :
    Joins mode first second (combine mode (firsts ++ seconds)) := by
  cases mode with
  | allOf =>
    intro value
    rw [combine, allOf_append, serves.allOf_eq, serves'.allOf_eq]
  | anyOf =>
    intro value out
    rw [combine, ← firstSuccess_eq_ok_iff, firstSuccess_append]
    cases found : firstSuccess firsts value with
    | ok early =>
      have accepted := serves.firstSuccess_eq_ok_iff.mp found
      simp [accepted]
    | error es =>
      obtain ⟨e, refused⟩ : ∃ e, first value = .error e := by
        cases result : first value with
        | ok early => cases found.symm.trans (serves.firstSuccess_eq_ok_iff.mpr result)
        | error e => exact ⟨e, rfl⟩
      rw [← serves'.firstSuccess_eq_ok_iff]
      cases firstSuccess seconds value <;> simp [refused, Except.mapError]

end Check

namespace Spec

theorem operands_combine (mode : Combine) (a b : Spec) :
    (a.combine mode b).operands mode = a.operands mode ++ b.operands mode :=
  if_pos rfl

theorem combine_assoc (mode : Combine) (a b d : Spec) :
    (a.combine mode b).combine mode d = a.combine mode (b.combine mode d) := by
  rw [combine, operands_combine, List.append_assoc, ← operands_combine, ← combine]

theorem operands_cases (mode : Combine) (spec : Spec) :
    (∃ children, spec = .combinator mode children ∧ spec.operands mode = children) ∨
      spec.operands mode = [spec] := by
  cases spec with
  | combinator other children =>
    rw [operands]
    split
    next same => exact .inl ⟨children, by rw [same], rfl⟩
    next => exact .inr rfl
  | validator | marker | record | sequence | literal | slot => exact .inr rfl

end Spec

namespace Compiler

variable {c : Compiler} {mode : Combine} {idle : List Slot}

theorem plan_combinator {children : List Spec} (many : 2 ≤ children.length) :
    c.plan (.combinator mode children) = .container (.combinator mode) := by
  rw [plan, if_neg (Nat.not_lt.mpr many)]

theorem two_le_children {children : List Spec} {shape : Validator Unit}
    (denotes : c.Denotes (.combinator mode children) shape) : 2 ≤ children.length := by
  by_contra few
  have planned : c.plan (.combinator mode children) =
      .faulty ⟨[], .tooFewChildren mode children.length⟩ := by
    rw [plan, if_pos (Nat.lt_of_not_le few)]
  cases denotes with
  | leaf planned' | container planned' => cases planned.symm.trans planned'

theorem DenotesAll.append {specs others : List Spec} {shapes : List (Validator Unit)}
    (denotes : c.DenotesAll (specs ++ others) shapes) :
    ∃ firsts seconds, shapes = firsts ++ seconds ∧ c.DenotesAll specs firsts ∧
      c.DenotesAll others seconds := by
  induction specs generalizing shapes with
  | nil => exact ⟨[], shapes, rfl, .nil, denotes⟩
  | cons spec rest ih =>
    cases denotes with
    | cons first remaining =>
      obtain ⟨firsts, seconds, rfl, denotes, denotes'⟩ := ih remaining
      exact ⟨_ :: firsts, seconds, rfl, .cons first denotes, denotes'⟩

theorem YieldsAll.append {parts others : List (Step × Spec)} {trail : Trail} {depth : Nat}
    {p q r : Progress} {vs ws : List (Validator Handle)}
    (first : c.YieldsAll idle parts trail depth p vs q)
    (second : c.YieldsAll idle others trail depth q ws r) :
    c.YieldsAll idle (parts ++ others) trail depth p (vs ++ ws) r := by
  induction parts generalizing p vs with
  | nil =>
    cases first
    exact second
  | cons part rest ih =>
    cases first with
    | cons head tail => exact .cons head (ih tail)

theorem operands_ne_nil (mode : Combine) {spec : Spec} {shape : Validator Unit}
    (denotes : c.Denotes spec shape) : spec.operands mode ≠ [] := by
  rcases spec.operands_cases mode with ⟨children, rfl, same⟩ | same
  · have many := two_le_children denotes
    rw [same]
    exact List.ne_nil_of_length_pos (by omega)
  · simp [same]

theorem plan_combine {a b : Spec} {v w : Validator Unit} (denotes : c.Denotes a v)
    (denotes' : c.Denotes b w) (mode : Combine) :
    c.plan (a.combine mode b) = .container (.combinator mode) := by
  have left := List.length_pos_of_ne_nil (operands_ne_nil mode denotes)
  have right := List.length_pos_of_ne_nil (operands_ne_nil mode denotes')
  refine plan_combinator ?_
  rw [List.length_append]
  omega

-- Children that are taken over lose the level of their combinator, so they have one to spare.
theorem Yields.operands (maxDepth : Nat) {spec : Spec} {trail : Trail} {depth : Nat}
    {p q : Progress} {v : Validator Handle} (yields : c.Yields idle spec trail depth p v q)
    (settled : c.Settled idle p) {parts : List (Step × Spec)}
    (same : parts.map (·.2) = spec.operands mode) (trail' : Trail) (depth' : Nat) (p' : Progress)
    (levels : depth' + c.options.maxDepth ≤ depth + maxDepth)
    (settled' : (c.withMaxDepth maxDepth).Settled idle p') (more : p.met ⊆ p'.met) :
    ∃ vs q', (c.withMaxDepth maxDepth).YieldsAll idle parts trail' depth' p' vs q' := by
  rcases spec.operands_cases mode with ⟨children, rfl, spliced⟩ | alone
  · cases yields with
    | leaf fits planned =>
      rw [plan] at planned
      split at planned <;> cases planned
    | container fits planned inside =>
      refine inside.resume maxDepth settled parts ?_ trail' depth' p' (by omega) settled' more
      rw [same, spliced, (parts_container planned).1, Spec.children]
  · rw [alone] at same
    obtain ⟨⟨step, _⟩, rest, rfl, rfl, remaining⟩ := List.map_eq_cons_iff.mp same
    obtain rfl := List.map_eq_nil_iff.mp remaining
    obtain ⟨v', q', again⟩ :=
      yields.resume maxDepth settled (trail' ++ [step]) depth' p' levels settled' more
    exact ⟨[v'], q', .cons again .nil⟩

theorem serves_operands {spec : Spec} {shape : Validator Unit} {shapes : List (Validator Unit)}
    (denotes : c.Denotes spec shape) (parts : c.DenotesAll (spec.operands mode) shapes) :
    Check.Serves mode (shapes.map Validator.check) shape.check := by
  rcases spec.operands_cases mode with ⟨children, rfl, spliced⟩ | alone
  · have planned : c.plan (.combinator mode children) = .container (.combinator mode) :=
      plan_combinator (two_le_children denotes)
    obtain ⟨others, inside, rfl⟩ := denotes.of_container planned
    rw [spliced] at parts
    obtain rfl := inside.unique parts
    left
    rw [Frame.join, Validator.check, Validator.checks_eq_map]
  · rw [alone] at parts
    cases parts with
    | cons first rest =>
      cases rest
      obtain rfl := denotes.unique first
      exact .inr rfl

-- The children of the second operand are compiled last, when the slots of the first are finished.
theorem compile_combine_exists {a b : Spec} {next next' after after' : Handle}
    {v w : Validator Handle} (compiled : c.compile a next = .ok (v, after))
    (compiled' : c.compile b next' = .ok (w, after')) (mode : Combine) (start : Handle) :
    ∃ joined last, (c.withMaxDepth (c.options.maxDepth + 1)).compile (a.combine mode b) start =
      .ok (joined, last) := by
  obtain ⟨q, yields⟩ := yields_of_compile compiled
  obtain ⟨q', yields'⟩ := yields_of_compile compiled'
  have planned := plan_combine (denotes_of_compile compiled) (denotes_of_compile compiled') mode
  let deeper := c.options.maxDepth + 1
  have steps := Spec.numbered_map_snd (.child mode) 0 (a.operands mode ++ b.operands mode)
  obtain ⟨parts, others, split, left, right⟩ := List.map_eq_append_iff.mp steps
  obtain ⟨vs, p, first⟩ := yields.operands deeper (c.settled_start next) left [] 1 ⟨start, []⟩
    (by omega) (settled_start _ start) (by simp [Progress.met])
  obtain ⟨ws, r, second⟩ := yields'.operands deeper (c.settled_start next') right [] 1 p
    (by omega) (first.completed (settled_start _ start)).2.settled (by simp [Progress.met])
  have all := first.append second
  rw [← split] at all
  exact ⟨_, _, compile_of_yields (.container (Nat.zero_le _) planned all)⟩

theorem joins_of_denotes {a b : Spec} {v w joined : Validator Unit} (denotes : c.Denotes a v)
    (denotes' : c.Denotes b w) (whole : c.Denotes (a.combine mode b) joined) :
    Check.Joins mode v.check w.check joined.check := by
  obtain ⟨shapes, parts, rfl⟩ := whole.of_container (plan_combine denotes denotes' mode)
  obtain ⟨firsts, seconds, rfl, left, right⟩ := DenotesAll.append parts
  have serves := serves_operands denotes left
  have serves' := serves_operands denotes' right
  rw [Frame.join, Validator.check, Validator.checks_eq_map, List.map_append]
  exact Check.joins_append serves serves'

theorem compile_combine (mode : Combine) (a b : Spec) :
    (∀ d, (a.combine mode b).combine mode d = a.combine mode (b.combine mode d)) ∧
      ∀ (c : Compiler) (next next' after after' : Handle) (v w : Validator Handle),
        c.compile a next = .ok (v, after) → c.compile b next' = .ok (w, after') →
        ∀ start, ∃ joined last,
          (c.withMaxDepth (c.options.maxDepth + 1)).compile (a.combine mode b) start =
            .ok (joined, last) ∧
          Check.Joins mode v.check w.check joined.check := by
  refine ⟨Spec.combine_assoc mode a b, ?_⟩
  intro c next next' after after' v w compiled compiled' start
  obtain ⟨joined, last, made⟩ := compile_combine_exists compiled compiled' mode start
  refine ⟨joined, last, made, ?_⟩
  have denotes := (denotes_of_compile compiled).withMaxDepth (c.options.maxDepth + 1)
  have denotes' := (denotes_of_compile compiled').withMaxDepth (c.options.maxDepth + 1)
  rw [← v.check_shape, ← w.check_shape, ← joined.check_shape]
  exact joins_of_denotes denotes denotes' (denotes_of_compile made)

-- The first operand is a choice itself, and both mention one list. Two levels are enough for each.
def ledger : Compiler where
  registry := ⟨[("int", .factory (.leaf () (.primitive .integer))),
    ("null", .factory (.leaf () (.primitive .null)))]⟩
  options := { maxDepth := 2 }
  slots := ⟨[some (.listOf (.marker "int"))]⟩

def ledgerEntry : Spec := .combinator .anyOf [.slot 0, .marker "null"]

def ledgerPage : Spec := .listOf (.slot 0)

theorem combine_ledger :
    ∃ entry page joined after after' last, ledger.compile ledgerEntry 0 = .ok (entry, after) ∧
      ledger.compile ledgerPage 0 = .ok (page, after') ∧
      (ledger.withMaxDepth 3).compile
        (.combinator .anyOf [.slot 0, .marker "null", .listOf (.slot 0)]) 0 = .ok (joined, last) ∧
      Check.Joins .anyOf entry.check page.check joined.check := by
  obtain ⟨entry, after, compiled⟩ :
      ∃ entry after, ledger.compile ledgerEntry 0 = .ok (entry, after) := by
    with_unfolding_all exact ⟨_, _, rfl⟩
  obtain ⟨page, after', compiled'⟩ :
      ∃ page after', ledger.compile ledgerPage 0 = .ok (page, after') := by
    with_unfolding_all exact ⟨_, _, rfl⟩
  obtain ⟨joined, last, made, joins⟩ := (compile_combine .anyOf ledgerEntry ledgerPage).2
    ledger 0 0 after after' entry page compiled compiled' 0
  exact ⟨entry, page, joined, after, after', last, compiled, compiled', made, joins⟩

end Compiler

end Conform
