import Conform.Proofs.StepReader
import Conform.Schema.Trail

set_option autoImplicit false

/-!
Written trails are unambiguous, because a trail can be read back from its text. The first
character of a step tells its kind, and none of those characters is in a bare name.
-/

namespace Conform

open StepReader

namespace Combine

theorem named?_name (mode : Combine) : named? mode.name = some mode := by
  cases mode <;> decide

end Combine

namespace Step

def isNameChar (c : Char) : Bool := c ∉ ['.', '[', ']', '"', '<']

theorem isPlain_iff {name : String} :
    isPlain name ↔ name ≠ "" ∧ ∀ c ∈ name.toList, isNameChar c := by
  simp [isPlain, isNameChar]

def isModeChar (c : Char) : Bool := c ≠ '#'

def child? (cs : List Char) : Option (Step × List Char) := do
  let mode ← Combine.named? (String.ofList (cs.takeWhile isModeChar))
  let (i, rest) ← Numeral.leading? ((cs.dropWhile isModeChar).drop 1)
  close? '>' (child mode i) rest

theorem child?_append (mode : Combine) (i : Nat) (rest : List Char) :
    child? (mode.name.toList ++ '#' :: (Nat.toDigits 10 i ++ '>' :: rest)) =
      some (child mode i, rest) := by
  have inside : ∀ c ∈ mode.name.toList, isModeChar c := by
    cases mode <;> simp [Combine.name, isModeChar]
  have ends : ∀ c ∈ ('#' :: (Nat.toDigits 10 i ++ '>' :: rest)).head?, isModeChar c = false := by
    simp [isModeChar]
  obtain ⟨run, behind⟩ := split_run inside ends
  have number : Numeral.leading? (Nat.toDigits 10 i ++ '>' :: rest) = some (i, '>' :: rest) :=
    Numeral.leading?_toDigits i (by simp)
  simp [child?, run, behind, Combine.named?_name, number, close?_cons]

def read? : List Char → Option (Step × List Char)
  | '[' :: rest => bracket? field index rest
  | '.' :: rest => some (bare isNameChar field rest)
  | '<' :: rest => child? rest
  | _ => none

theorem read?_text (step : Step) {rest : List Char}
    (ends : ∀ c ∈ rest.head?, isNameChar c = false) :
    read? (step.text ++ rest) = some (step, rest) := by
  cases step with
  | index i => simp [text, read?, bracket?_toDigits]
  | child mode i => simp [text, read?, child?_append]
  | field name =>
    by_cases plain : isPlain name
    · simp [text, plain, read?, bare_append field (isPlain_iff.mp plain).2 ends]
    · simp [text, plain, read?, bracket?_quote]

-- A step begins with a point or a bracket, which ends a bare name.
theorem text_cases (step : Step) :
    ∃ c rest, step.text = c :: rest ∧ isNameChar c = false := by
  cases step with
  | index i => exact ⟨'[', _, rfl, by decide⟩
  | child mode i => exact ⟨'<', _, rfl, by decide⟩
  | field name =>
    by_cases plain : isPlain name
    · exact ⟨'.', name.toList, by simp [text, plain], by decide⟩
    · exact ⟨'[', Json.quote name ++ [']'], by simp [text, plain], by decide⟩

end Step

namespace Trail

def read? (written : String) : Option Trail :=
  match written.toList with
  | '$' :: steps => readAll? Step.read? steps
  | _ => none

theorem read?_render (trail : Trail) : read? trail.render = some trail := by
  have steps : readAll? Step.read? (trail.flatMap Step.text) = some trail :=
    readAll?_flatMap Step.text_cases (fun step _ => step.read?_text) trail
  simpa [read?, render, text] using steps

theorem render_eq_iff (p q : Trail) :
    (p.render = q.render ↔ p = q) ∧ read? p.render = some p := by
  refine ⟨⟨fun same => ?_, congrArg render⟩, read?_render p⟩
  have read := congrArg read? same
  rw [read?_render, read?_render] at read
  exact Option.some.inj read

-- The other marks of the notation do no harm in a bare name.
example : render [.field "a>b#$", .child .anyOf 1, .field "", .index 0] =
    "$.a>b#$<any_of#1>[\"\"][0]" := by
  decide

end Trail

end Conform
