import Conform.Failure.Path
import Conform.Proofs.StepReader

set_option autoImplicit false

/-!
Written paths are unambiguous, because a path can be read back from its text. A plain name goes
on to the next point or bracket, and a bracket shows by its first character whether a name or an
index is in it.
-/

namespace Conform

open StepReader

namespace Segment

def isNameChar (c : Char) : Bool := c ∉ ['.', '[', ']', '"']

theorem isPlain_iff {name : String} :
    isPlain name ↔ name ≠ "" ∧ ∀ c ∈ name.toList, isNameChar c := by
  simp [isPlain, isNameChar]

theorem text_ne_nil (s : Segment) : s.text ≠ [] := by
  cases s with
  | index i => simp [text]
  | key name =>
    rw [text]
    split
    next plain => simpa using (isPlain_iff.mp plain).1
    next => simp

-- Reads a step with what separates it from the step in front.
def read? : List Char → Option (Segment × List Char)
  | '[' :: rest => bracket? key index rest
  | '.' :: rest => some (bare isNameChar key rest)
  | _ => none

end Segment

namespace Path

-- A path as it goes on behind a step: a bracket needs no point.
def onward (written : List Char) : List Char :=
  if written.head? = some '[' then written else '.' :: written

theorem before_eq (s : Segment) (rest : List Char) : s.before rest = s.text ++ onward rest := by
  rw [Segment.before, onward]
  split <;> rfl

theorem onward_append {first : List Char} (nonempty : first ≠ []) (rest : List Char) :
    onward (first ++ rest) = onward first ++ rest := by
  obtain ⟨c, cs, rfl⟩ := List.exists_cons_of_ne_nil nonempty
  by_cases bracket : c = '[' <;> simp [onward, bracket]

theorem onward_text {path : Path} (nonempty : path ≠ []) :
    onward path.text = path.flatMap fun s => onward s.text := by
  induction path with
  | nil => exact absurd rfl nonempty
  | cons s rest ih =>
    cases rest with
    | nil => simp [Path.text]
    | cons t rest =>
      have further : t :: rest ≠ [] := List.cons_ne_nil t rest
      rw [Path.text, before_eq, onward_append s.text_ne_nil, ih further]
      · rfl
      · exact further

-- A step behind another one begins with a point or a bracket, which ends a plain name.
theorem onward_cases (s : Segment) :
    ∃ c cs, onward s.text = c :: cs ∧ Segment.isNameChar c = false := by
  by_cases bracket : s.text.head? = some '['
  · obtain ⟨c, cs, written⟩ := List.exists_cons_of_ne_nil s.text_ne_nil
    obtain rfl : c = '[' := by simpa [written] using bracket
    exact ⟨'[', cs, by rw [onward, if_pos bracket, written], by decide⟩
  · exact ⟨'.', s.text, by rw [onward, if_neg bracket], by decide⟩

theorem onward_plain {name : String} (plain : Segment.isPlain name) :
    onward (Segment.key name).text = '.' :: name.toList := by
  obtain ⟨-, inside⟩ := Segment.isPlain_iff.mp plain
  have other : name.toList.head? ≠ some '[' := by
    intro bracket
    exact absurd (inside '[' (List.mem_of_head? bracket)) (by decide)
  rw [Segment.text, if_pos plain, onward, if_neg other]

theorem read?_onward (s : Segment) {rest : List Char}
    (ends : ∀ c ∈ rest.head?, Segment.isNameChar c = false) :
    Segment.read? (onward s.text ++ rest) = some (s, rest) := by
  cases s with
  | index i => simp [Segment.text, onward, Segment.read?, bracket?_toDigits]
  | key name =>
    by_cases plain : Segment.isPlain name
    · rw [onward_plain plain]
      simp [Segment.read?, bare_append Segment.key (Segment.isPlain_iff.mp plain).2 ends]
    · simp [Segment.text, plain, onward, Segment.read?, bracket?_quote]

-- Reads a path. The first step is written as if nothing stood in front of it.
def read? (written : List Char) : Option Path := readAll? Segment.read? (onward written)

theorem read?_text {path : Path} (nonempty : path ≠ []) : read? path.text = some path := by
  rw [read?, onward_text nonempty]
  exact readAll?_flatMap onward_cases (fun s _ => read?_onward s) path

def ofField? : Option String → Option Path
  | none => some []
  | some written => read? written.toList

theorem ofField?_field? (path : Path) : ofField? path.field? = some path := by
  rw [field?]
  split
  next empty => rw [empty, ofField?]
  next nonempty => rw [ofField?, String.toList_ofList, read?_text nonempty]

theorem field?_injective : Function.Injective Path.field? := by
  intro p q same
  have read := congrArg ofField? same
  rw [ofField?_field?, ofField?_field?] at read
  exact Option.some.inj read

end Path

end Conform
