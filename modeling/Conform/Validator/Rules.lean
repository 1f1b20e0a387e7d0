import Conform.Text.Blank
import Conform.Validator.Basic

set_option autoImplicit false

/-!
Rules beyond the primitives: even numbers, least values, trimmed texts and scaled numbers.
-/

namespace Conform

def Json.signed? : Json → Option Int
  | number (.whole n) => n.signed?
  | _ => none

namespace Rule

-- A rule that passes values unchanged where it holds.
def predicate (name title : String) (settings : List (String × Int)) (holds : Json → Bool)
    (failure : Failure) : Rule :=
  { name, title, settings
    check := fun value => if holds value then .ok value else .error failure }

def even : Rule :=
  predicate "even" "Even" []
    (fun value => match value.signed? with
      | some n => n % 2 == 0
      | none => false)
    { code := "even", message := "must be even" }

def atLeast (min : Int) : Rule :=
  predicate "at_least" "AtLeast" [("min", min)]
    (fun value => match value.signed? with
      | some n => min ≤ n
      | none => false)
    { code := "at_least", message := s!"must be at least {min}", params := [("min", toString min)] }

def trim : Rule where
  name := "trim"
  title := "Trim"
  check
    | .string s => .ok (.string (Text.trim s))
    | value => .error (.typeMismatch "string" value)

-- The product as a value, if 64 signed bits hold it.
def product? (m n : Int) : Option Json :=
  if Whole.isSigned (m * n) then (Whole.ofInt? (m * n)).map .whole else none

def scaled (factor : Int) : Rule where
  name := "scaled"
  title := "Scaled"
  settings := [("factor", factor)]
  check value :=
    match value.signed? with
    | none => .error (.typeMismatch "integer" value)
    | some n =>
      match product? n factor with
      | some out => .ok out
      | none => .error { code := "overflow", message := "out of range" }

end Rule

end Conform
