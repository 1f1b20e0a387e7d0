import Conform.Failure.Path

set_option autoImplicit false

/-!
Failures of a check. Each has a code for programs, a message for readers and the place of
the value at fault; the failure of a container holds those of its parts.
-/

namespace Conform

structure Failure where
  code : String
  message : String
  path : Path := []
  params : List (String × String) := []
  nested : List Failure := []

namespace Failure

def field? (e : Failure) : Option String := e.path.field?

def addParam (e : Failure) (key value : String) : Failure :=
  { e with params := e.params ++ [(key, value)] }

def withNested (e : Failure) (nested : List Failure) : Failure := { e with nested }

def addNested (e : Failure) (part : Failure) : Failure := { e with nested := e.nested ++ [part] }

mutual

-- The failure seen from outside: every path in it gets one more step in front.
def under (s : Segment) : Failure → Failure
  | ⟨code, message, path, params, nested⟩ =>
    ⟨code, message, s :: path, params, allUnder s nested⟩

def allUnder (s : Segment) : List Failure → List Failure
  | [] => []
  | e :: rest => under s e :: allUnder s rest

end

theorem allUnder_eq_map (s : Segment) (parts : List Failure) :
    allUnder s parts = parts.map (under s) := by
  induction parts with
  | nil => rfl
  | cons e rest ih => rw [allUnder, ih, List.map_cons]

def param? (e : Failure) (key : String) : Option String := e.params.lookup key

def required : Failure := { code := "required", message := "is required" }

def extraKey : Failure := { code := "extra_key", message := "is not allowed" }

def typeMismatch (expected : String) (value : Json) : Failure :=
  let actual := value.kind
  { code := "type_mismatch"
    message := s!"expected {expected}, got {actual}"
    params := [("expected", expected), ("actual", actual)] }

def gathered (code : String) (message : Nat → String) (parts : List Failure) : Failure :=
  { code
    message := message parts.length
    params := [("failed_count", toString parts.length)]
    nested := parts }

end Failure

end Conform
