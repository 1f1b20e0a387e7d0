import Conform.Failure.Basic

set_option autoImplicit false

/-!
What a check answers, and how the answers for the parts of a value become one for the whole.
-/

namespace Conform

abbrev Outcome (α : Type) := Except Failure α

namespace Outcome

variable {α : Type}

def failures : List (Outcome α) → List Failure
  | [] => []
  | .ok _ :: rest => failures rest
  | .error e :: rest => e :: failures rest

def values : List (Outcome α) → List α
  | [] => []
  | .ok value :: rest => value :: values rest
  | .error _ :: rest => values rest

-- One failure fails the whole, with the first of the failures or all of them gathered.
def settle (failFast : Bool) (gather : List Failure → Failure) (outcomes : List (Outcome α)) :
    Outcome (List α) :=
  match failures outcomes with
  | [] => .ok (values outcomes)
  | first :: rest => .error (if failFast then first else gather (first :: rest))

-- Places each outcome at its index.
def indexed (outcomes : List (Outcome α)) : List (Outcome α) :=
  outcomes.mapIdx fun i outcome => outcome.mapError (Failure.under (.index i))

end Outcome

-- Nothing, if no part failed, else the failure of the whole.
def Failure.fold (code : String) (message : Nat → String) : List Failure → Outcome Unit
  | [] => .ok ()
  | parts => .error (gathered code message parts)

end Conform
