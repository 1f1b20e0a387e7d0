import Conform.Sorted
import Conform.Validator.Handle

set_option autoImplicit false

/-!
The markers that a schema can name, and the validators behind them.
-/

namespace Conform

/-- What a marker stands for: one validator for all its users, or a new one for each. -/
inductive Entry where
  | shared (v : Validator Handle)
  | factory (pattern : Validator Unit)

def Entry.instantiate : Entry → StateM Handle (Validator Handle)
  | shared v => return v
  | factory pattern => pattern.instantiate

inductive RegistryFault where
  | emptyMarker
  | alreadyRegistered (marker : String)
deriving DecidableEq

def RegistryFault.message : RegistryFault → String
  | emptyMarker => "type marker must not be empty"
  | alreadyRegistered marker => s!"type marker `{marker}` is already registered"

structure Registry where
  entries : List (String × Entry)

namespace Registry

def empty : Registry := ⟨[]⟩

def find? (r : Registry) (marker : String) : Option Entry := r.entries.lookup marker

-- A validator for a marker that is known.
def instantiate (r : Registry) (marker : String) : StateM Handle (Option (Validator Handle)) :=
  match r.find? marker with
  | some entry => some <$> entry.instantiate
  | none => return none

def recognizes (r : Registry) (marker : String) : Bool := (r.find? marker).isSome

def markers (r : Registry) : List String := r.entries.map (·.1)

def size (r : Registry) : Nat := r.entries.length

def replace (r : Registry) (marker : String) (entry : Entry) : Registry :=
  ⟨Sorted.put marker entry r.entries⟩

def register (r : Registry) (marker : String) (entry : Entry) : Except RegistryFault Registry :=
  if marker = "" then .error .emptyMarker
  else if r.recognizes marker then .error (.alreadyRegistered marker)
  else .ok (r.replace marker entry)

-- Puts one validator of a primitive under its name and its aliases.
def addPrimitive (r : Registry) (p : Primitive) : StateM Handle Registry := do
  let v := Validator.leaf (← fresh) (.primitive p)
  return p.names.foldl (fun r name => r.replace name (.shared v)) r

def builtin : StateM Handle Registry := Primitive.all.foldlM addPrimitive empty

end Registry

end Conform
