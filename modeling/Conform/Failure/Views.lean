import Conform.Failure.Basic
import Conform.Sorted

set_option autoImplicit false

/-!
Ways to look at a failure: as a list, by place, as JSON and as text.
-/

namespace Conform.Failure

def hasNested (e : Failure) : Bool := !e.nested.isEmpty

mutual

def count : Failure → Nat
  | ⟨_, _, _, _, nested⟩ => 1 + countAll nested

def countAll : List Failure → Nat
  | [] => 0
  | e :: rest => count e + countAll rest

end

mutual

-- The failure and all those nested in it, each before its own parts.
def flatten : Failure → List Failure
  | ⟨code, message, path, params, nested⟩ =>
    ⟨code, message, path, params, nested⟩ :: flattenAll nested

def flattenAll : List Failure → List Failure
  | [] => []
  | e :: rest => flatten e ++ flattenAll rest

end

theorem flattenAll_eq_flatMap (parts : List Failure) :
    flattenAll parts = parts.flatMap flatten := by
  induction parts with
  | nil => rfl
  | cons e rest ih => rw [flattenAll, ih, List.flatMap_cons]

mutual

theorem count_eq_length_flatten : (e : Failure) → e.count = e.flatten.length
  | ⟨_, _, _, _, nested⟩ => by
    rw [count, flatten, List.length_cons, countAll_eq_length_flattenAll nested, Nat.add_comm]

theorem countAll_eq_length_flattenAll :
    (parts : List Failure) → countAll parts = (flattenAll parts).length
  | [] => rfl
  | e :: rest => by
    rw [countAll, flattenAll, List.length_append, count_eq_length_flatten e,
      countAll_eq_length_flattenAll rest]

end

-- The first failure at exactly this path.
def find? (e : Failure) (path : String) : Option Failure :=
  e.flatten.find? fun part => part.field? = some path

-- The place of a failure in `fieldMessages`.
def place (e : Failure) : String := e.field?.getD "$"

def addMessage (entries : List (String × String)) (leaf : Failure) : List (String × String) :=
  match entries.lookup leaf.place with
  | some _ => entries
  | none => Sorted.put leaf.place leaf.message entries

-- The messages of the failures without parts, sorted by place; the first at a place wins.
def fieldMessages (e : Failure) : List (String × String) :=
  (e.flatten.filter fun part => !part.hasNested).foldl addMessage []

mutual

def toJson : Failure → Json
  | ⟨code, message, path, params, nested⟩ =>
    .object
      [("code", .string code), ("message", .string message),
        ("field", (path.field?.map Json.string).getD .null),
        ("params", .object (Members.gather (params.map fun (key, value) => (key, .string value)))),
        ("nested", .array (toJsonAll nested))]

def toJsonAll : List Failure → List Json
  | [] => []
  | e :: rest => toJson e :: toJsonAll rest

end

def paramsText (params : List (String × String)) : String :=
  if params = [] then
    ""
  else
    " (params: [" ++ ", ".intercalate (params.map fun (key, value) => key ++ "=" ++ value) ++ "])"

def headline (code message : String) (path : Path) (params : List (String × String)) : String :=
  match path.field? with
  | some field => s!"[{field}] {code}: {message}" ++ paramsText params
  | none => s!"{code}: {message}" ++ paramsText params

mutual

-- The failure for a reader, its parts numbered below it.
def display : Failure → String
  | ⟨code, message, path, params, []⟩ => headline code message path params
  | ⟨code, message, path, params, e :: rest⟩ =>
    headline code message path params ++ "\n  Nested errors:" ++ displayAll 1 (e :: rest)

def displayAll (number : Nat) : List Failure → String
  | [] => ""
  | e :: rest => s!"\n    {number}. " ++ display e ++ displayAll (number + 1) rest

end

end Conform.Failure
