import Conform.Schema.Fault
import Conform.Validator.Handle

set_option autoImplicit false

/-!
The keys of record specifications, typed or as loose JSON.
-/

namespace Conform

inductive KeySpec where
  | field (field : Field (Validator Handle))
  | required (name : String)
  | default (name : String) (value : Json)
  | optional (name : String)
  | raw (value : Json)

namespace KeySpec

-- The name of the field, as far as it can be read before the key is known to be sound.
def name? : KeySpec → Option String
  | field f => some f.name
  | required name | default name _ | optional name => some name
  | raw (.string name) => some name
  | raw (.array (.string name :: _)) => some name
  | raw (.object members) =>
    match members.lookup "name" with
    | some (.string name) => some name
    | _ => none
  | raw _ => none

-- The step to the field at this position of its record.
def step (key : KeySpec) (position : Nat) : Step :=
  match key.name? with
  | some name => .field name
  | none => .index position

def bare (name : String) (absence : Absence) : Except Fault (Field (Validator Handle)) :=
  if name = "" then .error .emptyName else .ok ⟨name, absence, none⟩

-- What a key object says of absence: a default excludes an optional field.
def absence? : Option Json → Option Json → Option Absence
  | some value, none | some value, some (.bool false) => some (.default value)
  | none, some (.bool true) => some .optional
  | none, none | none, some (.bool false) => some .required
  | _, _ => none

-- Reads `"x"`, `["x", default]` or an object with a name, a default and an optional flag.
def ofRaw (value : Json) : Except Fault (Field (Validator Handle)) :=
  match value with
  | .string name => bare name .required
  | .array [.string name, fallback] => bare name (.default fallback)
  | .object members =>
    match members.lookup "name" with
    | some (.string name) =>
      if members.any fun (key, _) => key ∉ ["name", "default", "optional"] then
        .error (.unsupportedKey value)
      else if name = "" then
        .error .emptyName
      else
        match absence? (members.lookup "default") (members.lookup "optional") with
        | some absence => .ok ⟨name, absence, none⟩
        | none => .error (.unsupportedKey value)
    | _ => .error (.unsupportedKey value)
  | _ => .error (.unsupportedKey value)

-- The field that a key declares. Only a key that is a field already brings a validator.
def resolve : KeySpec → Except Fault (Field (Validator Handle))
  | field f => if f.name = "" then .error .emptyName else .ok f
  | required name => bare name .required
  | default name value => bare name (.default value)
  | optional name => bare name .optional
  | raw value => ofRaw value

end KeySpec

end Conform
