import Conform.Validator.Basic

set_option autoImplicit false

/-!
A validator on one line, for logs: the names of its nodes and what they were made with.
-/

namespace Conform.Outline

-- A title with named entries in braces.
def block (title : String) (entries : List (String × String)) : String :=
  let texts := entries.map fun (name, text) => name ++ ": " ++ text
  title ++ " \x7b " ++ ", ".intercalate texts ++ " \x7d"

def listed (items : List String) : String := "[" ++ ", ".intercalate items ++ "]"

def ofBool (b : Bool) : String := if b then "true" else "false"

def escape (c : Char) : List Char :=
  if c = '"' then ['\\', '"']
  else if c = '\\' then ['\\', '\\']
  else if c = '\n' then ['\\', 'n']
  else if c = '\r' then ['\\', 'r']
  else if c = '\t' then ['\\', 't']
  else if c = '\x00' then ['\\', '0']
  else if c.toNat < 0x20 ∨ c.toNat = 0x7F then
    '\\' :: 'u' :: '{' :: Nat.toDigits 16 c.toNat ++ ['}']
  else [c]

-- A text in quotes. Outside the control characters of ASCII all is written as it is.
def quoted (s : String) : String := String.ofList ('"' :: s.toList.flatMap escape ++ ['"'])

mutual

def ofJson : Json → String
  | .null => "Null"
  | .bool b => "Bool(" ++ ofBool b ++ ")"
  | .number n => "Number(" ++ String.ofList (Json.numberText n) ++ ")"
  | .string s => "String(" ++ quoted s ++ ")"
  | .array items => "Array " ++ listed (ofItems items)
  | .object members => "Object \x7b" ++ ", ".intercalate (ofMembers members) ++ "\x7d"

def ofItems : List Json → List String
  | [] => []
  | item :: rest => ofJson item :: ofItems rest

def ofMembers : List (String × Json) → List String
  | [] => []
  | (name, value) :: rest => (quoted name ++ ": " ++ ofJson value) :: ofMembers rest

end

def ofPrimitive : Primitive → String
  | .any => "Any"
  | .null => "Null"
  | .boolean => "Boolean"
  | .integer => "Integer"
  | .float => "Float"
  | .string => "Str"
  | .list => "List"
  | .mapping => "Mapping"

def ofRule (rule : Rule) : String :=
  if rule.settings = [] then
    rule.title
  else
    block rule.title (rule.settings.map fun (name, n) => (name, toString n))

def ofLeaf : Leaf → String
  | .primitive kind => ofPrimitive kind
  | .exact expected => block "Exact" [("expected", ofJson expected)]
  | .rule rule => ofRule rule

def ofAbsence : Absence → String
  | .required => "Error"
  | .default value => "Default(" ++ ofJson value ++ ")"
  | .optional => "Skip"

def ofExtraKeys : ExtraKeys → String
  | .reject => "Reject"
  | .ignore => "Ignore"
  | .keep => "Keep"

def ofCombine : Combine → String
  | .anyOf => "AnyOf"
  | .allOf => "AllOf"

def ofField (name : String) (absence : Absence) (inner : String) : String :=
  block "KeyDescriptor"
    [("name", quoted name), ("validator", inner), ("on_missing", ofAbsence absence)]

variable {ι : Type}

mutual

-- All of a validator but its tags, on one line.
def ofValidator : Validator ι → String
  | .leaf _ l => ofLeaf l
  | .record _ fields extra failFast =>
    block "Record"
      [("keys", listed (ofFields fields)), ("extra", ofExtraKeys extra),
        ("fail_fast", ofBool failFast)]
  | .each _ inner failFast =>
    block "Each" [("inner", ofValidator inner), ("fail_fast", ofBool failFast)]
  | .tuple _ items failFast =>
    block "Tuple" [("items", listed (ofValidators items)), ("fail_fast", ofBool failFast)]
  | .combinator _ mode children =>
    block "Combinator" [("mode", ofCombine mode), ("children", listed (ofValidators children))]

def ofValidators : List (Validator ι) → List String
  | [] => []
  | v :: rest => ofValidator v :: ofValidators rest

def ofFields : List (Field (Validator ι)) → List String
  | [] => []
  | ⟨name, absence, some v⟩ :: rest =>
    ofField name absence ("Some(" ++ ofValidator v ++ ")") :: ofFields rest
  | ⟨name, absence, none⟩ :: rest => ofField name absence "None" :: ofFields rest

end

end Conform.Outline
