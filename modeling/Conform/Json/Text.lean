import Conform.Json.Basic
import Conform.Number.Layout

set_option autoImplicit false

/-!
The compact text of JSON values.
-/

namespace Conform.Json

-- The last hexadecimal digit of a number.
def hexDigit (n : Nat) : Char := Nat.digitChar (n % 16)

-- Only the quote, the backslash and the control characters are escaped.
def escape (c : Char) : List Char :=
  if c = '"' then ['\\', '"']
  else if c = '\\' then ['\\', '\\']
  else if c = '\x08' then ['\\', 'b']
  else if c = '\x0c' then ['\\', 'f']
  else if c = '\n' then ['\\', 'n']
  else if c = '\r' then ['\\', 'r']
  else if c = '\t' then ['\\', 't']
  else if c.toNat < 0x20 then ['\\', 'u', '0', '0', hexDigit (c.toNat / 16), hexDigit c.toNat]
  else [c]

def quote (s : String) : List Char := '"' :: s.toList.flatMap escape ++ ['"']

-- Doubles are positional from `0.00001` up to, but not with, `1e+16`.
def layout : Layout := ⟨-5, 15⟩

def numberText : Number → List Char
  | .whole n => n.text
  | .double x => layout.write x

mutual

-- The compact text of a value.
def render : Json → String
  | null => "null"
  | bool true => "true"
  | bool false => "false"
  | number n => String.ofList (numberText n)
  | string s => String.ofList (quote s)
  | array items => "[" ++ ",".intercalate (renderItems items) ++ "]"
  | object members => "\x7b" ++ ",".intercalate (renderMembers members) ++ "\x7d"

def renderItems : List Json → List String
  | [] => []
  | item :: rest => render item :: renderItems rest

def renderMembers : List (String × Json) → List String
  | [] => []
  | (name, value) :: rest =>
    (String.ofList (quote name) ++ ":" ++ render value) :: renderMembers rest

end

end Conform.Json
