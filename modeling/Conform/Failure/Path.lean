import Conform.Json.Text

set_option autoImplicit false

/-!
Places inside a value, and how they are written: `servers[1].name`.
-/

namespace Conform

inductive Segment where
  | key (name : String)
  | index (i : Nat)
deriving DecidableEq

namespace Segment

-- Names that would read as path notation are written in brackets and quotes.
def isPlain (name : String) : Bool :=
  name ≠ "" && name.toList.all fun c => c ∉ ['.', '[', ']', '"']

def text : Segment → List Char
  | key name => if isPlain name then name.toList else '[' :: Json.quote name ++ [']']
  | index i => '[' :: Nat.toDigits 10 i ++ [']']

-- Puts a step in front of a path that is written already; a bracket needs no point.
def before (s : Segment) (rest : List Char) : List Char :=
  if rest.head? = some '[' then s.text ++ rest else s.text ++ '.' :: rest

end Segment

-- Where a part of a value is found, from the outside in.
abbrev Path := List Segment

def Path.text : Path → List Char
  | [] => []
  | [s] => s.text
  | s :: rest => s.before (Path.text rest)

-- The text of a path; the value itself has none.
def Path.field? (path : Path) : Option String :=
  if path = [] then none else some (String.ofList path.text)

end Conform
