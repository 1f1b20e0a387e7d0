set_option autoImplicit false

/-!
The primitive kinds of value, and the names under which a schema asks for them.
-/

namespace Conform

inductive Primitive where
  | any
  | null
  | boolean
  | integer
  | float
  | string
  | list
  | mapping
deriving DecidableEq

namespace Primitive

def all : List Primitive := [any, null, boolean, integer, float, string, list, mapping]

def name : Primitive → String
  | any => "any"
  | null => "null"
  | boolean => "boolean"
  | integer => "integer"
  | float => "float"
  | string => "string"
  | list => "list"
  | mapping => "mapping"

def aliases : Primitive → List String
  | boolean => ["bool"]
  | integer => ["int"]
  | float => ["number"]
  | string => ["str"]
  | list => ["array"]
  | mapping => ["object"]
  | any | null => []

def names (p : Primitive) : List String := p.name :: p.aliases

def named? (name : String) : Option Primitive := all.find? (·.name = name)

end Primitive

end Conform
