import Conform.Json.Text
import Conform.Validator.Basic

set_option autoImplicit false

/-!
Places inside a specification, and how they are written: `$.servers[0]<any_of#1>`.
-/

namespace Conform

inductive Step where
  | field (name : String)
  | index (i : Nat)
  | child (mode : Combine) (i : Nat)
deriving DecidableEq

namespace Step

def isPlain (name : String) : Bool :=
  name ≠ "" && name.toList.all fun c => c ∉ ['.', '[', ']', '"', '<']

def text : Step → List Char
  | field name => if isPlain name then '.' :: name.toList else '[' :: Json.quote name ++ [']']
  | index i => '[' :: Nat.toDigits 10 i ++ [']']
  | child mode i => '<' :: mode.name.toList ++ '#' :: Nat.toDigits 10 i ++ ['>']

end Step

abbrev Trail := List Step

namespace Trail

def text (trail : Trail) : List Char := '$' :: trail.flatMap Step.text

def render (trail : Trail) : String := String.ofList trail.text

end Trail

end Conform
