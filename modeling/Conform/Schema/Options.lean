import Conform.Text.Blank
import Conform.Text.Numeral
import Conform.Validator.Field

set_option autoImplicit false

/-!
Options of a compiler, and how they are read from variables and from JSON.
-/

namespace Conform

/-- What a compiler applies where a specification says nothing of its own. -/
structure Options where
  extraKeys : ExtraKeys := .reject
  maxDepth : Nat := 256
  failFast : Bool := false
deriving DecidableEq

namespace Options

def strict : Options := {}

def lenient : Options := { extraKeys := .ignore, failFast := true }

-- Lower case of the characters that have an ASCII letter as theirs.
def lower (c : Char) : Char :=
  if 'A' ≤ c ∧ c ≤ 'Z' then Char.ofNat (c.toNat + 32)
  else if c = '\u212A' then 'k'
  else c

-- A word of a variable, regardless of case and of white space around it.
def word (s : String) : String := String.ofList ((Text.trimmed s.toList).map lower)

def extraKeysOf? (s : String) : Option ExtraKeys := ExtraKeys.named? (word s)

-- A depth is a number of 64 bits, perhaps with a plus in front.
def maxDepthOf? (s : String) : Option Nat :=
  let cs := Text.trimmed s.toList
  let digits := if cs.head? = some '+' then cs.drop 1 else cs
  (Numeral.natural? digits).filter (· < 0x10000000000000000)

def failFastOf? (s : String) : Option Bool :=
  if word s ∈ ["1", "true", "yes", "on"] then some true
  else if word s ∈ ["0", "false", "no", "off"] then some false
  else none

-- Reads the variables whose names begin with `lead`; what cannot be read keeps its default.
def ofVariables (lead : String) (lookup : String → Option String) : Options where
  extraKeys := ((lookup (lead ++ "EXTRA_KEYS")).bind extraKeysOf?).getD strict.extraKeys
  maxDepth := ((lookup (lead ++ "MAX_DEPTH")).bind maxDepthOf?).getD strict.maxDepth
  failFast := ((lookup (lead ++ "FAIL_FAST")).bind failFastOf?).getD strict.failFast

-- Reads the variables of an environment.
def ofEnvironment (lookup : String → Option String) : Options := ofVariables "TRELLIS_" lookup

-- Reads a member that may be missing but not malformed.
def member? {α : Type} (members : Members Json) (name : String) (fallback : α)
    (read? : Json → Option α) : Option α :=
  match members.lookup name with
  | some value => read? value
  | none => some fallback

-- A policy is a word, or an object with the word as its only name and no value.
def readExtraKeys? : Json → Option ExtraKeys
  | .string name => ExtraKeys.named? name
  | .object [(name, .null)] => ExtraKeys.named? name
  | _ => none

def readMaxDepth? : Json → Option Nat
  | .number (.whole n) => if n.val < 0 then none else some n.val.toNat
  | _ => none

def readFailFast? : Json → Option Bool
  | .bool b => some b
  | _ => none

def ofJson? : Json → Option Options
  | .object members => do
    let extraKeys ← member? members "extra_keys" strict.extraKeys readExtraKeys?
    let maxDepth ← member? members "max_depth" strict.maxDepth readMaxDepth?
    let failFast ← member? members "fail_fast" strict.failFast readFailFast?
    return { extraKeys, maxDepth, failFast }
  | _ => none

end Options

end Conform
