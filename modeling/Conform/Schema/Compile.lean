import Conform.Registry
import Conform.Schema.Options
import Conform.Schema.Spec

set_option autoImplicit false

/-!
From specifications to validators. A slot is compiled once in a run and all its mentions
give the same validator; a slot that reaches itself is refused.
-/

namespace Conform

structure Progress where
  next : Handle
  done : List (Slot × Validator Handle)

abbrev Compiling := StateT Progress (Except CompileError)

namespace Compiling

def fail {α : Type} (trail : Trail) (fault : Fault) : Compiling α := throw ⟨trail, fault⟩

def newTag : Compiling Handle :=
  modifyGet fun progress => (progress.next, { progress with next := progress.next + 1 })

def instantiate (entry : Entry) : Compiling (Validator Handle) :=
  modifyGet fun progress =>
    let (v, next) := entry.instantiate.run progress.next
    (v, { progress with next })

def finish (slot : Slot) (v : Validator Handle) : Compiling Unit :=
  modify fun progress => { progress with done := (slot, v) :: progress.done }

end Compiling

open Compiling

structure Compiler where
  registry : Registry
  options : Options
  slots : Slots

namespace Compiler

def declared (trail : Trail) :
    Nat → List String → List KeySpec → Except CompileError (List (Field (Validator Handle)))
  | _, _, [] => .ok []
  | position, seen, key :: rest =>
    match key.resolve with
    | .error fault => .error ⟨trail ++ [key.step position], fault⟩
    | .ok field =>
      if field.name ∈ seen then
        .error ⟨trail, .duplicateField field.name⟩
      else
        (declared trail (position + 1) (field.name :: seen) rest).map (field :: ·)

abbrev Opener := Slot → Trail → Nat → Compiling (Validator Handle)

-- One element spec checks them all; otherwise each position has its own.
def sequence (c : Compiler) (tag : Handle) : List (Validator Handle) → Validator Handle
  | [element] => .each tag element c.options.failFast
  | items => .tuple tag items c.options.failFast

mutual

-- Compiles a fragment; all but the slots is known from the fragment itself.
def build (c : Compiler) (opener : Opener) (spec : Spec) (trail : Trail) (depth : Nat) :
    Compiling (Validator Handle) :=
  if c.options.maxDepth < depth then
    fail trail (.tooDeep c.options.maxDepth)
  else
    match spec with
    | .validator v => return v
    | .marker marker =>
      match c.registry.find? marker with
      | some entry => instantiate entry
      | none => fail trail (.unknownMarker marker)
    | .record entries extra => do
      let fields ← declared trail 0 [] (entries.map (·.1))
      let fields ← buildFields c opener entries fields trail (depth + 1)
      return .record (← newTag) fields (extra.getD c.options.extraKeys) c.options.failFast
    | .sequence items => do
      let items ← buildAll c opener .index 0 items trail (depth + 1)
      return c.sequence (← newTag) items
    | .combinator mode children =>
      if children.length < 2 then
        fail trail (.tooFewChildren mode children.length)
      else do
        let children ← buildAll c opener (.child mode) 0 children trail (depth + 1)
        return .combinator (← newTag) mode children
    | .literal value =>
      if value.isScalar then
        return .leaf (← newTag) (.exact value)
      else
        fail trail (.compositeLiteral value)
    | .slot slot => opener slot trail depth

def buildAll (c : Compiler) (opener : Opener) (step : Nat → Step) (position : Nat)
    (specs : List Spec) (trail : Trail) (depth : Nat) : Compiling (List (Validator Handle)) :=
  match specs with
  | [] => return []
  | spec :: rest => do
    let v ← build c opener spec (trail ++ [step position]) depth
    return v :: (← buildAll c opener step (position + 1) rest trail depth)

def buildFields (c : Compiler) (opener : Opener) (entries : List (KeySpec × Spec))
    (fields : List (Field (Validator Handle))) (trail : Trail) (depth : Nat) :
    Compiling (List (Field (Validator Handle))) :=
  match entries, fields with
  | (_, spec) :: rest, field :: fields => do
    let v ← build c opener spec (trail ++ [.field field.name]) depth
    return field.attach v :: (← buildFields c opener rest fields trail depth)
  | _, _ => return []

end

-- Compiles a slot once and gives the same validator at every mention. The definition is compiled
-- where the slot is mentioned, at no extra depth; `idle` holds the slots that are not being
-- compiled, and a mention of any other defined slot closes a cycle.
def openSlot (c : Compiler) (idle : List Slot) : Opener := fun slot trail depth => do
  match (← get).done.lookup slot with
  | some v => return v
  | none =>
    match c.slots.get? slot with
    | none => fail trail .undefinedSlot
    | some spec =>
      if _waits : slot ∈ idle then do
        let v ← c.build (openSlot c (idle.erase slot)) spec trail depth
        finish slot v
        return v
      else
        fail trail .cyclic
termination_by idle.length
decreasing_by
  have shorter := List.length_erase_of_mem _waits
  have nonempty := List.length_pos_of_mem _waits
  omega

def run (c : Compiler) (spec : Spec) : Compiling (Validator Handle) :=
  c.build (c.openSlot (List.range c.slots.size)) spec [] 0

def compile (c : Compiler) (spec : Spec) (next : Handle) :
    Except CompileError (Validator Handle × Handle) :=
  ((c.run spec).run ⟨next, []⟩).map fun (v, progress) => (v, progress.next)

def compileKey (key : KeySpec) : Except CompileError (Field (Validator Handle)) :=
  key.resolve.mapError (⟨[], ·⟩)

end Compiler

end Conform
