import Conform.Schema.Trail

set_option autoImplicit false

/-!
What can be wrong with a specification.
-/

namespace Conform

inductive Fault where
  | unknownMarker (marker : String)
  | compositeLiteral (value : Json)
  | tooFewChildren (mode : Combine) (count : Nat)
  | undefinedSlot
  | emptyName
  | unsupportedKey (value : Json)
  | duplicateField (name : String)
  | cyclic
  | tooDeep (limit : Nat)

inductive FaultKind where
  | unrecognized
  | unrecognizedKey
  | duplicateField
  | cyclic
  | tooDeep
deriving DecidableEq

namespace Fault

def kind : Fault → FaultKind
  | unknownMarker _ | compositeLiteral _ | tooFewChildren _ _ | undefinedSlot => .unrecognized
  | emptyName | unsupportedKey _ => .unrecognizedKey
  | duplicateField _ => .duplicateField
  | cyclic => .cyclic
  | tooDeep _ => .tooDeep

def message (place : String) : Fault → String
  | unknownMarker marker =>
    s!"unrecognized specification at {place}: unknown type marker `{marker}`"
  | compositeLiteral value =>
    s!"unrecognized specification at {place}: literal must be a scalar, got " ++ value.render
  | tooFewChildren mode count =>
    s!"unrecognized specification at {place}: " ++ mode.name ++
      s!" combinator needs at least two children, got {count}"
  | undefinedSlot =>
    s!"unrecognized specification at {place}: deferred specification was never defined"
  | emptyName => s!"unrecognized key specification at {place}: field name must not be empty"
  | unsupportedKey value =>
    s!"unrecognized key specification at {place}: unsupported key shape " ++ value.render
  | duplicateField name => s!"duplicate field name `{name}` in record at {place}"
  | cyclic => s!"cyclic specification at {place}"
  | tooDeep limit => s!"specification at {place} nests deeper than {limit} levels"

end Fault

def FaultKind.code : FaultKind → String
  | unrecognized => "SCHEMA_UNRECOGNIZED"
  | unrecognizedKey => "SCHEMA_UNRECOGNIZED_KEY"
  | duplicateField => "SCHEMA_DUPLICATE_FIELD"
  | cyclic => "SCHEMA_CYCLE"
  | tooDeep => "SCHEMA_TOO_DEEP"

structure CompileError where
  trail : Trail
  fault : Fault

namespace CompileError

def code (e : CompileError) : String := e.fault.kind.code

def message (e : CompileError) : String := e.fault.message e.trail.render

end CompileError

end Conform
