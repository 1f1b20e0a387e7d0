import Conform.Text.Blank
import Conform.Text.Numeral
import Conform.Validator.Basic

set_option autoImplicit false

/-!
The checks of the leaves: primitive kinds, with their coercions, and exact values.
-/

namespace Conform

def notInteger (value : Json) : Failure :=
  { code := "not_integer"
    message := "value is not an integer"
    params := [("actual", value.kind)] }

def notFloat (value : Json) : Failure :=
  { code := "not_float"
    message := "value is not a finite number"
    params := [("actual", value.kind)] }

-- A double without fraction as a whole number of 64 signed bits.
def Double.integral? (x : Double) : Option Whole :=
  match x.whole? with
  | some n => if Whole.isSigned n then Whole.ofInt? n else none
  | none => none

-- The whole number that a text denotes between white space.
def Whole.ofText? (s : String) : Option Whole :=
  (Numeral.integer? (Text.trimmed s.toList)).bind Whole.ofInt?

def Double.ofText? (s : String) : Option Double := Numeral.double? (Text.trimmed s.toList)

namespace Check

def orFail (found : Option Json) (failure : Failure) : Outcome Json :=
  match found with
  | some value => .ok value
  | none => .error failure

-- Takes whole numbers, doubles without fraction and texts of whole numbers.
def integer : Check
  | .number (.whole n) => .ok (.whole n)
  | .number (.double x) => orFail (x.integral?.map .whole) (notInteger (.double x))
  | .string s => orFail ((Whole.ofText? s).map .whole) (notInteger (.string s))
  | value => .error (.typeMismatch "integer" value)

-- Takes numbers and texts of numbers, always as a double.
def float : Check
  | .number n => orFail (n.toDouble?.map .double) (notFloat (.number n))
  | .string s => orFail ((Double.ofText? s).map .double) (notFloat (.string s))
  | value => .error (.typeMismatch "float" value)

-- Takes the values of one kind as they are.
def ofKind (expected : String) (value : Json) : Outcome Json :=
  if value.kind = expected then .ok value else .error (.typeMismatch expected value)

-- Numbers are compared as numbers, all else as it is written.
def isExactly : Json → Json → Bool
  | .number a, .number b => a.equal b
  | expected, value => expected.same value

def exact (expected : Json) : Check := fun value =>
  if isExactly expected value then
    .ok expected
  else
    let text := expected.render
    .error
      { code := "not_exact"
        message := s!"value is not exactly {text}"
        params := [("expected", text)] }

end Check

def Primitive.check : Primitive → Check
  | any => .ok
  | null => Check.ofKind "null"
  | boolean => Check.ofKind "boolean"
  | integer => Check.integer
  | float => Check.float
  | string => Check.ofKind "string"
  | list => Check.ofKind "array"
  | mapping => Check.ofKind "object"

def Leaf.check : Leaf → Check
  | primitive p => p.check
  | exact expected => Check.exact expected
  | rule r => r.check

end Conform
