import Conform.Number.Whole

set_option autoImplicit false

/-!
Finite binary64 numbers in exact arithmetic: rounding to the nearest number, reading from a
decimal, products and quotients. Infinities and NaN are no numbers here; what would be one
of them is absent.
-/

namespace Conform

-- The whole number nearest to `num / den`; a half goes to the even neighbour.
def roundDiv (num den : Nat) : Nat :=
  let below := num / den
  let rest := 2 * (num % den)
  if rest < den ∨ (rest = den ∧ below % 2 = 0) then below else below + 1

/--
A finite binary64 number: `mantissa * 2 ^ (exponent - 1074)` with a sign.
The exponent counts from the smallest positive number, and the mantissa has its
full 53 bits unless the exponent is already zero, so each number has one form.
-/
structure Double where
  negative : Bool
  mantissa : Nat
  exponent : Nat
  mantissa_lt : mantissa < 0x20000000000000
  exponent_le : exponent ≤ 2045
  normal : exponent = 0 ∨ 0x10000000000000 ≤ mantissa
deriving DecidableEq

namespace Double

def ofParts? (negative : Bool) (mantissa exponent : Nat) : Option Double :=
  if h : mantissa < 0x20000000000000 ∧ exponent ≤ 2045 ∧
      (exponent = 0 ∨ 0x10000000000000 ≤ mantissa) then
    some ⟨negative, mantissa, exponent, h.1, h.2.1, h.2.2⟩
  else
    none

def zero (negative : Bool) : Double := ⟨negative, 0, 0, by decide, by decide, .inl rfl⟩

-- The number nearest to `num / den`, or nothing if that is too large.
def ofRatio? (negative : Bool) (num den : Nat) : Option Double :=
  let units := num * Nat.pow 2 1074
  let exponent := (units / den).log2 - 52
  let mantissa := roundDiv units (den * Nat.pow 2 exponent)
  if mantissa = 0x20000000000000 then
    -- rounded up to the next power of two
    ofParts? negative 0x10000000000000 (exponent + 1)
  else
    ofParts? negative mantissa exponent

def ofInt? (n : Int) : Option Double := ofRatio? (n < 0) n.natAbs 1

-- How many decimal digits a number takes.
def decimalLength (n : Nat) : Nat := (Nat.toDigits 10 n).length

-- The number nearest to `digits * 10 ^ scale`. Magnitudes beyond `10 ^ 310` overflow and those
-- below `10 ^ -330` vanish, so no larger power of ten is ever formed.
def ofDecimal? (negative : Bool) (digits : Nat) (scale : Int) : Option Double :=
  let top := decimalLength digits + scale
  if digits = 0 ∨ top < -330 then
    some (zero negative)
  else if 310 < top then
    none
  else
    ofRatio? negative (digits * Nat.pow 10 scale.toNat) (Nat.pow 10 (-scale).toNat)

-- The magnitude of `x` as a fraction.
def numerator (x : Double) : Nat := x.mantissa * Nat.pow 2 (x.exponent - 1074)

def denominator (x : Double) : Nat := Nat.pow 2 (1074 - x.exponent)

def mul? (x y : Double) : Option Double :=
  ofRatio? (x.negative != y.negative) (x.numerator * y.numerator) (x.denominator * y.denominator)

def div? (x y : Double) : Option Double :=
  ofRatio? (x.negative != y.negative) (x.numerator * y.denominator) (x.denominator * y.numerator)

-- Equality as numbers: the two zeros are equal.
def same (x y : Double) : Bool :=
  decide (x = y) || (x.mantissa == 0 && y.mantissa == 0)

def signed (negative : Bool) (n : Nat) : Int := if negative then -n else n

-- The number as an integer, if it has no fraction.
def whole? (x : Double) : Option Int :=
  if x.numerator % x.denominator = 0 then
    some (signed x.negative (x.numerator / x.denominator))
  else
    none

end Double

end Conform
