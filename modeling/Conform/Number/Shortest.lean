import Conform.Number.Double

set_option autoImplicit false

/-!
The shortest decimal that reads back as a given double, found on ever finer decimal grids.
-/

namespace Conform

structure Decimal where
  digits : Nat
  scale : Int
deriving DecidableEq

namespace Double

-- Compares `a * 10 ^ i` with `b * 2 ^ j` exactly.
def compareScaled (a : Nat) (i : Int) (b : Nat) (j : Int) : Ordering :=
  compare (a * Nat.pow 10 i.toNat * Nat.pow 2 (-j).toNat)
    (b * Nat.pow 2 j.toNat * Nat.pow 10 (-i).toNat)

-- Whether a decimal rounds to `x`, signs aside: it lies between the midpoints to the two neighbours
-- of `x`, which themselves round to `x` when its mantissa is even. Below a power of two the
-- neighbour is half as far away.
def readsBack (x : Double) (d : Decimal) : Bool :=
  let narrow := x.mantissa = 0x10000000000000 ∧ 0 < x.exponent
  let low := if narrow then 4 * x.mantissa - 1 else 4 * x.mantissa - 2
  let high := 4 * x.mantissa + 2
  let ends := x.mantissa % 2 = 0
  let toLow := compareScaled d.digits d.scale low (x.exponent - 1076)
  let toHigh := compareScaled d.digits d.scale high (x.exponent - 1076)
  (toLow == .gt || (ends && toLow == .eq)) && (toHigh == .lt || (ends && toHigh == .eq))

-- The magnitude of `x` over `10 ^ scale`, as a numerator and a denominator.
def scaledBy (x : Double) (scale : Int) : Nat × Nat :=
  (x.numerator * Nat.pow 10 (-scale).toNat, x.denominator * Nat.pow 10 scale.toNat)

-- The multiple of `10 ^ scale` nearest to `x` among the two around it that read back.
def onGrid? (x : Double) (scale : Int) : Option Decimal :=
  let (num, den) := x.scaledBy scale
  let below := num / den
  match x.readsBack ⟨below, scale⟩, x.readsBack ⟨below + 1, scale⟩ with
  | true, true => some ⟨roundDiv num den, scale⟩
  | true, false => some ⟨below, scale⟩
  | false, true => some ⟨below + 1, scale⟩
  | false, false => none

-- The least `k` with `|x| < 10 ^ k`, for a number that is not zero.
def top (x : Double) : Int :=
  let (num, den) := x.scaledBy (-330)
  (decimalLength (num / den) : Int) - 330

-- The magnitude of `x` written out in full.
def exactly (x : Double) : Decimal :=
  ⟨x.numerator * Nat.pow 5 (1074 - x.exponent), -(1074 - x.exponent : Nat)⟩

-- The magnitude of `x` in the fewest digits that read back, the nearest such decimal.
def shortest (x : Double) : Decimal :=
  if x.mantissa = 0 then
    ⟨0, 0⟩
  else
    ((List.range 17).findSome? fun (i : Nat) => x.onGrid? (x.top - (i + 1))).getD x.exactly

end Double

end Conform
