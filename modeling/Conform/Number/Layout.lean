import Conform.Number.Shortest

set_option autoImplicit false

/-!
How the digits of a double are laid out as text, positionally or with an exponent.
-/

namespace Conform

/-- Which exponents of the first digit are written positionally; the others get an `e`. -/
structure Layout where
  lowest : Int
  highest : Int

namespace Layout

def zeros (n : Nat) : List Char := List.replicate n '0'

-- Puts the decimal point behind `point` digits; a fraction is always written.
def positional (digits : List Char) (point : Int) : List Char :=
  if point ≤ 0 then
    '0' :: '.' :: zeros (-point).toNat ++ digits
  else if digits.length ≤ point then
    digits ++ zeros (point.toNat - digits.length) ++ ['.', '0']
  else
    digits.take point.toNat ++ '.' :: digits.drop point.toNat

def exponent (n : Int) : List Char :=
  'e' :: (if n < 0 then '-' else '+') :: Nat.toDigits 10 n.natAbs

def scientific : List Char → Int → List Char
  | [], n => exponent n
  | [d], n => d :: exponent n
  | d :: rest, n => d :: '.' :: rest ++ exponent n

-- The digits of a decimal without trailing zeros, of which it keeps the first digit.
def significant (d : Decimal) : List Char :=
  match Nat.toDigits 10 d.digits with
  | [] => []
  | first :: rest => first :: (rest.reverse.dropWhile (· == '0')).reverse

def magnitude (layout : Layout) (d : Decimal) : List Char :=
  let point := Double.decimalLength d.digits + d.scale
  if layout.lowest ≤ point - 1 ∧ point - 1 ≤ layout.highest then
    positional (significant d) point
  else
    scientific (significant d) (point - 1)

def write (layout : Layout) (x : Double) : List Char :=
  if x.negative then
    '-' :: layout.magnitude x.shortest
  else
    layout.magnitude x.shortest

end Layout

end Conform
