import Conform.Number.Double

set_option autoImplicit false

/-!
Numbers written in decimal.
-/

namespace Conform.Numeral

def value (digits : List Char) : Nat :=
  digits.foldl (fun n c => 10 * n + (c.toNat - '0'.toNat)) 0

-- Whether a minus stands in front, and the text behind an optional sign.
def sign : List Char → Bool × List Char
  | '-' :: rest => (true, rest)
  | '+' :: rest => (false, rest)
  | cs => (false, cs)

def natural? (cs : List Char) : Option Nat :=
  if cs ≠ [] ∧ cs.all Char.isDigit then some (value cs) else none

-- Reads an optional sign and one or more digits.
def integer? (cs : List Char) : Option Int :=
  let (negative, digits) := sign cs
  (natural? digits).map (Double.signed negative)

-- The digits behind a point, if one stands in front, and the rest.
def fraction : List Char → List Char × List Char
  | '.' :: rest => (rest.takeWhile Char.isDigit, rest.dropWhile Char.isDigit)
  | cs => ([], cs)

def exponent? : List Char → Option Int
  | [] => some 0
  | c :: rest => if c = 'e' ∨ c = 'E' then integer? rest else none

structure Written where
  negative : Bool
  whole : List Char
  fraction : List Char
  exponent : Int

-- Takes apart a decimal such as `-12.5e3`. Digits may be missing on one side of the point, and the
-- point may be missing too.
def written? (cs : List Char) : Option Written :=
  let (negative, unsigned) := sign cs
  let whole := unsigned.takeWhile Char.isDigit
  let (decimals, rest) := fraction (unsigned.dropWhile Char.isDigit)
  if whole ++ decimals = [] then none
  else (exponent? rest).map fun scale => ⟨negative, whole, decimals, scale⟩

-- The double nearest to the number.
def Written.nearest? (w : Written) : Option Double :=
  Double.ofDecimal? w.negative (value (w.whole ++ w.fraction)) (w.exponent - w.fraction.length)

def double? (cs : List Char) : Option Double := (written? cs).bind Written.nearest?

-- Goes on with a number while 64 bits hold it, and gives the digits that are left.
def leading (n : Nat) : List Char → Nat × List Char
  | [] => (n, [])
  | c :: rest =>
    let more := 10 * n + (c.toNat - '0'.toNat)
    if more < 0x10000000000000000 then leading more rest else (n, c :: rest)

def powerOfTen? (n : Nat) : Option Double := Double.ofRatio? false (Nat.pow 10 n) 1

-- Divides by a power of ten, at most `1e308` at a time. A number that 64 bits hold is zero after
-- three such steps, so more of them change nothing.
def shrink? (x : Double) (places : Nat) : Option Double :=
  let steps := List.replicate (min (places / 308) 3) 308 ++ [places % 308]
  steps.foldlM (fun x n => (powerOfTen? n).bind x.div?) x

-- A double for the number in quick steps, each of them rounded: first the digits that 64 bits hold,
-- then a power of ten. It can differ from the nearest one in the last bits.
def Written.stepwise? (w : Written) : Option Double :=
  let (n, skipped) := leading 0 w.whole
  let (n, unread) := leading n w.fraction
  let scale := w.exponent + skipped.length - (w.fraction.length - unread.length : Nat)
  (Double.ofRatio? w.negative n 1).bind fun x =>
    if scale < 0 then shrink? x scale.natAbs
    else if x.mantissa = 0 then some x
    else if 308 < scale then none
    else (powerOfTen? scale.natAbs).bind x.mul?

end Conform.Numeral
