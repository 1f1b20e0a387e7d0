set_option autoImplicit false

/-!
Whole numbers of 64 bits, the only ones that a JSON value can hold exactly.
-/

namespace Conform

structure Whole where
  val : Int
  lower : -0x8000000000000000 ≤ val
  upper : val < 0x10000000000000000
deriving DecidableEq

namespace Whole

def ofInt? (n : Int) : Option Whole :=
  if h : -0x8000000000000000 ≤ n ∧ n < 0x10000000000000000 then some ⟨n, h.1, h.2⟩ else none

theorem ofInt?_val (n : Whole) : ofInt? n.val = some n :=
  dif_pos ⟨n.lower, n.upper⟩

theorem val_of_ofInt? {n : Int} {w : Whole} (h : ofInt? n = some w) : w.val = n := by
  unfold ofInt? at h
  split at h
  · cases h; rfl
  · cases h

def zero : Whole := ⟨0, by decide, by decide⟩

-- Whether 64 signed bits hold a number.
def isSigned (n : Int) : Bool := -0x8000000000000000 ≤ n && n < 0x8000000000000000

def signed? (n : Whole) : Option Int := if isSigned n.val then some n.val else none

def text (n : Whole) : List Char :=
  if n.val < 0 then '-' :: Nat.toDigits 10 n.val.natAbs else Nat.toDigits 10 n.val.natAbs

end Whole

end Conform
