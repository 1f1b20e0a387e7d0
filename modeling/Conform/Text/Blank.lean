set_option autoImplicit false

/-!
White space, and texts without it at their ends.
-/

namespace Conform.Text

-- The white space of Unicode, 25 characters.
def isBlank (c : Char) : Bool :=
  let n := c.toNat
  (0x09 ≤ n && n ≤ 0x0D) || n == 0x20 || n == 0x85 || n == 0xA0 || n == 0x1680 ||
    (0x2000 ≤ n && n ≤ 0x200A) || n == 0x2028 || n == 0x2029 || n == 0x202F || n == 0x205F ||
    n == 0x3000

def dropBlanksRight (cs : List Char) : List Char := (cs.reverse.dropWhile isBlank).reverse

-- The text without white space at either end.
def trimmed (cs : List Char) : List Char := dropBlanksRight (cs.dropWhile isBlank)

def trim (s : String) : String := String.ofList (trimmed s.toList)

end Conform.Text
