set_option autoImplicit false

/-!
Lists of entries sorted by key.
-/

namespace Conform.Sorted

variable {α : Type}

-- Writes an entry into a list sorted by key, over an entry that has the key already.
def put (key : String) (value : α) : List (String × α) → List (String × α)
  | [] => [(key, value)]
  | (other, old) :: rest =>
    if key < other then (key, value) :: (other, old) :: rest
    else if key = other then (key, value) :: rest
    else (other, old) :: put key value rest

end Conform.Sorted
