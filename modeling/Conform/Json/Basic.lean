import Conform.Number.Double

set_option autoImplicit false

/-!
JSON values. Numbers are of two kinds, whole and double, and the members of an object keep
their order.
-/

namespace Conform

inductive Number where
  | whole (n : Whole)
  | double (x : Double)
deriving DecidableEq

namespace Number

def toDouble? : Number → Option Double
  | whole n => Double.ofInt? n.val
  | double x => some x

-- Equality within a kind; the two zeros are equal.
def same : Number → Number → Bool
  | whole m, whole n => m == n
  | double x, double y => x.same y
  | _, _ => false

-- Equality across kinds, where one double makes both numbers doubles.
def equal : Number → Number → Bool
  | whole m, whole n => m == n
  | a, b =>
    match a.toDouble?, b.toDouble? with
    | some x, some y => x.same y
    | _, _ => false

end Number

-- The members of an object in order, or any other values under names.
abbrev Members (α : Type) := List (String × α)

-- Writes a member: in place if the name is there, else at the end.
def Members.insert {α : Type} (name : String) (value : α) : Members α → Members α
  | [] => [(name, value)]
  | (other, old) :: rest =>
    if other = name then (name, value) :: rest else (other, old) :: Members.insert name value rest

theorem Members.lookup_cons {α : Type} (name other : String) (value : α) (rest : Members α) :
    List.lookup other ((name, value) :: rest) =
      if other = name then some value else rest.lookup other := by
  by_cases same : other = name
  · simp [same]
  · rw [List.lookup_cons, beq_eq_false_iff_ne.mpr same, if_neg same]

theorem Members.lookup_insert {α : Type} (name other : String) (value : α) (members : Members α) :
    (members.insert name value).lookup other =
      if other = name then some value else members.lookup other := by
  induction members with
  | nil => rw [insert, lookup_cons]
  | cons member rest ih =>
    obtain ⟨key, old⟩ := member
    rw [insert, lookup_cons]
    split <;> rw [lookup_cons]
    · next here => subst here; split <;> rfl
    · next apart =>
      rw [ih]
      split <;> split <;> simp_all

-- Writes the members one after another, so that the last of a name wins.
def Members.gather {α : Type} (members : List (String × α)) : Members α :=
  members.foldl (fun all (name, value) => Members.insert name value all) []

inductive Json where
  | null
  | bool (b : Bool)
  | number (n : Number)
  | string (s : String)
  | array (items : List Json)
  | object (members : List (String × Json))
deriving Inhabited

namespace Json

def whole (n : Whole) : Json := number (.whole n)

def double (x : Double) : Json := number (.double x)

-- The name of a value's kind in messages.
def kind : Json → String
  | null => "null"
  | bool _ => "boolean"
  | number (.whole _) => "integer"
  | number (.double _) => "float"
  | string _ => "string"
  | array _ => "array"
  | object _ => "object"

def isScalar : Json → Bool
  | array _ | object _ => false
  | _ => true

def members? : Json → Option (Members Json)
  | object members => some members
  | _ => none

mutual

-- Equality of values, where the members of an object may come in any order.
def same : Json → Json → Bool
  | null, null => true
  | bool a, bool b => a == b
  | number a, number b => a.same b
  | string a, string b => a == b
  | array a, array b => sameItems a b
  | object a, object b => a.length == b.length && sameMembers a b
  | _, _ => false

def sameItems : List Json → List Json → Bool
  | [], [] => true
  | a :: as, b :: bs => same a b && sameItems as bs
  | _, _ => false

def sameMembers : List (String × Json) → List (String × Json) → Bool
  | [], _ => true
  | (name, a) :: rest, other =>
    (match other.lookup name with
      | some b => same a b
      | none => false) && sameMembers rest other

end

end Json

end Conform
