import Conform.Proofs.Accept
import Conform.Proofs.Digits
import Mathlib.Data.List.Basic
import Mathlib.Data.List.Induction
import Mathlib.Data.List.TakeWhile

set_option autoImplicit false

/-!
Which texts are read as integers. A text between white space counts if it has one sign at most
and then digits only, and if 64 bits, signed or unsigned, hold the number.
-/

namespace Conform

namespace Text

def Padded (cs middle : List Char) : Prop :=
  ∃ before after, cs = before ++ middle ++ after ∧
    (∀ c ∈ before, isBlank c) ∧ (∀ c ∈ after, isBlank c)

theorem padded_trimmed (cs : List Char) : Padded cs (trimmed cs) := by
  let rest := cs.dropWhile isBlank
  refine ⟨cs.takeWhile isBlank, (rest.reverse.takeWhile isBlank).reverse, ?_, ?_, ?_⟩
  · have behind : trimmed cs ++ (rest.reverse.takeWhile isBlank).reverse = rest := by
      rw [trimmed, dropBlanksRight, ← List.reverse_append, List.takeWhile_append_dropWhile,
        List.reverse_reverse]
    rw [List.append_assoc, behind, List.takeWhile_append_dropWhile]
  · exact fun c inside => List.mem_takeWhile_imp inside
  · exact fun c inside => List.mem_takeWhile_imp (List.mem_reverse.mp inside)

theorem trimmed_of_padded {cs middle : List Char} (padded : Padded cs middle)
    (inside : ∀ c ∈ middle, isBlank c = false) (nonempty : middle ≠ []) : trimmed cs = middle := by
  obtain ⟨before, after, rfl, blank, blank'⟩ := padded
  -- the end that comes first ends where the middle begins, from the left and from the right
  have left : (before ++ middle ++ after).dropWhile isBlank = middle ++ after := by
    rw [List.append_assoc]
    refine (split_run blank fun c first => inside c ?_).2
    rw [List.head?_append_of_ne_nil _ nonempty] at first
    exact List.mem_of_mem_head? first
  have right : (middle ++ after).reverse.dropWhile isBlank = middle.reverse := by
    rw [List.reverse_append]
    refine (split_run (fun c member => blank' c (List.mem_reverse.mp member)) ?_).2
    exact fun c first => inside c (List.mem_reverse.mp (List.mem_of_mem_head? first))
  rw [trimmed, dropBlanksRight, left, right, List.reverse_reverse]

end Text

namespace Numeral

inductive Decimal : List Char → Nat → Prop
  | single {d : Nat} (small : d < 10) : Decimal [Nat.digitChar d] d
  | append {cs : List Char} {n d : Nat} (front : Decimal cs n) (small : d < 10) :
      Decimal (cs ++ [Nat.digitChar d]) (10 * n + d)

inductive Denotes : List Char → Int → Prop
  | bare {cs : List Char} {n : Nat} (digits : Decimal cs n) : Denotes cs n
  | plus {cs : List Char} {n : Nat} (digits : Decimal cs n) : Denotes ('+' :: cs) n
  | minus {cs : List Char} {n : Nat} (digits : Decimal cs n) : Denotes ('-' :: cs) (-n)

theorem digitChar_of_isDigit {c : Char} (digit : c.isDigit) :
    ∃ d < 10, c = Nat.digitChar d ∧ c.toNat - '0'.toNat = d := by
  obtain ⟨low, high⟩ := Char.isDigit_iff_toNat.mp digit
  have small : c.toNat - '0'.toNat < 10 := by
    have nine : '9'.toNat = '0'.toNat + 9 := rfl
    omega
  refine ⟨_, small, ?_, rfl⟩
  have same : (Nat.digitChar (c.toNat - '0'.toNat)).toNat = c.toNat := by
    rw [Nat.toNat_digitChar_of_lt_ten small]
    exact Nat.add_sub_cancel' low
  exact Char.toNat_inj.mp same.symm

theorem value_append (cs : List Char) (c : Char) :
    value (cs ++ [c]) = 10 * value cs + (c.toNat - '0'.toNat) := by
  simp [value, List.foldl_append]

theorem Decimal.isDigit {cs : List Char} {n : Nat} (digits : Decimal cs n) :
    ∀ c ∈ cs, c.isDigit := by
  induction digits with
  | single small => simp [Nat.isDigit_digitChar, small]
  | append front small ih =>
    intro c member
    rcases List.mem_append.mp member with earlier | last
    · exact ih c earlier
    · rw [List.mem_singleton.mp last, Nat.isDigit_digitChar, decide_eq_true small]

theorem Decimal.ne_nil {cs : List Char} {n : Nat} (digits : Decimal cs n) : cs ≠ [] := by
  cases digits <;> simp

theorem Decimal.value_eq {cs : List Char} {n : Nat} (digits : Decimal cs n) : value cs = n := by
  induction digits with
  | single small => simpa [value] using Nat.toNat_digitChar_sub_48_of_lt_ten small
  | append front small ih =>
    rw [value_append, ih]
    exact congrArg _ (Nat.toNat_digitChar_sub_48_of_lt_ten small)

theorem decimal_value {cs : List Char} (nonempty : cs ≠ []) (digits : ∀ c ∈ cs, c.isDigit) :
    Decimal cs (value cs) := by
  induction cs using List.reverseRecOn with
  | nil => exact absurd rfl nonempty
  | append_singleton front c ih =>
    obtain ⟨d, small, rfl, read⟩ := digitChar_of_isDigit (digits c (by simp))
    rw [value_append, read]
    cases front with
    | nil => simpa [value] using Decimal.single small
    | cons first more =>
      have earlier := ih (List.cons_ne_nil first more) fun c member =>
        digits c (List.mem_append_left _ member)
      exact earlier.append small

theorem natural?_eq_some_iff {cs : List Char} {n : Nat} : natural? cs = some n ↔ Decimal cs n := by
  rw [natural?]
  constructor
  · intro read
    split at read
    next written =>
      rw [← Option.some.inj read]
      exact decimal_value written.1 (List.all_eq_true.mp written.2)
    next => cases read
  · intro digits
    rw [if_pos ⟨digits.ne_nil, List.all_eq_true.mpr digits.isDigit⟩, digits.value_eq]

theorem sign_cases (cs : List Char) :
    (∃ rest, cs = '-' :: rest ∧ sign cs = (true, rest)) ∨
      (∃ rest, cs = '+' :: rest ∧ sign cs = (false, rest)) ∨
        (cs.head? ≠ some '-' ∧ cs.head? ≠ some '+' ∧ sign cs = (false, cs)) := by
  match cs with
  | [] => simp [sign]
  | c :: rest =>
    by_cases minus : c = '-'
    · simp [minus, sign]
    · by_cases plus : c = '+'
      · simp [plus, sign]
      · simp [minus, plus, sign]

theorem Decimal.sign_eq {cs : List Char} {n : Nat} (digits : Decimal cs n) :
    sign cs = (false, cs) := by
  have unsigned (c : Char) (first : cs.head? = some c) : c.isDigit :=
    digits.isDigit c (List.mem_of_mem_head? first)
  rcases sign_cases cs with ⟨rest, rfl, -⟩ | ⟨rest, rfl, -⟩ | ⟨-, -, split⟩
  · cases unsigned '-' rfl
  · cases unsigned '+' rfl
  · exact split

theorem integer?_eq (cs : List Char) :
    integer? cs = (natural? (sign cs).2).map (Double.signed (sign cs).1) := rfl

theorem integer?_eq_some_iff {cs : List Char} {n : Int} : integer? cs = some n ↔ Denotes cs n := by
  rw [integer?_eq, Option.map_eq_some_iff]
  constructor
  · rintro ⟨m, digits, rfl⟩
    rw [natural?_eq_some_iff] at digits
    rcases sign_cases cs with ⟨rest, rfl, split⟩ | ⟨rest, rfl, split⟩ | ⟨-, -, split⟩
    all_goals rw [split] at digits ⊢
    · exact .minus digits
    · exact .plus digits
    · exact .bare digits
  · intro denotes
    cases denotes with
    | bare digits =>
      rw [digits.sign_eq]
      exact ⟨_, natural?_eq_some_iff.mpr digits, rfl⟩
    | plus digits => exact ⟨_, natural?_eq_some_iff.mpr digits, rfl⟩
    | minus digits => exact ⟨_, natural?_eq_some_iff.mpr digits, rfl⟩

def within? (limit : Nat) : Nat → List Char → Option Nat
  | n, [] => some n
  | n, c :: rest =>
    let more := 10 * n + (c.toNat - '0'.toNat)
    if c.isDigit ∧ more ≤ limit then within? limit more rest else none

def bounded? (limit : Nat) (cs : List Char) : Option Nat :=
  if cs = [] then none else within? limit 0 cs

-- The limit is one further away below zero.
def signed? (cs : List Char) : Option Int :=
  let (negative, digits) := sign cs
  (bounded? (if negative then 0x8000000000000000 else 0x7fffffffffffffff) digits).map
    (Double.signed negative)

def unsigned? (cs : List Char) : Option Int :=
  let digits := if cs.head? = some '+' then cs.tail else cs
  (bounded? 0xffffffffffffffff digits).map (Double.signed false)

def inTurn? (cs : List Char) : Option Int := (signed? cs).or (unsigned? cs)

def readOn (n : Nat) (cs : List Char) : Nat :=
  cs.foldl (fun n c => 10 * n + (c.toNat - '0'.toNat)) n

theorem readOn_cons (n : Nat) (c : Char) (rest : List Char) :
    readOn n (c :: rest) = readOn (10 * n + (c.toNat - '0'.toNat)) rest := List.foldl_cons

theorem le_readOn (n : Nat) (cs : List Char) : n ≤ readOn n cs := by
  induction cs generalizing n with
  | nil => exact Nat.le_refl n
  | cons c rest ih => exact Nat.le_trans (by omega) (ih (10 * n + (c.toNat - '0'.toNat)))

-- A number only grows, so it has stayed within the limit if it is there in the end.
theorem within?_eq {limit n : Nat} (cs : List Char) (inside : n ≤ limit) :
    within? limit n cs =
      if cs.all Char.isDigit ∧ readOn n cs ≤ limit then some (readOn n cs) else none := by
  induction cs generalizing n with
  | nil => simp [within?, readOn, inside]
  | cons c rest ih =>
    rw [within?, readOn_cons]
    by_cases digit : c.isDigit
    · by_cases more : 10 * n + (c.toNat - '0'.toNat) ≤ limit
      · simp only [digit, more, ih more, List.all_cons, Bool.true_and, true_and, if_true]
      · have beyond : ¬ readOn (10 * n + (c.toNat - '0'.toNat)) rest ≤ limit := fun small =>
          more (Nat.le_trans (le_readOn _ rest) small)
        simp only [more, beyond, and_false, if_false]
    · simp [digit]

theorem bounded?_eq_some_iff {limit n : Nat} {cs : List Char} :
    bounded? limit cs = some n ↔ natural? cs = some n ∧ n ≤ limit := by
  rw [bounded?, natural?]
  by_cases empty : cs = []
  · simp [empty]
  · rw [if_neg empty, within?_eq cs (Nat.zero_le limit)]
    have whole : value cs = readOn 0 cs := rfl
    rw [whole]
    by_cases digits : cs.all Char.isDigit
    · simp only [digits, empty, ne_eq, not_false_eq_true, true_and, and_true, if_true]
      constructor
      · intro read
        split at read
        next small =>
          cases read
          exact ⟨rfl, small⟩
        next => cases read
      · rintro ⟨⟨⟩, small⟩
        rw [if_pos small]
    · simp [digits]

theorem signed?_eq_some_iff {cs : List Char} {n : Int} :
    signed? cs = some n ↔
      integer? cs = some n ∧ -0x8000000000000000 ≤ n ∧ n < 0x8000000000000000 := by
  have read : signed? cs = (bounded? (if (sign cs).1 then 0x8000000000000000 else
    0x7fffffffffffffff) (sign cs).2).map (Double.signed (sign cs).1) := rfl
  have limit (negative : Bool) (m : Nat) :
      m ≤ (if negative then 0x8000000000000000 else 0x7fffffffffffffff) ↔
        -0x8000000000000000 ≤ Double.signed negative m ∧
          Double.signed negative m < 0x8000000000000000 := by
    cases negative <;> simp [Double.signed] <;> omega
  rw [read, integer?_eq]
  simp only [Option.map_eq_some_iff, bounded?_eq_some_iff, limit]
  grind

theorem unsigned?_eq_some_iff {cs : List Char} {n : Int} :
    unsigned? cs = some n ↔
      integer? cs = some n ∧ cs.head? ≠ some '-' ∧ n < 0x10000000000000000 := by
  have limit (m : Nat) :
      m ≤ 0xffffffffffffffff ↔ Double.signed false m < 0x10000000000000000 := by
    simp [Double.signed]
    omega
  rw [unsigned?, integer?_eq]
  simp only [Option.map_eq_some_iff, bounded?_eq_some_iff, limit]
  rcases sign_cases cs with ⟨rest, rfl, -⟩ | ⟨rest, rfl, split⟩ | ⟨minus, plus, split⟩
  · simp [natural?]
  · rw [split]
    simp
    grind
  · rw [split]
    simp [minus, plus]
    grind

theorem inTurn?_bind (cs : List Char) :
    (inTurn? cs).bind Whole.ofInt? = (integer? cs).bind Whole.ofInt? := by
  apply Option.ext
  intro w
  simp only [inTurn?, Option.bind_eq_some_iff, Option.or_eq_some_iff]
  constructor
  · rintro ⟨n, signed | ⟨-, unsigned⟩, held⟩
    · exact ⟨n, (signed?_eq_some_iff.mp signed).1, held⟩
    · exact ⟨n, (unsigned?_eq_some_iff.mp unsigned).1, held⟩
  · rintro ⟨n, read, held⟩
    have value := Whole.val_of_ofInt? held
    have lower := w.lower
    have upper := w.upper
    refine ⟨n, ?_, held⟩
    by_cases small : n < 0x8000000000000000
    · exact .inl (signed?_eq_some_iff.mpr ⟨read, by omega, small⟩)
    · refine .inr ⟨?_, unsigned?_eq_some_iff.mpr ⟨read, ?_, by omega⟩⟩
      · cases signed : signed? cs with
        | none => rfl
        | some m =>
          obtain ⟨again, -, below⟩ := signed?_eq_some_iff.mp signed
          rw [read] at again
          cases again
          exact absurd below small
      · intro minus
        obtain ⟨rest, rfl⟩ := List.head?_eq_some_iff.mp minus
        obtain ⟨m, -, rfl⟩ := Option.map_eq_some_iff.mp ((integer?_eq _).symm.trans read)
        simp [sign, Double.signed] at small
        omega

theorem Denotes.char_cases {cs : List Char} {n : Int} (denotes : Denotes cs n) :
    ∀ c ∈ cs, c.isDigit ∨ c = '+' ∨ c = '-' := by
  intro c member
  cases denotes with
  | bare digits => exact .inl (digits.isDigit c member)
  | plus digits | minus digits =>
    rcases List.mem_cons.mp member with first | later
    · simp [first]
    · exact .inl (digits.isDigit c later)

theorem Denotes.not_blank {cs : List Char} {n : Int} (denotes : Denotes cs n) :
    ∀ c ∈ cs, Text.isBlank c = false := by
  intro c member
  rcases denotes.char_cases c member with digit | rfl | rfl
  · obtain ⟨low, high⟩ := Char.isDigit_iff_toNat.mp digit
    have zero : '0'.toNat = 48 := rfl
    have nine : '9'.toNat = 57 := rfl
    simp [Text.isBlank]
    omega
  · rfl
  · rfl

theorem Denotes.ne_nil {cs : List Char} {n : Int} (denotes : Denotes cs n) : cs ≠ [] := by
  cases denotes with
  | bare digits => exact digits.ne_nil
  | plus | minus => exact List.cons_ne_nil _ _

end Numeral

namespace Whole

def SpelledBy (n : Whole) (s : String) : Prop :=
  ∃ middle, Text.Padded s.toList middle ∧ Numeral.Denotes middle n.val

theorem denotes_text (n : Whole) : Numeral.Denotes n.text n.val := by
  have digits : Numeral.Decimal (Nat.toDigits 10 n.val.natAbs) n.val.natAbs :=
    Numeral.natural?_eq_some_iff.mp (Numeral.natural?_toDigits _)
  rw [text]
  split
  next negative =>
    have denotes := Numeral.Denotes.minus digits
    rwa [Int.ofNat_natAbs_of_nonpos (Int.le_of_lt negative), Int.neg_neg] at denotes
  next nonneg =>
    have denotes := Numeral.Denotes.bare digits
    rwa [Int.natAbs_of_nonneg (Int.not_lt.mp nonneg)] at denotes

theorem ofText?_eq_some_iff {s : String} {n : Whole} : ofText? s = some n ↔ n.SpelledBy s := by
  rw [ofText?, Option.bind_eq_some_iff]
  constructor
  · rintro ⟨m, read, held⟩
    rw [Numeral.integer?_eq_some_iff, ← val_of_ofInt? held] at read
    exact ⟨_, Text.padded_trimmed s.toList, read⟩
  · rintro ⟨middle, padded, denotes⟩
    rw [Text.trimmed_of_padded padded denotes.not_blank denotes.ne_nil]
    exact ⟨n.val, Numeral.integer?_eq_some_iff.mpr denotes, ofInt?_val n⟩

end Whole

namespace Primitive

theorem check_integer_string (s : String) :
    integer.check (.string s) =
      Check.orFail ((Whole.ofText? s).map .whole) (notInteger (.string s)) := rfl

theorem check_integer_string_eq_ok_iff {s : String} {n : Whole} :
    integer.check (.string s) = .ok (.whole n) ↔ n.SpelledBy s := by
  rw [check_integer_string, ← Whole.ofText?_eq_some_iff]
  cases Whole.ofText? s with
  | none => simp [Check.orFail]
  | some m => simp [Check.orFail, Json.whole]

-- A signed number is tried before an unsigned one. Together they read what 64 bits hold.
theorem check_integer_text (s : String) :
    integer.check (.string s) =
        Check.orFail (((Numeral.inTurn? (Text.trimmed s.toList)).bind Whole.ofInt?).map .whole)
          (notInteger (.string s)) ∧
      (∀ n : Whole, integer.check (.string s) = .ok (.whole n) ↔ n.SpelledBy s) ∧
      ((∃ n : Whole, n.SpelledBy s) ∨
        ∃ e, integer.check (.string s) = .error e ∧ e.code = "not_integer") ∧
      (∀ n : Whole, Text.Padded s.toList n.text →
        integer.check (.string s) = .ok (.whole n)) := by
  refine ⟨?_, fun n => check_integer_string_eq_ok_iff, ?_, ?_⟩
  · rw [check_integer_string, Numeral.inTurn?_bind]
    rfl
  · cases read : Whole.ofText? s with
    | none => exact .inr ⟨_, by rw [check_integer_string, read]; rfl, rfl⟩
    | some n => exact .inl ⟨n, Whole.ofText?_eq_some_iff.mp read⟩
  · intro n padded
    exact check_integer_string_eq_ok_iff.mpr ⟨n.text, padded, n.denotes_text⟩

-- The least number of them all, between a tab and an ideographic space.
theorem check_integer_text_least :
    let least : Whole := ⟨-0x8000000000000000, by decide, by decide⟩
    let s := "\t-9223372036854775808\u3000"
    Text.Padded s.toList least.text ∧ integer.check (.string s) = .ok (.whole least) := by
  intro least s
  have padded : Text.Padded s.toList least.text := by
    refine ⟨['\t'], ['\u3000'], by decide, ?_, ?_⟩
    · exact List.forall_mem_singleton.mpr rfl
    · exact List.forall_mem_singleton.mpr rfl
  exact ⟨padded, (check_integer_text s).2.2.2 least padded⟩

end Primitive

end Conform
