import Conform.Json.Basic
import Conform.Text.Numeral

set_option autoImplicit false

/-!
Reading JSON values: a text is cut into tokens, and the tokens are taken one by one with a
stack of the arrays and objects that are still open.
-/

namespace Conform.Json

inductive Token where
  | mark (c : Char)
  | scalar (value : Json)

def isSpace (c : Char) : Bool := c = ' ' || c = '\n' || c = '\r' || c = '\t'

def isMark (c : Char) : Bool := c ∈ ['[', ']', '{', '}', ',', ':']

-- Splits a text at the first quote that no backslash escapes.
def closing : List Char → Option (List Char × List Char)
  | [] => none
  | '"' :: rest => some ([], rest)
  | '\\' :: c :: rest => (closing rest).map fun (body, more) => ('\\' :: c :: body, more)
  | c :: rest => (closing rest).map fun (body, more) => (c :: body, more)

theorem closing_shorter {cs body more : List Char} (h : closing cs = some (body, more)) :
    more.length < cs.length := by
  induction cs using closing.induct generalizing body more with
  | case1 => simp [closing] at h
  | case2 rest => simp [closing] at h; simp [h.2]
  | case3 c rest ih =>
    simp only [closing, Option.map_eq_some_iff, Prod.exists] at h
    obtain ⟨a, b, ha, hb⟩ := h
    have := ih ha
    cases hb
    simp; omega
  | case4 c rest hq hb ih =>
    rw [closing] at h
    · simp only [Option.map_eq_some_iff, Prod.exists] at h
      obtain ⟨a, b, ha, hb⟩ := h
      have := ih ha
      cases hb
      simp; omega
    · exact hq
    · exact hb

def hexValue? (c : Char) : Option Nat :=
  if c.isDigit then some (c.toNat - '0'.toNat)
  else if 'a' ≤ c ∧ c ≤ 'f' then some (c.toNat - 'a'.toNat + 10)
  else if 'A' ≤ c ∧ c ≤ 'F' then some (c.toNat - 'A'.toNat + 10)
  else none

def unit? (a b c d : Char) : Option Nat := do
  let digits ← [a, b, c, d].mapM hexValue?
  return digits.foldl (fun n digit => 16 * n + digit) 0

-- The character of a code point outside the surrogates.
def scalarChar? (n : Nat) : Option Char :=
  if h : n.isValidChar then some (Char.ofNatAux n h) else none

def isHighSurrogate (n : Nat) : Bool := 0xD800 ≤ n && n < 0xDC00

def isLowSurrogate (n : Nat) : Bool := 0xDC00 ≤ n && n < 0xE000

-- The character that a pair of surrogates stands for.
def pairChar? (high low : Nat) : Option Char :=
  if isLowSurrogate low then
    scalarChar? (0x10000 + (high - 0xD800) * 0x400 + (low - 0xDC00))
  else
    none

def shortEscape? : Char → Option Char
  | '"' => some '"'
  | '\\' => some '\\'
  | '/' => some '/'
  | 'b' => some '\x08'
  | 'f' => some '\x0c'
  | 'n' => some '\n'
  | 'r' => some '\r'
  | 't' => some '\t'
  | _ => none

-- Undoes the escapes in the body of a quoted text.
def unescape? : List Char → Option (List Char)
  | [] => some []
  | '\\' :: 'u' :: a :: b :: c :: d :: rest => do
    let high ← unit? a b c d
    if isHighSurrogate high then
      match rest with
      | '\\' :: 'u' :: e :: f :: g :: h :: more => do
        return (← pairChar? high (← unit? e f g h)) :: (← unescape? more)
      | _ => none
    else
      return (← scalarChar? high) :: (← unescape? rest)
  | '\\' :: c :: rest => do return (← shortEscape? c) :: (← unescape? rest)
  | c :: rest => if c.toNat < 0x20 then none else do return c :: (← unescape? rest)

-- Whether a whole part has a digit and no needless zero in front.
def plainWhole : List Char → Bool
  | [] => false
  | ['0'] => true
  | c :: _ => c != '0'

-- Whether a point is followed by a digit.
def fullFraction : List Char → Bool
  | '.' :: c :: _ => c.isDigit
  | ['.'] => false
  | _ => true

-- A number without point and exponent is whole if 64 bits hold it; all others, and the negative
-- zero, are doubles.
def number? (cs : List Char) : Option Number :=
  let unsigned := if cs.head? = some '-' then cs.drop 1 else cs
  let digits := unsigned.takeWhile Char.isDigit
  let rest := unsigned.dropWhile Char.isDigit
  if plainWhole digits && fullFraction rest then
    let whole? := if rest = [] ∧ cs ≠ ['-', '0'] then Numeral.integer? cs else none
    match whole?.bind Whole.ofInt? with
    | some n => some (.whole n)
    | none => ((Numeral.written? cs).bind (·.stepwise?)).map .double
  else
    none

def scalar? (word : List Char) : Option Json :=
  if word = "null".toList then some .null
  else if word = "true".toList then some (.bool true)
  else if word = "false".toList then some (.bool false)
  else (number? word).map .number

def inWord (c : Char) : Bool := !isSpace c && !isMark c && c != '"'

def tokens? : List Char → Option (List Token)
  | [] => some []
  | c :: rest =>
    if isSpace c then
      tokens? rest
    else if isMark c then
      (tokens? rest).map (.mark c :: ·)
    else if c = '"' then
      match _h : closing rest with
      | none => none
      | some (body, more) => do
        return .scalar (.string (String.ofList (← unescape? body))) :: (← tokens? more)
    else do
      let value ← scalar? (c :: rest.takeWhile inWord)
      return .scalar value :: (← tokens? (rest.dropWhile inWord))
termination_by cs => cs.length
decreasing_by
  all_goals simp_wf
  · have := closing_shorter _h; omega
  · have := (rest.dropWhile_suffix inWord).length_le; omega

inductive Frame where
  | array (done : List Json)
  | object (done : Members Json) (name : String)

mutual

-- Reads a value inside the open frames, innermost first.
def opening (frames : List Frame) : List Token → Option Json
  | .scalar value :: rest => closed frames value rest
  | .mark '[' :: .mark ']' :: rest => closed frames (.array []) rest
  | .mark '[' :: rest => opening (.array [] :: frames) rest
  | .mark '{' :: .mark '}' :: rest => closed frames (.object []) rest
  | .mark '{' :: .scalar (.string name) :: .mark ':' :: rest =>
    opening (.object [] name :: frames) rest
  | _ => none

-- Goes on behind a value that is complete.
def closed : List Frame → Json → List Token → Option Json
  | [], value, [] => some value
  | .array done :: frames, value, .mark ',' :: rest =>
    opening (.array (value :: done) :: frames) rest
  | .array done :: frames, value, .mark ']' :: rest =>
    closed frames (.array (value :: done).reverse) rest
  | .object done name :: frames, value, .mark ',' :: .scalar (.string next) :: .mark ':' :: rest =>
    opening (.object (done.insert name value) next :: frames) rest
  | .object done name :: frames, value, .mark '}' :: rest =>
    closed frames (.object (done.insert name value)) rest
  | _, _, _ => none

end

def read? (s : String) : Option Json := (tokens? s.toList).bind (opening [])

end Conform.Json
