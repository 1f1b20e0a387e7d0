import Conform.Proofs.IntegerText
import Conform.Schema.Options
import Mathlib.Data.List.Forall2

set_option autoImplicit false

/-!
Options that are read from variables. What a variable holds is read between white space, and
words in letters of either case; a variable that cannot be read leaves its option as it is by
default. No variable has a say in the option of another.
-/

namespace Conform

theorem ExtraKeys.named?_eq_some_iff {name : String} {policy : ExtraKeys} :
    named? name = some policy ↔ name = policy.name := by
  constructor
  · intro found
    have same : policy.name = name := by simpa using List.find?_some found
    exact same.symm
  · rintro rfl
    cases policy <;> rfl

namespace Options

-- The characters that stand for one in lower case. The Kelvin sign is another capital of `k`.
def Writes (c small : Char) : Prop := c.toLower = small ∨ c = '\u212A' ∧ small = 'k'

def Spells (text word : String) : Prop :=
  ∃ middle, Text.Padded text.toList middle ∧ List.Forall₂ Writes middle word.toList

def SpellsPolicy (text : String) (policy : ExtraKeys) : Prop := Spells text policy.name

-- The texts of a number of 64 bits: a decimal between white space, perhaps behind a plus.
def SpellsDepth (text : String) (depth : Nat) : Prop :=
  depth < 0x10000000000000000 ∧ ∃ digits, Numeral.Decimal digits depth ∧
    (Text.Padded text.toList digits ∨ Text.Padded text.toList ('+' :: digits))

def flagWords : Bool → List String
  | true => ["1", "true", "yes", "on"]
  | false => ["0", "false", "no", "off"]

def SpellsFlag (text : String) (flag : Bool) : Prop := ∃ word ∈ flagWords flag, Spells text word

-- What an option is: what its variable spells, or the default if that is missing or unreadable.
def Settles {α : Type} (spells : String → α → Prop) (default : α) (found : Option String)
    (option : α) : Prop :=
  (∃ text ∈ found, spells text option) ∨
    option = default ∧ ∀ text ∈ found, ∀ other, ¬ spells text other

section Settles

variable {α : Type} {spells : String → α → Prop} {read? : String → Option α}

theorem settles_getD (reads : ∀ text option, read? text = some option ↔ spells text option)
    (default : α) (found : Option String) :
    Settles spells default found ((found.bind read?).getD default) := by
  cases found with
  | none => exact .inr ⟨rfl, by simp⟩
  | some text =>
    rw [Option.bind_some]
    cases read : read? text with
    | some option => exact .inl ⟨text, rfl, (reads text option).mp read⟩
    | none =>
      refine .inr ⟨rfl, ?_⟩
      rintro _ ⟨⟩ other spelled
      rw [(reads text other).mpr spelled] at read
      cases read

theorem getD_of_spells (reads : ∀ text option, read? text = some option ↔ spells text option)
    (default : α) {found : Option String} {option : α}
    (spelled : ∃ text ∈ found, spells text option) :
    (found.bind read?).getD default = option := by
  obtain ⟨text, rfl, written⟩ := spelled
  rw [Option.bind_some, (reads text option).mpr written, Option.getD_some]

end Settles

theorem isUpper_iff {c : Char} : c.isUpper ↔ 65 ≤ c.toNat ∧ c.toNat ≤ 90 :=
  decide_eq_true_iff.trans (and_congr UInt32.le_iff_toNat_le UInt32.le_iff_toNat_le)

theorem toNat_toLower {c : Char} (capital : c.isUpper) : c.toLower.toNat = c.toNat + 32 := by
  have size : c.val.toNat ≤ 90 := (isUpper_iff.mp capital).2
  have shift : ('a'.val - 'A'.val).toNat = 32 := rfl
  have moved : c.toLower.val = c.val + ('a'.val - 'A'.val) :=
    congrArg Char.val (dif_pos (of_decide_eq_true capital))
  rw [← Char.toNat_val, moved, UInt32.toNat_add]
  exact Nat.mod_eq_of_lt (by omega)

theorem toLower_of_not_isUpper {c : Char} (small : ¬ c.isUpper) : c.toLower = c :=
  dif_neg fun bounds => small (decide_eq_true bounds)

theorem lower_of_isUpper {c : Char} (capital : c.isUpper) : lower c = c.toLower := by
  have bounds : 'A' ≤ c ∧ c ≤ 'Z' := of_decide_eq_true capital
  rw [lower, if_pos bounds, ← toNat_toLower capital, Char.ofNat_toNat]

theorem lower_of_not_isUpper {c : Char} (small : ¬ c.isUpper) :
    lower c = if c = '\u212A' then 'k' else c := by
  have bounds : ¬ ('A' ≤ c ∧ c ≤ 'Z') := fun bounds => small (decide_eq_true bounds)
  rw [lower, if_neg bounds]

theorem lower_eq_iff {c small : Char} (other : small ≠ '\u212A') :
    lower c = small ↔ Writes c small := by
  rw [Writes]
  by_cases capital : c.isUpper
  · have sort : c ≠ '\u212A' := by
      rintro rfl
      cases capital
    simp [lower_of_isUpper capital, sort]
  · rw [lower_of_not_isUpper capital, toLower_of_not_isUpper capital]
    split
    next kelvin =>
      subst kelvin
      simp [other.symm, eq_comm]
    next sort => simp [sort]

theorem isBlank_lower (c : Char) : Text.isBlank (lower c) = Text.isBlank c := by
  by_cases capital : c.isUpper
  · have bounds := isUpper_iff.mp capital
    have moved := toNat_toLower capital
    rw [lower_of_isUpper capital, Bool.eq_iff_iff]
    simp [Text.isBlank, moved]
    omega
  · rw [lower_of_not_isUpper capital]
    split
    next kelvin =>
      rw [kelvin]
      rfl
    next => rfl

-- A word without white space in it and without the Kelvin sign.
def Plain (word : String) : Prop :=
  word.toList ≠ [] ∧ ∀ c ∈ word.toList, c ≠ '\u212A' ∧ Text.isBlank c = false

theorem map_lower_eq_iff {cs small : List Char} (other : ∀ c ∈ small, c ≠ '\u212A') :
    cs.map lower = small ↔ List.Forall₂ Writes cs small := by
  induction cs generalizing small with
  | nil => cases small <;> simp
  | cons c cs ih =>
    cases small with
    | nil => simp
    | cons first rest =>
      obtain ⟨here, later⟩ := List.forall_mem_cons.mp other
      rw [List.map_cons, List.cons.injEq, List.forall₂_cons, lower_eq_iff here, ih later]

theorem word_eq_iff {s w : String} (plain : Plain w) : word s = w ↔ Spells s w := by
  obtain ⟨nonempty, sorts⟩ := plain
  have other (c : Char) (member : c ∈ w.toList) : c ≠ '\u212A' := (sorts c member).1
  constructor
  · rintro rfl
    rw [word, String.toList_ofList] at other
    refine ⟨Text.trimmed s.toList, Text.padded_trimmed s.toList, ?_⟩
    rw [word, String.toList_ofList, ← map_lower_eq_iff other]
  · rintro ⟨middle, padded, written⟩
    have lowered := (map_lower_eq_iff other).mpr written
    have inside : ∀ c ∈ middle, Text.isBlank c = false := by
      intro c member
      rw [← isBlank_lower]
      exact (sorts _ (lowered ▸ List.mem_map_of_mem member)).2
    have written_out : middle ≠ [] := by
      rintro rfl
      exact nonempty lowered.symm
    rw [word, Text.trimmed_of_padded padded inside written_out, lowered, String.ofList_toList]

theorem plain_name (policy : ExtraKeys) : Plain policy.name := by
  cases policy <;> simp [Plain, ExtraKeys.name, Text.isBlank]

theorem plain_flagWords (flag : Bool) : ∀ w ∈ flagWords flag, Plain w := by
  cases flag <;> simp [flagWords, Plain, Text.isBlank]

theorem extraKeysOf?_eq_some_iff (s : String) (policy : ExtraKeys) :
    extraKeysOf? s = some policy ↔ SpellsPolicy s policy := by
  rw [extraKeysOf?, ExtraKeys.named?_eq_some_iff, word_eq_iff (plain_name policy), SpellsPolicy]

theorem failFastOf?_eq_some_iff (s : String) (flag : Bool) :
    failFastOf? s = some flag ↔ SpellsFlag s flag := by
  have read : failFastOf? s = some flag ↔ word s ∈ flagWords flag := by
    have apart : ∀ w ∈ flagWords true, w ∉ flagWords false := by decide
    have sides : failFastOf? s = if word s ∈ flagWords true then some true else
      if word s ∈ flagWords false then some false else none := rfl
    rw [sides]
    cases flag <;> grind
  rw [read, SpellsFlag]
  constructor
  · exact fun member => ⟨word s, member, (word_eq_iff (plain_flagWords flag _ member)).mp rfl⟩
  · rintro ⟨w, member, spelled⟩
    rwa [(word_eq_iff (plain_flagWords flag w member)).mpr spelled]

theorem maxDepthOf?_eq_some_iff (s : String) (depth : Nat) :
    maxDepthOf? s = some depth ↔ SpellsDepth s depth := by
  rw [maxDepthOf?, Option.filter_eq_some_iff, Numeral.natural?_eq_some_iff, decide_eq_true_iff]
  constructor
  · rintro ⟨decimal, small⟩
    have padded := Text.padded_trimmed s.toList
    refine ⟨small, _, decimal, ?_⟩
    split
    next plus =>
      obtain ⟨rest, split⟩ := List.head?_eq_some_iff.mp plus
      rw [split] at padded ⊢
      exact .inr padded
    next => exact .inl padded
  · rintro ⟨small, digits, decimal, bare | plus⟩
    · have trimmed := Text.trimmed_of_padded bare (Numeral.Denotes.bare decimal).not_blank
        decimal.ne_nil
      have unsigned : digits.head? ≠ some '+' := by
        intro first
        cases decimal.isDigit '+' (List.mem_of_mem_head? first)
      rw [trimmed, if_neg unsigned]
      exact ⟨decimal, small⟩
    · have trimmed := Text.trimmed_of_padded plus (Numeral.Denotes.plus decimal).not_blank
        (List.cons_ne_nil _ _)
      rw [trimmed, List.head?_cons, if_pos rfl, List.drop_one, List.tail_cons]
      exact ⟨decimal, small⟩

theorem spellsDepth_toString {text : String} {depth : Nat} (small : depth < 0x10000000000000000)
    (padded : Text.Padded text.toList (toString depth).toList) : SpellsDepth text depth := by
  have digits : (toString depth).toList = Nat.toDigits 10 depth := String.toList_ofList
  rw [digits] at padded
  exact ⟨small, _, Numeral.natural?_eq_some_iff.mp (Numeral.natural?_toDigits depth), .inl padded⟩

-- What is written into variables is read from them, in either case and between white space. Each
-- option is settled by its own variable, no matter what the other two hold.
theorem ofVariables_settled (lead : String) (lookup : String → Option String) :
    (∀ o : Options, o.maxDepth < 0x10000000000000000 →
      (∃ text ∈ lookup (lead ++ "EXTRA_KEYS"), Spells text o.extraKeys.name) →
      (∃ text ∈ lookup (lead ++ "MAX_DEPTH"),
        Text.Padded text.toList (toString o.maxDepth).toList) →
      (∃ text ∈ lookup (lead ++ "FAIL_FAST"), ∃ word ∈ flagWords o.failFast, Spells text word) →
      ofVariables lead lookup = o) ∧
    Settles SpellsPolicy strict.extraKeys (lookup (lead ++ "EXTRA_KEYS"))
      (ofVariables lead lookup).extraKeys ∧
    Settles SpellsDepth strict.maxDepth (lookup (lead ++ "MAX_DEPTH"))
      (ofVariables lead lookup).maxDepth ∧
    Settles SpellsFlag strict.failFast (lookup (lead ++ "FAIL_FAST"))
      (ofVariables lead lookup).failFast ∧
    ∀ other : String → Option String,
      (other (lead ++ "EXTRA_KEYS") = lookup (lead ++ "EXTRA_KEYS") →
        (ofVariables lead other).extraKeys = (ofVariables lead lookup).extraKeys) ∧
      (other (lead ++ "MAX_DEPTH") = lookup (lead ++ "MAX_DEPTH") →
        (ofVariables lead other).maxDepth = (ofVariables lead lookup).maxDepth) ∧
      (other (lead ++ "FAIL_FAST") = lookup (lead ++ "FAIL_FAST") →
        (ofVariables lead other).failFast = (ofVariables lead lookup).failFast) := by
  refine ⟨?_, settles_getD extraKeysOf?_eq_some_iff _ _, settles_getD maxDepthOf?_eq_some_iff _ _,
    settles_getD failFastOf?_eq_some_iff _ _, ?_⟩
  · rintro ⟨policy, depth, flag⟩ small policyText ⟨text, found, padded⟩ flagText
    have depthText : ∃ text ∈ lookup (lead ++ "MAX_DEPTH"), SpellsDepth text depth :=
      ⟨text, found, spellsDepth_toString small padded⟩
    rw [ofVariables, getD_of_spells extraKeysOf?_eq_some_iff _ policyText,
      getD_of_spells maxDepthOf?_eq_some_iff _ depthText,
      getD_of_spells failFastOf?_eq_some_iff _ flagText]
  · intro other
    refine ⟨fun same => ?_, fun same => ?_, fun same => ?_⟩
    all_goals simp only [ofVariables, same]

-- The greatest depth of them all, and a policy that is kept while the other two variables are not.
theorem ofVariables_settled_greatest :
    let o : Options := ⟨.keep, 0xffffffffffffffff, true⟩
    let lookup := ([("TRELLIS_EXTRA_KEYS", "\u3000KeEp\n"),
      ("TRELLIS_MAX_DEPTH", "\t18446744073709551615 "), ("TRELLIS_FAIL_FAST", " YES")].lookup ·)
    let other := ([("TRELLIS_EXTRA_KEYS", "\u3000KeEp\n"),
      ("TRELLIS_MAX_DEPTH", "-1")].lookup ·)
    ofEnvironment lookup = o ∧ (ofEnvironment other).extraKeys = .keep := by
  intro o lookup other
  have policy : Spells "\u3000KeEp\n" "keep" := by
    refine ⟨['K', 'e', 'E', 'p'], ⟨['\u3000'], ['\n'], rfl, ?_, ?_⟩, ?_⟩
    · exact List.forall_mem_singleton.mpr rfl
    · exact List.forall_mem_singleton.mpr rfl
    · exact .cons (.inl rfl) (.cons (.inl rfl) (.cons (.inl rfl) (.cons (.inl rfl) .nil)))
  have depth : Text.Padded "\t18446744073709551615 ".toList (toString o.maxDepth).toList := by
    refine ⟨['\t'], [' '], by decide, ?_, ?_⟩
    · exact List.forall_mem_singleton.mpr rfl
    · exact List.forall_mem_singleton.mpr rfl
  have flag : Spells " YES" "yes" := by
    refine ⟨['Y', 'E', 'S'], ⟨[' '], [], rfl, ?_, ?_⟩, ?_⟩
    · exact List.forall_mem_singleton.mpr rfl
    · exact List.forall_mem_nil _
    · exact .cons (.inl rfl) (.cons (.inl rfl) (.cons (.inl rfl) .nil))
  obtain ⟨restored, -, -, -, alone⟩ := ofVariables_settled "TRELLIS_" lookup
  have whole : ofEnvironment lookup = o :=
    restored o (by decide) ⟨_, rfl, policy⟩ ⟨_, rfl, depth⟩ ⟨_, rfl, "yes", by decide, flag⟩
  have kept : (ofEnvironment other).extraKeys = (ofEnvironment lookup).extraKeys :=
    (alone other).1 rfl
  exact ⟨whole, by rw [kept, whole]⟩

end Options

end Conform
