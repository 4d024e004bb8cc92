import Mathlib.Algebra.GroupWithZero.Nat
import EnumStamp.Json.Codec

set_option autoImplicit false

namespace EnumStamp.Json

/-- What may follow a written value: nothing, a comma or a closing bracket. -/
inductive Delimited : List Char → Prop where
  | done : Delimited []
  | comma (rest : List Char) : Delimited (',' :: rest)
  | bracket (rest : List Char) : Delimited (']' :: rest)
  | brace (rest : List Char) : Delimited ('}' :: rest)

namespace Number

/-- The values of the digits that a number is written with. -/
def written (value : Nat) : List Nat :=
  (Nat.toDigits 10 value).filterMap digit?

/-- The number that is written with the digits of `value` and nothing else. -/
def ofNatural (value : Nat) : Number :=
  { negative := false, whole := written value, fraction := [], exponent := none }

theorem digit?_of_isDigit {char : Char} (isDigit : char.isDigit = true) :
    digit? char = some (char.toNat - '0'.toNat) := by
  unfold digit?
  exact if_pos isDigit

theorem foldl_filterMap_digit? {chars : List Char} (digits : ∀ char ∈ chars, char.isDigit = true)
    (init : Nat) :
    (chars.filterMap digit?).foldl (fun value digit => 10 * value + digit) init =
      Nat.ofDigitChars 10 chars init := by
  induction chars generalizing init with
  | nil => rfl
  | cons char chars ih =>
    have first := digit?_of_isDigit (digits char (List.mem_cons_self ..))
    have others := fun other member => digits other (List.mem_cons_of_mem char member)
    rw [List.filterMap_cons_some first, List.foldl_cons, Nat.ofDigitChars_cons, ih others]

theorem isDigit_of_written {value : Nat} {char : Char} (member : char ∈ Nat.toDigits 10 value) :
    char.isDigit = true :=
  Nat.isDigit_of_mem_toDigits (by decide) (by decide) member

/-- The digits of a number have its value. -/
theorem ofDigits_written (value : Nat) : ofDigits (written value) = value := by
  unfold ofDigits written
  rw [foldl_filterMap_digit? (fun _ => isDigit_of_written), Nat.ofDigitChars_ten_toDigits]

theorem takeWhile_isDigit_of_delimited {rest : List Char} (delimited : Delimited rest) :
    rest.takeWhile Char.isDigit = [] ∧ rest.dropWhile Char.isDigit = rest := by
  cases delimited with
  | done => exact ⟨rfl, rfl⟩
  | comma rest => exact ⟨rfl, rfl⟩
  | bracket rest => exact ⟨rfl, rfl⟩
  | brace rest => exact ⟨rfl, rfl⟩

theorem digits_written (value : Nat) {rest : List Char} (delimited : Delimited rest) :
    digits (Nat.toDigits 10 value ++ rest) = (written value, rest) := by
  have all : ∀ char ∈ Nat.toDigits 10 value, char.isDigit = true := fun _ => isDigit_of_written
  obtain ⟨taken, dropped⟩ := takeWhile_isDigit_of_delimited delimited
  unfold digits
  rw [List.takeWhile_append_of_pos all, List.dropWhile_append_of_pos all, taken, dropped,
    List.append_nil]
  rfl

/-- No number but zero starts with a zero. -/
theorem toDigits_ne_zero_cons {value : Nat} (positive : 0 < value) (others : List Char) :
    Nat.toDigits 10 value ≠ '0' :: others := by
  induction value using Nat.strongRecOn generalizing others with
  | ind value ih =>
    intro same
    by_cases small : value < 10
    · have nonzero : ∀ digit < 10, 0 < digit → Nat.digitChar digit ≠ '0' := by decide
      rw [Nat.toDigits_of_lt_base small] at same
      exact nonzero value small positive (List.cons.inj same).1
    · rw [Nat.toDigits_of_base_le (by decide) (by omega)] at same
      cases front : Nat.toDigits 10 (value / 10) with
      | nil => exact Nat.toDigits_ne_nil front
      | cons first rest =>
        rw [front, List.cons_append] at same
        have zero := (List.cons.inj same).1
        subst zero
        exact ih (value / 10) (by omega) (by omega) rest front

/-- A written number has a digit, and its first digit is a zero only if it is the only one. -/
theorem written_shape (value : Nat) :
    ∃ first others, written value = first :: others ∧ (first = 0 → others = []) := by
  cases chars : Nat.toDigits 10 value with
  | nil => exact absurd chars Nat.toDigits_ne_nil
  | cons char rest =>
    have isDigit : char.isDigit = true := isDigit_of_written (chars ▸ List.mem_cons_self ..)
    refine ⟨char.toNat - '0'.toNat, rest.filterMap digit?, ?_, ?_⟩
    · unfold written
      rw [chars, List.filterMap_cons_some (digit?_of_isDigit isDigit)]
    · intro zero
      have bounds := Char.isDigit_iff_toNat.mp isDigit
      have isZero : char = '0' := by
        apply Char.toNat_inj.mp
        omega
      subst isZero
      have none : value = 0 := by
        apply Nat.eq_zero_of_not_pos
        intro positive
        exact toDigits_ne_zero_cons positive rest chars
      subst none
      rw [Nat.toDigits_zero] at chars
      rw [← (List.cons.inj chars).2]
      rfl

theorem readWhole_toDigits (cut : Fault) (value : Nat) {rest : List Char}
    (delimited : Delimited rest) :
    readWhole cut (Nat.toDigits 10 value ++ rest) = .ok (written value, rest) := by
  obtain ⟨first, others, shape, single⟩ := written_shape value
  unfold readWhole someDigits
  rw [digits_written value delimited, shape]
  cases others with
  | nil => cases first <;> rfl
  | cons second others =>
    cases first with
    | zero => cases single rfl
    | succ first => rfl

theorem readFraction_of_delimited (cut : Fault) {rest : List Char} (delimited : Delimited rest) :
    readFraction cut rest = .ok ([], rest) := by
  cases delimited <;> rfl

theorem readExponent_of_delimited (cut : Fault) {rest : List Char} (delimited : Delimited rest) :
    readExponent cut rest = .ok (none, rest) := by
  cases delimited <;> rfl

/-- A number that is written with digits alone has no sign in front of it. -/
theorem written_ne_minus (value : Nat) (rest tail : List Char) :
    Nat.toDigits 10 value ++ rest ≠ '-' :: tail := by
  intro same
  cases chars : Nat.toDigits 10 value with
  | nil => exact Nat.toDigits_ne_nil chars
  | cons char others =>
    have isDigit : char.isDigit = true := isDigit_of_written (chars ▸ List.mem_cons_self ..)
    rw [chars] at same
    rw [(List.cons.inj same).1] at isDigit
    cases isDigit

/-- A number that is written with digits alone is read back. -/
theorem read_toDigits (cut : Fault) (value : Nat) {rest : List Char}
    (delimited : Delimited rest) :
    read cut (Nat.toDigits 10 value ++ rest) = .ok (ofNatural value, rest) := by
  unfold read
  split
  rename_i sign
  split at sign
  · rename_i minus
    exact absurd minus (written_ne_minus value rest _)
  · cases sign
    rw [readWhole_toDigits cut value delimited]
    show (readFraction cut rest >>= _) = _
    rw [readFraction_of_delimited cut delimited]
    show (readExponent cut rest >>= _) = _
    rw [readExponent_of_delimited cut delimited]
    rfl

theorem natural?_ofNatural (value : Nat) : (ofNatural value).natural? = some value := by
  show some (ofDigits (written value)) = some value
  rw [ofDigits_written]

/-- A number has at least the value of the digits in front. -/
theorem le_foldl_digits (digits : List Nat) (init : Nat) :
    init ≤ digits.foldl (fun value digit => 10 * value + digit) init := by
  induction digits generalizing init with
  | nil => exact Nat.le_refl init
  | cons digit digits ih =>
    have more := ih (10 * init + digit)
    rw [List.foldl_cons]
    omega

/-- A significand takes up all digits of a value that it has room for. -/
theorem takeUp_of_lt {digits : List Nat} {init : Nat}
    (room : digits.foldl (fun value digit => 10 * value + digit) init < significandBound) :
    takeUp init digits = (digits.foldl (fun value digit => 10 * value + digit) init, 0) := by
  induction digits generalizing init with
  | nil => rfl
  | cons digit digits ih =>
    have early := le_foldl_digits digits (10 * init + digit)
    rw [List.foldl_cons] at room ⊢
    unfold takeUp
    rw [if_pos (Nat.lt_of_le_of_lt early room), ih room]

/-- A number of at most 53 bits is a double. -/
theorem nearestDouble_of_lt {value : Nat} (small : value < 2 ^ 53) :
    nearestDouble value = value := by
  have bits : Nat.log2 value - 52 = 0 := by
    by_cases zero : value = 0
    · rw [zero]
      rfl
    · have below := (Nat.log2_lt zero).mpr small
      omega
  unfold nearestDouble
  rw [bits]
  simp [Nat.mod_one]

/-- Written words are not refused for their size. -/
theorem isFinite_ofNatural {value : Nat} (small : value < 2 ^ 53) :
    (ofNatural value).isFinite = true := by
  have room : value < significandBound := by
    have limit : (2 : Nat) ^ 53 ≤ significandBound := by decide
    omega
  have taken : takeUp 0 (written value) = (value, 0) := by
    have all := ofDigits_written value
    unfold ofDigits at all
    rw [takeUp_of_lt (by omega), all]
  have scientific : (ofNatural value).scientific = (value, 0) := by
    unfold Number.scientific ofNatural
    simp only [taken]
    rfl
  have one : nearestDouble 1 = 1 := nearestDouble_of_lt (by decide)
  have finite : value < infinityThreshold := by
    have limit : (2 : Nat) ^ 53 ≤ infinityThreshold := by decide
    omega
  unfold isFinite
  simp [scientific, nearestDouble_of_lt small, one, finite]

end Number

/-- A written number of at most 53 bits is kept. -/
theorem keptNumber_toDigits {value : Nat} (small : value < 2 ^ 53) {rest : List Char}
    (delimited : Delimited rest) :
    keptNumber (Nat.toDigits 10 value ++ rest) = .ok (Number.ofNatural value, rest) := by
  unfold keptNumber
  rw [Number.read_toDigits .unfinished value delimited]
  show (if (Number.ofNatural value).isFinite then _ else _) = _
  rw [if_pos (Number.isFinite_ofNatural small)]
  rfl

theorem skipSpaces_of_not_space {char : Char} (isBlack : isSpace char = false)
    (rest : List Char) : skipSpaces (char :: rest) = char :: rest := by
  unfold skipSpaces
  rw [List.dropWhile_cons_of_neg (by simp [isBlack])]

theorem isSpace_of_isDigit {char : Char} (isDigit : char.isDigit = true) :
    isSpace char = false := by
  have bounds := Char.isDigit_iff_toNat.mp isDigit
  unfold isSpace
  simp only [Bool.or_eq_false_iff, beq_eq_false_iff_ne]
  refine ⟨⟨⟨?_, ?_⟩, ?_⟩, ?_⟩
  all_goals
    rintro rfl
    cases isDigit

/-- A written natural number below the bound is read back. -/
theorem Codec.readNatural_toDigits {bound value : Nat} (inside : value < bound)
    (small : value < 2 ^ 53) {rest : List Char} (delimited : Delimited rest) :
    Codec.readNatural bound (Nat.toDigits 10 value ++ rest) = .ok (value, rest) := by
  have kept := keptNumber_toDigits small delimited
  cases chars : Nat.toDigits 10 value with
  | nil => exact absurd chars Nat.toDigits_ne_nil
  | cons char others =>
    have isDigit : char.isDigit = true :=
      Number.isDigit_of_written (chars ▸ List.mem_cons_self ..)
    rw [chars] at kept
    unfold Codec.readNatural
    rw [List.cons_append, skipSpaces_of_not_space (isSpace_of_isDigit isDigit)]
    show (if char = '-' ∨ char.isDigit = true then _ else _) = _
    rw [if_pos (.inr isDigit), ← List.cons_append, kept]
    simp only [bind, Except.bind, Number.natural?_ofNatural, if_pos inside]
    rfl

end EnumStamp.Json
