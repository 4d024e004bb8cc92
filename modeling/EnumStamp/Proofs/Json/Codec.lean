import EnumStamp.Proofs.Json.Number
import EnumStamp.Proofs.Json.Quoted

set_option autoImplicit false

namespace EnumStamp.Json

namespace Codec

/-- Whether a codec reads what it writes. -/
structure Lawful {α : Type} (codec : Codec α) : Prop where
  read_write : ∀ value rest, Delimited rest →
    codec.read (codec.write value rest) = .ok (value, rest)
  /-- A written value is no blank space and no end of a list. -/
  opens : ∀ value rest, ∃ char tail, codec.write value rest = char :: tail ∧
    isSpace char = false ∧ char ≠ ']'
  /-- A written value takes room. -/
  longer : ∀ value rest, rest.length < (codec.write value rest).length

theorem Lawful.map {α β : Type} {codec : Codec α} (lawful : codec.Lawful) {make : α → β}
    {back : β → α} (inverse : ∀ value, make (back value) = value) :
    (codec.map make back).Lawful where
  read_write := by
    intro value rest delimited
    have read := lawful.read_write (back value) rest delimited
    simp only [Codec.map, read, bind, Except.bind, inverse]
    rfl
  opens := fun value => lawful.opens (back value)
  longer := fun value => lawful.longer (back value)

theorem opens_of_isDigit {char : Char} (isDigit : char.isDigit = true) :
    isSpace char = false ∧ char ≠ ']' := by
  refine ⟨isSpace_of_isDigit isDigit, ?_⟩
  rintro rfl
  cases isDigit

/-- Words of at most 53 bits. -/
theorem lawful_word {α : Type} {bound : Nat} (small : bound ≤ 2 ^ 53) {make : Nat → α}
    {back : α → Nat} (inverse : ∀ value, make (back value) = value)
    (inside : ∀ value, back value < bound) : ((natural bound).map make back).Lawful where
  read_write := by
    intro value rest delimited
    have read := readNatural_toDigits (inside value) (Nat.lt_of_lt_of_le (inside value) small)
      delimited
    simp only [Codec.map, natural, read, bind, Except.bind, inverse]
    rfl
  opens := by
    intro value rest
    show ∃ char tail, Nat.toDigits 10 (back value) ++ rest = char :: tail ∧ _
    cases chars : Nat.toDigits 10 (back value) with
    | nil => exact absurd chars Nat.toDigits_ne_nil
    | cons char others =>
      have member : char ∈ Nat.toDigits 10 (back value) := chars ▸ List.mem_cons_self ..
      exact ⟨char, others ++ rest, rfl, opens_of_isDigit (Number.isDigit_of_written member)⟩
  longer := by
    intro value rest
    have digits := Nat.length_toDigits_pos (b := 10) (n := back value)
    show rest.length < (Nat.toDigits 10 (back value) ++ rest).length
    rw [List.length_append]
    omega

theorem lawful_word16 : word16.Lawful :=
  lawful_word (by decide) (fun _ => UInt16.ofNat_toNat) UInt16.toNat_lt

theorem lawful_word32 : word32.Lawful :=
  lawful_word (by decide) (fun _ => UInt32.ofNat_toNat) UInt32.toNat_lt

theorem lawful_text : text.Lawful where
  read_write := by
    intro value rest _
    have read := readQuoted_written value.toList rest
    have quoted : readText (writeQuoted value.toList rest) = .ok (value.toList, rest) := by
      rw [writeQuoted_eq]
      exact read
    simp only [text, quoted, bind, Except.bind, String.ofList_toList]
    rfl
  opens := fun value rest => ⟨'"', escaped value.toList rest, rfl, by decide, by decide⟩
  longer := by
    intro value rest
    have inside := length_escaped value.toList rest
    show rest.length < (escaped value.toList rest).length + 1
    omega

/-- The items of a list after the first one, each behind a comma. -/
def writeOthers {α : Type} (codec : Codec α) (values : List α) (rest : List Char) : List Char :=
  values.foldr (fun value rest => ',' :: codec.write value rest) rest

section List

variable {α : Type} {codec : Codec α}

theorem Lawful.length_writeOthers (lawful : codec.Lawful) (values : List α) (rest : List Char) :
    values.length + rest.length ≤ (writeOthers codec values rest).length := by
  induction values with
  | nil =>
    show 0 + rest.length ≤ rest.length
    omega
  | cons value values ih =>
    have item := lawful.longer value (writeOthers codec values rest)
    show values.length + 1 + rest.length ≤
      (codec.write value (writeOthers codec values rest)).length + 1
    omega

theorem delimited_writeOthers (codec : Codec α) (values : List α) (rest : List Char) :
    Delimited (writeOthers codec values (']' :: rest)) := by
  cases values with
  | nil => exact .bracket rest
  | cons value values => exact .comma _

/-- Reading items up to the closing bracket. -/
theorem Lawful.itemsLoop_written (lawful : codec.Lawful) (ruler : List Char) (found : List α)
    (first : α) (values : List α) (rest : List Char) (enough : values.length < ruler.length) :
    itemsLoop codec.read ruler found (codec.write first (writeOthers codec values (']' :: rest))) =
      .ok (found.reverse ++ first :: values, rest) := by
  induction values generalizing ruler found first with
  | nil =>
    cases ruler with
    | nil => cases enough
    | cons mark ruler =>
      have read := lawful.read_write first _ (delimited_writeOthers codec [] rest)
      unfold itemsLoop
      rw [read]
      show Except.ok ((first :: found).reverse, rest) = _
      rw [List.reverse_cons]
  | cons second values ih =>
    cases ruler with
    | nil => cases enough
    | cons mark ruler =>
      have read := lawful.read_write first _
        (delimited_writeOthers codec (second :: values) rest)
      have later := ih ruler (first :: found) second
        (by simp only [List.length_cons] at enough; omega)
      unfold itemsLoop
      rw [read]
      show itemsLoop codec.read ruler (first :: found)
        (codec.write second (writeOthers codec values (']' :: rest))) = _
      rw [later, List.reverse_cons, List.append_assoc, List.singleton_append]

theorem Lawful.list (lawful : codec.Lawful) : (Codec.list codec).Lawful where
  read_write := by
    intro values rest _
    cases values with
    | nil => rfl
    | cons first values =>
      let written := codec.write first (writeOthers codec values (']' :: rest))
      show items codec.read written = .ok (first :: values, rest)
      obtain ⟨char, tail, opens, isBlack, noEnd⟩ :=
        lawful.opens first (writeOthers codec values (']' :: rest))
      have room : values.length < written.length := by
        have item := lawful.longer first (writeOthers codec values (']' :: rest))
        have others := lawful.length_writeOthers values (']' :: rest)
        simp only [written]
        omega
      have loop := lawful.itemsLoop_written written [] first values rest room
      have skipped : skipSpaces written = char :: tail := by
        rw [show written = char :: tail from opens, skipSpaces_of_not_space isBlack]
      unfold items
      rw [skipped]
      split
      · rename_i none
        cases none
      · rename_i ends
        exact absurd (List.cons.inj ends).1 noEnd
      · rw [← opens]
        exact loop
  opens := fun values rest => ⟨'[', _, rfl, by decide, by decide⟩
  longer := by
    intro values rest
    cases values with
    | nil =>
      show rest.length < rest.length + 1 + 1
      omega
    | cons first values =>
      have item := lawful.longer first (writeOthers codec values (']' :: rest))
      have others := lawful.length_writeOthers values (']' :: rest)
      rw [List.length_cons] at others
      show rest.length <
        (codec.write first (writeOthers codec values (']' :: rest))).length + 1
      omega

/-- An optional value has to be told from null by its first letter. -/
theorem Lawful.optional (lawful : codec.Lawful)
    (noNull : ∀ value rest tail, codec.write value rest ≠ 'n' :: tail) :
    (Codec.optional codec).Lawful where
  read_write := by
    intro value rest delimited
    cases value with
    | none => rfl
    | some value =>
      have read := lawful.read_write value rest delimited
      obtain ⟨char, tail, opens, isBlack, _⟩ := lawful.opens value rest
      have skipped : skipSpaces (codec.write value rest) = codec.write value rest := by
        rw [opens, skipSpaces_of_not_space isBlack]
      simp only [Codec.optional, skipped]
      split
      · rename_i null
        exact absurd null (noNull value rest _)
      · rw [read]
        rfl
  opens := by
    intro value rest
    cases value with
    | none => exact ⟨'n', _, rfl, by decide, by decide⟩
    | some value => exact lawful.opens value rest
  longer := by
    intro value rest
    cases value with
    | none =>
      show rest.length < rest.length + 1 + 1 + 1 + 1
      omega
    | some value => exact lawful.longer value rest

end List

/-- A lawful codec decodes what it encodes. -/
theorem Lawful.decode_encode {α : Type} {codec : Codec α} (lawful : codec.Lawful) (value : α) :
    codec.decode (codec.encode value) = .ok value := by
  have read := lawful.read_write value [] .done
  unfold decode encode Reader.whole
  rw [String.toList_ofList, read]
  rfl

end Codec

end EnumStamp.Json
