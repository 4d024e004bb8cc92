import EnumStamp.Proofs.Json.Codec

set_option autoImplicit false

namespace EnumStamp.Json

namespace Fields

def names {α δ : Type} : Fields α δ → List String
  | .last name _ => [name]
  | .more name _ rest => name :: rest.names

/-- The partly read record of which everything has been read. -/
def filled {α δ : Type} : Fields α δ → α → δ
  | .last .., value => some value
  | .more _ _ rest, (value, values) => (some value, rest.filled values)

/-- Whether each field is read as it is written, and is told from the others by its name. -/
def Lawful {α δ : Type} : Fields α δ → Prop
  | .last _ codec => codec.Lawful
  | .more name codec rest => codec.Lawful ∧ name ∉ rest.names ∧ rest.Lawful

section

variable {α δ : Type}

theorem complete_filled (fields : Fields α δ) (values : α) :
    fields.complete (fields.filled values) = some values := by
  induction fields with
  | last name codec => rfl
  | more name codec rest ih =>
    show (rest.complete (rest.filled values.2) >>= fun others => some (values.1, others)) = _
    rw [ih values.2]
    rfl

theorem opens_write (fields : Fields α δ) (values : α) (rest : List Char) :
    ∃ tail, fields.write values rest = '"' :: tail := by
  cases fields with
  | last name codec => exact ⟨_, writeQuoted_eq name.toList _⟩
  | more name codec fields => exact ⟨_, writeQuoted_eq name.toList _⟩

/-- Each field takes room for its name alone. -/
theorem Lawful.length_write {fields : Fields α δ} (lawful : fields.Lawful) (values : α)
    (rest : List Char) :
    fields.names.length + rest.length < (fields.write values rest).length := by
  induction fields with
  | last name codec =>
    have item := Codec.Lawful.longer lawful values rest
    have quoted := length_escaped name.toList (':' :: codec.write values rest)
    rw [List.length_cons] at quoted
    show 1 + rest.length < (escaped name.toList (':' :: codec.write values rest)).length + 1
    omega
  | more name codec fields ih =>
    obtain ⟨isLawful, _, others⟩ := lawful
    let later := ',' :: fields.write values.2 rest
    have tail : fields.names.length + rest.length < (fields.write values.2 rest).length :=
      ih others values.2
    have item : (fields.write values.2 rest).length + 1 < (codec.write values.1 later).length :=
      isLawful.longer values.1 later
    have quoted := length_escaped name.toList (':' :: codec.write values.1 later)
    rw [List.length_cons] at quoted
    show fields.names.length + 1 + rest.length <
      (escaped name.toList (':' :: codec.write values.1 later)).length + 1
    omega

/-- The value of a field is read after its name. -/
theorem readField_written {codec : Codec α} (lawful : codec.Lawful) (value : α) {rest : List Char}
    (delimited : Delimited rest) :
    readField codec none (':' :: codec.write value rest) = .ok (some value, rest) := by
  have read := lawful.read_write value rest delimited
  show (codec.read (codec.write value rest) >>= fun item => Except.ok (some item.1, item.2)) = _
  rw [read]
  rfl

end

section Loop

variable {σ : Type} (member : List Char → σ → Reader σ)

/-- One round of reading an object takes a name and lets `member` read what follows it. -/
theorem membersLoop_name (mark : Char) (ruler : List Char) (state : σ) (name rest : List Char) :
    membersLoop member (mark :: ruler) state (writeQuoted name rest) =
      (member name state rest >>= fun (state, rest) =>
        match skipSpaces rest with
        | [] => .error .unfinished
        | '}' :: rest => .ok (state, rest)
        | ',' :: rest => membersLoop member ruler state rest
        | _ :: _ => .error .malformed) := by
  have quoted := readQuoted_written name rest
  show (readQuoted (escaped name rest) >>= _) = _
  rw [quoted]
  rfl

/-- Reading the fields of an object one after the other. The state of the loop holds the partly read
record of these fields at a place of its own (`put`), since those in front are complete. -/
theorem membersLoop_written {α δ : Type} {fields : Fields α δ} (lawful : fields.Lawful)
    (put : δ → σ)
    (reads : ∀ name ∈ fields.names, ∀ found text,
      member name.toList (put found) text =
        (fields.readMember name found text).map fun (found, rest) => (put found, rest))
    (ruler : List Char) (values : α) (rest : List Char)
    (enough : fields.names.length ≤ ruler.length) :
    membersLoop member ruler (put fields.blank) (fields.write values ('}' :: rest)) =
      .ok (put (fields.filled values), rest) := by
  induction fields generalizing ruler with
  | last name codec =>
    cases ruler with
    | nil => cases enough
    | cons mark ruler =>
      have field := readField_written lawful values (Delimited.brace rest)
      have read : (Fields.last name codec).readMember name none
          (':' :: codec.write values ('}' :: rest)) = .ok (some values, '}' :: rest) := by
        rw [readMember, if_pos rfl, field]
      have own := reads name (List.mem_singleton_self name) none
        (':' :: codec.write values ('}' :: rest))
      rw [read] at own
      show membersLoop member (mark :: ruler) (put none)
        (writeQuoted name.toList (':' :: codec.write values ('}' :: rest))) = _
      rw [membersLoop_name, own]
      rfl
  | more name codec fields ih =>
    obtain ⟨isLawful, isNew, others⟩ := lawful
    cases ruler with
    | nil => cases enough
    | cons mark ruler =>
      let later := fields.write values.2 ('}' :: rest)
      have field := readField_written isLawful values.1 (Delimited.comma later)
      have read : (Fields.more name codec fields).readMember name (none, fields.blank)
          (':' :: codec.write values.1 (',' :: later)) =
            .ok ((some values.1, fields.blank), ',' :: later) := by
        rw [readMember, if_pos rfl, field]
        rfl
      have own := reads name (List.mem_cons_self ..) (none, fields.blank)
        (':' :: codec.write values.1 (',' :: later))
      rw [read] at own
      have readsOthers : ∀ other ∈ fields.names, ∀ found text,
          member other.toList (put (some values.1, found)) text =
            (fields.readMember other found text).map fun (found, rest) =>
              (put (some values.1, found), rest) := by
        intro other isOther found text
        have differs : other ≠ name := by
          intro same
          exact isNew (same ▸ isOther)
        rw [reads other (List.mem_cons_of_mem name isOther) (some values.1, found) text]
        rw [readMember, if_neg differs]
        cases fields.readMember other found text <;> rfl
      have room : fields.names.length ≤ ruler.length := by
        have all : fields.names.length + 1 ≤ ruler.length + 1 := enough
        omega
      have tail := ih others (fun found => put (some values.1, found)) readsOthers ruler values.2
        room
      show membersLoop member (mark :: ruler) (put (none, fields.blank))
        (writeQuoted name.toList (':' :: codec.write values.1 (',' :: later))) = _
      rw [membersLoop_name, own]
      exact tail

end Loop

/-- A record is read as it is written. -/
theorem Lawful.record {α δ : Type} {fields : Fields α δ} (lawful : fields.Lawful) :
    (Codec.record fields).Lawful where
  read_write := by
    intro values rest _
    let written := fields.write values ('}' :: rest)
    let member (name : List Char) := fields.readMember (String.ofList name)
    have reads : ∀ name ∈ fields.names, ∀ found text,
        member name.toList found text =
          (fields.readMember name found text).map fun (found, rest) => (found, rest) := by
      intro name _ found text
      show fields.readMember (String.ofList name.toList) found text = _
      rw [String.ofList_toList]
      cases fields.readMember name found text <;> rfl
    have room : fields.names.length ≤ written.length := by
      have longer := lawful.length_write values ('}' :: rest)
      simp only [written]
      omega
    have loop := membersLoop_written member lawful (fun found => found) reads written values rest
      room
    obtain ⟨tail, opens⟩ := opens_write fields values ('}' :: rest)
    have quote : written = '"' :: tail := opens
    have read : members member fields.blank written = .ok (fields.filled values, rest) := by
      have skipped : skipSpaces written = '"' :: tail := by
        rw [quote, skipSpaces_of_not_space (by decide)]
      unfold members
      rw [skipped]
      show membersLoop member ('"' :: tail) fields.blank ('"' :: tail) = _
      rw [← quote]
      exact loop
    show (members member fields.blank written >>= _) = _
    rw [read]
    simp only [bind, Except.bind, complete_filled]
    rfl
  opens := fun values rest => ⟨'{', _, rfl, by decide, by decide⟩
  longer := by
    intro values rest
    have longer := lawful.length_write values ('}' :: rest)
    rw [List.length_cons] at longer
    show rest.length < (fields.write values ('}' :: rest)).length + 1
    omega

end Fields

end EnumStamp.Json
