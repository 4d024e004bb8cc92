set_option autoImplicit false

namespace EnumStamp.Text

/-- The part of a text from byte `start` up to byte `stop`. -/
def slice? (text : String) (start stop : Nat) : Option String :=
  if first : (String.Pos.Raw.mk start).IsValid text then
    if last : (String.Pos.Raw.mk stop).IsValid text then
      if start ≤ stop then some (text.extract (text.pos ⟨start⟩ first) (text.pos ⟨stop⟩ last))
      else none
    else none
  else none

/-- Between the position after `before` and the one after `before ++ part` stands `part`. -/
theorem extract_append {text before part after : String} {first last : text.Pos}
    (whole : text = before ++ part ++ after) (start : first.offset = before.rawEndPos)
    (stop : last.offset = (before ++ part).rawEndPos) : text.extract first last = part := by
  rw [← String.toByteArray_inj, String.toByteArray_extract, start, stop]
  subst whole
  simp only [String.toByteArray_append, String.byteIdx_rawEndPos, ← String.size_toByteArray,
    ByteArray.size_append]
  rw [ByteArray.append_assoc]
  conv => lhs; arg 2; rw [← Nat.add_zero before.toByteArray.size]
  rw [ByteArray.extract_append_size_add, ByteArray.extract_append_eq_left rfl]

/-- Where an offset between two characters splits a text. -/
theorem exists_splits {text : String} {offset : Nat}
    (between : (String.Pos.Raw.mk offset).IsValid text) :
    ∃ left right, (text.pos ⟨offset⟩ between).Splits left right ∧ left.utf8ByteSize = offset := by
  obtain ⟨left, right, whole, place⟩ := String.Pos.Raw.isValid_iff_exists_append.1 between
  exact ⟨left, right, ⟨whole, place⟩, (congrArg String.Pos.Raw.byteIdx place).symm⟩

theorem slice?_eq_some_iff {text part : String} {start stop : Nat} :
    slice? text start stop = some part ↔
      ∃ before after, text = before ++ part ++ after ∧ before.utf8ByteSize = start ∧
        start + part.utf8ByteSize = stop := by
  constructor
  · intro found
    unfold slice? at found
    split at found
    · next first =>
      split at found
      · next last =>
        split at found
        · next ordered =>
          obtain ⟨before, rest, startsAt, size⟩ := exists_splits first
          obtain ⟨through, after, stopsAt, total⟩ := exists_splits last
          obtain ⟨between, rfl, rfl⟩ := (startsAt.le_iff_exists_eq_append stopsAt).1 ordered
          have same := extract_append stopsAt.eq_append startsAt.offset_eq_rawEndPos
            stopsAt.offset_eq_rawEndPos
          rw [same, Option.some.injEq] at found
          subst found
          rw [String.utf8ByteSize_append, size] at total
          exact ⟨before, after, stopsAt.eq_append, size, total⟩
        · cases found
      · cases found
    · cases found
  · rintro ⟨before, after, rfl, rfl, rfl⟩
    have first : (String.Pos.Raw.mk before.utf8ByteSize).IsValid (before ++ part ++ after) :=
      String.Pos.Raw.isValid_iff_exists_append.2
        ⟨before, part ++ after, String.append_assoc .., rfl⟩
    have last : (String.Pos.Raw.mk (before.utf8ByteSize + part.utf8ByteSize)).IsValid
        (before ++ part ++ after) :=
      String.Pos.Raw.isValid_iff_exists_append.2
        ⟨before ++ part, after, rfl, String.Pos.Raw.ext (String.utf8ByteSize_append ..).symm⟩
    rw [slice?, dif_pos first, dif_pos last, if_pos (Nat.le_add_right ..),
      extract_append rfl rfl (String.Pos.Raw.ext (String.utf8ByteSize_append ..).symm)]

end EnumStamp.Text
