import EnumStamp.Json.Quoted

set_option autoImplicit false

namespace EnumStamp.Json

/-- The characters of a text in their escaped forms, and the closing quote, in front of the
rest. -/
def escaped (text rest : List Char) : List Char :=
  text.foldr (fun char rest => escapeChar char ++ rest) ('"' :: rest)

theorem writeQuoted_eq (text rest : List Char) : writeQuoted text rest = '"' :: escaped text rest :=
  rfl

theorem escaped_cons (char : Char) (text rest : List Char) :
    escaped (char :: text) rest = escapeChar char ++ escaped text rest := rfl

/-- Escaping never shortens a text, and the closing quote is one character more. -/
theorem length_escaped (text rest : List Char) :
    text.length + rest.length < (escaped text rest).length := by
  induction text with
  | nil =>
    show 0 + rest.length < rest.length + 1
    omega
  | cons char text ih =>
    have longer : 1 ≤ (escapeChar char).length := by
      unfold escapeChar
      repeat' split
      all_goals simp
    rw [escaped_cons, List.length_append, List.length_cons]
    omega

/-- The four digits of a control character are read as the character. -/
theorem readEscape_of_control {char : Char} (isControl : isControl char = true)
    (rest : List Char) :
    readEscape ('u' :: '0' :: '0' :: Text.hexDigit (char.toNat / 16) ::
      Text.hexDigit (char.toNat % 16) :: rest) = .ok (char, rest) := by
  have low : char.toNat < 0x20 := by
    unfold Json.isControl at isControl
    exact of_decide_eq_true isControl
  have zero : Text.hexValue? '0' = some 0 := rfl
  have upper : Text.hexValue? (Text.hexDigit (char.toNat / 16)) = some (char.toNat / 16) :=
    Text.hexValue?_hexDigit (by omega)
  have lower : Text.hexValue? (Text.hexDigit (char.toNat % 16)) = some (char.toNat % 16) :=
    Text.hexValue?_hexDigit (by omega)
  have unit : ((0 * 16 + 0) * 16 + char.toNat / 16) * 16 + char.toNat % 16 = char.toNat := by
    omega
  have read : readUnit ('0' :: '0' :: Text.hexDigit (char.toNat / 16) ::
      Text.hexDigit (char.toNat % 16) :: rest) = .ok (char.toNat, rest) := by
    unfold readUnit
    simp only [zero, upper, lower, unit]
  have noLead : ¬ (0xD800 ≤ char.toNat ∧ char.toNat ≤ 0xDBFF) := by omega
  have noTrail : ¬ (0xDC00 ≤ char.toNat ∧ char.toNat ≤ 0xDFFF) := by omega
  unfold readEscape
  simp only [read, bind, Except.bind, if_neg noLead, if_neg noTrail, Char.ofNat_toNat]
  rfl

/-- One round of reading takes one character in its escaped form. -/
theorem quotedLoop_escapeChar (mark : Char) (ruler found : List Char) (char : Char)
    (rest : List Char) :
    quotedLoop (mark :: ruler) found (escapeChar char ++ rest) =
      quotedLoop ruler (char :: found) rest := by
  unfold escapeChar
  split
  · subst char; rfl
  split
  · subst char; rfl
  split
  · subst char; rfl
  split
  · subst char; rfl
  split
  · subst char; rfl
  split
  · subst char; rfl
  split
  · subst char; rfl
  split
  · rename_i control
    have read := readEscape_of_control control rest
    simp only [List.cons_append, List.nil_append, quotedLoop, read]
    rfl
  · rename_i noQuote noSlash _ _ _ _ _ noControl
    simp only [List.cons_append, List.nil_append, quotedLoop, if_neg noQuote, if_neg noSlash,
      if_neg noControl]

theorem quotedLoop_escaped (ruler found text rest : List Char)
    (enough : text.length < ruler.length) :
    quotedLoop ruler found (escaped text rest) = .ok (found.reverse ++ text, rest) := by
  induction text generalizing ruler found with
  | nil =>
    cases ruler with
    | nil => cases enough
    | cons mark ruler =>
      rw [List.append_nil]
      rfl
  | cons char text ih =>
    cases ruler with
    | nil => cases enough
    | cons mark ruler =>
      rw [List.length_cons, List.length_cons] at enough
      rw [escaped_cons, quotedLoop_escapeChar, ih ruler (char :: found) (by omega)]
      simp only [List.reverse_cons, List.append_assoc, List.singleton_append]

/-- A quoted text is read back after its opening quote. -/
theorem readQuoted_written (text rest : List Char) :
    readQuoted (escaped text rest) = .ok (text, rest) := by
  have longer := length_escaped text rest
  unfold readQuoted
  rw [quotedLoop_escaped _ [] text rest (by omega)]
  rfl

end EnumStamp.Json
