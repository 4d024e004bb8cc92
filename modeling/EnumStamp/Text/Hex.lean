set_option autoImplicit false

namespace EnumStamp.Text

def hexDigit (value : Nat) : Char :=
  if value < 10 then .ofNat ('0'.toNat + value) else .ofNat ('a'.toNat + (value - 10))

/-- The value of a hexadecimal digit in either case. -/
def hexValue? (char : Char) : Option Nat :=
  if char.isDigit then some (char.toNat - '0'.toNat)
  else if 'a' ≤ char ∧ char ≤ 'f' then some (char.toNat - 'a'.toNat + 10)
  else if 'A' ≤ char ∧ char ≤ 'F' then some (char.toNat - 'A'.toNat + 10)
  else none

/-- The last `width` hexadecimal digits of a number, the most significant one first. -/
def hexDigits (width value : Nat) : List Char :=
  (List.range width).reverse.map fun place => hexDigit (value / Nat.pow 16 place % 16)

theorem hexValue?_hexDigit {value : Nat} (small : value < 16) :
    hexValue? (hexDigit value) = some value := by
  have cases : ∀ digit : Fin 16, hexValue? (hexDigit digit) = some digit.val := by decide
  exact cases ⟨value, small⟩

theorem length_hexDigits (width value : Nat) : (hexDigits width value).length = width := by
  simp only [hexDigits, List.length_map, List.length_reverse, List.length_range]

end EnumStamp.Text
