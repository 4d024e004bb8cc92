import EnumStamp.Text.Hex

set_option autoImplicit false

namespace EnumStamp.Cache.Uuid

def freeBits : Nat := 122

/-- The text with the given free bits: 48 of them, the version 4, 12 more, the variant with two,
and 12 and 48 more. -/
def ofBits (bits : Nat) : String :=
  let time := bits >>> 74
  let middle := (bits >>> 62) % 1 <<< 12
  let variant := 8 + (bits >>> 60) % 4
  let sequence := (bits >>> 48) % 1 <<< 12
  let node := bits % 1 <<< 48
  .ofList
    (Text.hexDigits 8 (time >>> 16) ++ '-' :: Text.hexDigits 4 (time % 1 <<< 16) ++
      '-' :: '4' :: Text.hexDigits 3 middle ++
      '-' :: Text.hexDigit variant :: Text.hexDigits 3 sequence ++
      '-' :: Text.hexDigits 12 node)

def isHex (char : Char) : Bool :=
  ('0' ≤ char && char ≤ '9') || ('a' ≤ char && char ≤ 'f')

/-- What each character of the form may be. -/
def form : List (Char → Bool) :=
  let hyphen := [(· == '-')]
  let digits (count : Nat) := List.replicate count isHex
  digits 8 ++ hyphen ++ digits 4 ++ hyphen ++ [(· == '4')] ++ digits 3 ++ hyphen ++
    [fun char => char == '8' || char == '9' || char == 'a' || char == 'b'] ++ digits 3 ++
    hyphen ++ digits 12

/-- Whether a text follows a form, character by character. -/
def follows : List (Char → Bool) → List Char → Bool
  | [], [] => true
  | test :: tests, char :: chars => test char && follows tests chars
  | _, _ => false

/-- Whether a text is a UUID of version 4. -/
def isText (text : String) : Bool :=
  follows form text.toList

/-- The distance from one dealt identifier to the next. -/
def stride : Nat := 0x1E3779B97F4A7C15F39CC0605CEDC83

def deal (seed place : Nat) : String :=
  ofBits ((seed + place * stride) % 1 <<< freeBits)

end EnumStamp.Cache.Uuid
