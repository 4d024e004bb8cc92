import EnumStamp.Json.Reader

set_option autoImplicit false

namespace EnumStamp.Json

/-- A number as it is written. -/
structure Number where
  negative : Bool
  whole : List Nat
  /-- The digits after the point, none without a point. -/
  fraction : List Nat
  /-- What follows the letter of an exponent. -/
  exponent : Option Int

namespace Number

def digit? (char : Char) : Option Nat :=
  if char.isDigit then some (char.toNat - '0'.toNat) else none

def digits (text : List Char) : List Nat × List Char :=
  ((text.takeWhile Char.isDigit).filterMap digit?, text.dropWhile Char.isDigit)

/-- Digits, of which there has to be one; `cut` is the fault of a text that ends instead. -/
def someDigits (cut : Fault) (text : List Char) : Except Fault (List Nat × List Char) :=
  match digits text, text with
  | ([], _), [] => .error cut
  | ([], _), _ :: _ => .error .malformed
  | found, _ => .ok found

/-- The digits before the point; a leading zero stands alone. -/
def readWhole (cut : Fault) (text : List Char) : Except Fault (List Nat × List Char) := do
  match ← someDigits cut text with
  | (0 :: _ :: _, _) => .error .malformed
  | found => return found

/-- A point and the digits after it, if there is a point. -/
def readFraction (cut : Fault) (text : List Char) : Except Fault (List Nat × List Char) :=
  match text with
  | '.' :: rest => someDigits cut rest
  | _ => .ok ([], text)

def ofDigits (digits : List Nat) : Nat :=
  digits.foldl (fun value digit => 10 * value + digit) 0

/-- The exponent after its letter. -/
def readSignedDigits (cut : Fault) (text : List Char) : Except Fault (Int × List Char) :=
  match text with
  | '-' :: rest => do
    let (digits, rest) ← someDigits cut rest
    return (-(ofDigits digits : Int), rest)
  | '+' :: rest => do
    let (digits, rest) ← someDigits cut rest
    return ((ofDigits digits : Int), rest)
  | _ => do
    let (digits, rest) ← someDigits cut text
    return ((ofDigits digits : Int), rest)

def readExponent (cut : Fault) (text : List Char) : Except Fault (Option Int × List Char) :=
  match text with
  | [] => .ok (none, text)
  | char :: rest =>
    if char = 'e' ∨ char = 'E' then do
      let (exponent, rest) ← readSignedDigits cut rest
      return (some exponent, rest)
    else .ok (none, text)

/-- Reads a number of the JSON grammar; `cut` is the fault of a text that ends inside it. -/
def read (cut : Fault) (text : List Char) : Except Fault (Number × List Char) := do
  let (negative, rest) := match text with
    | '-' :: rest => (true, rest)
    | _ => (false, text)
  let (whole, rest) ← readWhole cut rest
  let (fraction, rest) ← readFraction cut rest
  let (exponent, rest) ← readExponent cut rest
  return ({ negative, whole, fraction, exponent }, rest)

/-- The natural number that is written, if the number has no sign, point or exponent. -/
def natural? (number : Number) : Option Nat :=
  if number.negative || !number.fraction.isEmpty || number.exponent.isSome then none
  else some (ofDigits number.whole)

/-- What a significand has to stay below. -/
def significandBound : Nat := UInt64.size

/-- Takes up digits for as long as the value fits a significand, and says how many are left. -/
def takeUp : (value : Nat) → (digits : List Nat) → Nat × Nat
  | value, [] => (value, 0)
  | value, digit :: digits =>
    if 10 * value + digit < significandBound then takeUp (10 * value + digit) digits
    else (value, digits.length + 1)

/-- The number up to sign as a significand and a power of ten. Digits of the whole part
that the significand has no room for count as zeros, and those of the fraction not at all. -/
def scientific (number : Number) : Nat × Int :=
  let (whole, skipped) := takeUp 0 number.whole
  let (significand, unread) := takeUp whole number.fraction
  (significand, (skipped : Int) - (number.fraction.length - unread : Nat) +
    number.exponent.getD 0)

/-- The nearest number with 53 significant bits, ties going to the even one. -/
def nearestDouble (value : Nat) : Nat :=
  let unit := 1 <<< (Nat.log2 value - 52)
  let below := value / unit
  let rest := 2 * (value % unit)
  if rest < unit ∨ rest = unit ∧ below % 2 = 0 then below * unit else (below + 1) * unit

/-- The least number that rounds to infinity: halfway from the greatest double to 2^1024. -/
def infinityThreshold : Nat := 1 <<< 1024 - 1 <<< 970

/-- Whether the number is finite when its significand and its power of ten are multiplied as
doubles; powers above 10^308 are no doubles. -/
def isFinite (number : Number) : Bool :=
  let (significand, exponent) := number.scientific
  significand == 0 || exponent < 0 ||
    (exponent ≤ 308 &&
      nearestDouble significand * nearestDouble (Nat.pow 10 exponent.toNat) < infinityThreshold)

end Number

/-- Reads a number that is to be kept, which has to be finite. -/
def keptNumber (text : List Char) : Except Fault (Number × List Char) := do
  let (number, rest) ← Number.read .unfinished text
  if number.isFinite then return (number, rest) else .error .malformed

end EnumStamp.Json
