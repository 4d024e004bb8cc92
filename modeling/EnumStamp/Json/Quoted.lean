import EnumStamp.Json.Reader
import EnumStamp.Text.Hex

set_option autoImplicit false

namespace EnumStamp.Json

/-- Control characters have to be escaped. -/
def isControl (char : Char) : Bool :=
  char.toNat < 0x20

def escapeChar (char : Char) : List Char :=
  if char = '"' then ['\\', '"']
  else if char = '\\' then ['\\', '\\']
  else if char = '\n' then ['\\', 'n']
  else if char = '\r' then ['\\', 'r']
  else if char = '\t' then ['\\', 't']
  else if char = '\x08' then ['\\', 'b']
  else if char = '\x0c' then ['\\', 'f']
  else if isControl char then
    ['\\', 'u', '0', '0', Text.hexDigit (char.toNat / 16), Text.hexDigit (char.toNat % 16)]
  else [char]

def writeQuoted (text rest : List Char) : List Char :=
  '"' :: text.foldr (fun char rest => escapeChar char ++ rest) ('"' :: rest)

/-- The character that a one-letter escape stands for. -/
def plainEscape? (char : Char) : Option Char :=
  if char = '"' ∨ char = '\\' ∨ char = '/' then some char
  else if char = 'n' then some '\n'
  else if char = 'r' then some '\r'
  else if char = 't' then some '\t'
  else if char = 'b' then some '\x08'
  else if char = 'f' then some '\x0c'
  else none

/-- Four hexadecimal digits; a text is cut short if it has fewer than four bytes. -/
def readUnit (text : List Char) : Except Fault (Nat × List Char) :=
  match text with
  | a :: b :: c :: d :: rest =>
    match Text.hexValue? a, Text.hexValue? b, Text.hexValue? c, Text.hexValue? d with
    | some a, some b, some c, some d => .ok (((a * 16 + b) * 16 + c) * 16 + d, rest)
    | _, _, _, _ => .error .malformed
  | short =>
    if (String.ofList short).utf8ByteSize < 4 then .error .unfinished else .error .malformed

/-- The second half of a surrogate pair, which has to follow the first at once. -/
def readTrail (lead : Nat) (text : List Char) : Except Fault (Char × List Char) :=
  match text with
  | [] => .error .unfinished
  | '\\' :: [] => .error .unfinished
  | '\\' :: 'u' :: rest => do
    let (trail, rest) ← readUnit rest
    if 0xDC00 ≤ trail ∧ trail ≤ 0xDFFF then
      return (.ofNat (0x10000 + (lead - 0xD800) * 0x400 + (trail - 0xDC00)), rest)
    else .error .malformed
  | _ => .error .malformed

/-- What follows a backslash. -/
def readEscape (text : List Char) : Except Fault (Char × List Char) :=
  match text with
  | [] => .error .unfinished
  | 'u' :: rest => do
    let (unit, rest) ← readUnit rest
    if 0xD800 ≤ unit ∧ unit ≤ 0xDBFF then readTrail unit rest
    else if 0xDC00 ≤ unit ∧ unit ≤ 0xDFFF then .error .malformed
    else return (.ofNat unit, rest)
  | char :: rest =>
    match plainEscape? char with
    | some plain => .ok (plain, rest)
    | none => .error .malformed

/-- Reads up to the closing quote. The ruler is at least as long as the text, and each character
read takes at least one, so it is never used up. -/
def quotedLoop : (ruler found : List Char) → Reader (List Char)
  | [], _, _ => .error .unfinished
  | _ :: _, _, [] => .error .unfinished
  | _ :: ruler, found, char :: rest =>
    if char = '"' then .ok (found.reverse, rest)
    else if char = '\\' then
      match readEscape rest with
      | .error fault => .error fault
      | .ok (plain, rest) => quotedLoop ruler (plain :: found) rest
    else if isControl char then .error .malformed
    else quotedLoop ruler (char :: found) rest

/-- Reads a text after its opening quote. -/
def readQuoted (text : List Char) : Except Fault (List Char × List Char) :=
  quotedLoop text [] text

end EnumStamp.Json
