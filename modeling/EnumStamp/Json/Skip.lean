import EnumStamp.Json.Number
import EnumStamp.Json.Quoted

/-!
Skipping: passing a value that nobody asked for. A skipped value follows the grammar, but may nest
without bound, may hold halves of surrogate pairs and numbers of any size, and a number that is cut
short counts as malformed.
-/

set_option autoImplicit false

namespace EnumStamp.Json

def skipQuoted : (text : List Char) → Except Fault (List Char)
  | [] => .error .unfinished
  | '"' :: rest => .ok rest
  | '\\' :: [] => .error .unfinished
  | '\\' :: 'u' :: rest =>
    match readUnit rest with
    | .error fault => .error fault
    | .ok _ => skipQuoted rest
  | '\\' :: char :: rest =>
    if (plainEscape? char).isSome then skipQuoted rest else .error .malformed
  | char :: rest => if isControl char then .error .malformed else skipQuoted rest

/-- What has been opened around a value. -/
inductive Bracket where
  | array
  | object

namespace Bracket

def closing : Bracket → Char
  | .array => ']'
  | .object => '}'

/-- Passes what stands in front of a value inside: in an object, its name and a colon. -/
def beforeValue : Bracket → List Char → Except Fault (List Char)
  | .array, text => .ok text
  | .object, text => do
    let rest ← passChar '"' text
    let rest ← skipQuoted rest
    passChar ':' rest

end Bracket

/-- Passes an opening bracket: an empty array or object is passed whole. -/
def skipOpening (bracket : Bracket) (text : List Char) :
    Except Fault (Option Bracket × List Char) :=
  match skipSpaces text with
  | [] => .error .unfinished
  | char :: rest =>
    if char = bracket.closing then .ok (none, rest)
    else do
      let rest ← bracket.beforeValue (char :: rest)
      return (some bracket, rest)

/-- Passes a scalar, an empty array or object, or an opening bracket, which is then returned. -/
def skipStart (text : List Char) : Except Fault (Option Bracket × List Char) :=
  match skipSpaces text with
  | [] => .error .unfinished
  | 'n' :: rest => return (none, ← passWord "ull".toList rest)
  | 't' :: rest => return (none, ← passWord "rue".toList rest)
  | 'f' :: rest => return (none, ← passWord "alse".toList rest)
  | '"' :: rest => return (none, ← skipQuoted rest)
  | '[' :: rest => skipOpening .array rest
  | '{' :: rest => skipOpening .object rest
  | char :: rest =>
    if char = '-' ∨ char.isDigit then do
      let (_, rest) ← Number.read .malformed (char :: rest)
      return (none, rest)
    else .error .malformed

/-- After a value, passes closing brackets up to the next comma and to the value after it, and
answers with the brackets that are still open. -/
def skipClosing : (opened : List Bracket) → (text : List Char) →
    Except Fault (List Bracket × List Char)
  | [], text => .ok ([], text)
  | bracket :: opened, text =>
    match skipSpaces text with
    | [] => .error .unfinished
    | char :: rest =>
      if char = bracket.closing then skipClosing opened rest
      else if char = ',' then do
        let rest ← bracket.beforeValue rest
        return (bracket :: opened, rest)
      else .error .malformed

/-- Passes values until every bracket is closed. The ruler is at least as long as the text; each
round takes at least one character. -/
def skipLoop : (ruler : List Char) → (opened : List Bracket) → (text : List Char) →
    Except Fault (List Char)
  | [], _, _ => .error .unfinished
  | _ :: ruler, opened, text =>
    match skipStart text with
    | .error fault => .error fault
    | .ok (some bracket, rest) => skipLoop ruler (bracket :: opened) rest
    | .ok (none, rest) =>
      match skipClosing opened rest with
      | .error fault => .error fault
      | .ok ([], rest) => .ok rest
      | .ok (opened, rest) => skipLoop ruler opened rest

def skipValue (text : List Char) : Except Fault (List Char) :=
  skipLoop text [] text

end EnumStamp.Json
