import EnumStamp.Json.Shape
import EnumStamp.Kind.Token

set_option autoImplicit false

namespace EnumStamp.Token

open Json (Fault Reader)

def readName (text : List Char) : Except Fault (Token × List Char) := do
  let (name, rest) ← Json.readQuoted text
  match ofName? (String.ofList name) with
  | some token => return (token, rest)
  | none => .error .mismatched

def passNull (text : List Char) : Except Fault (List Char) :=
  match Json.skipSpaces text with
  | [] => .error .unfinished
  | 'n' :: rest => Json.passWord "ull".toList rest
  | other => Json.mismatch other

/-- Reads a token in either of its written forms. -/
def read (text : List Char) : Except Fault (Token × List Char) :=
  match Json.skipSpaces text with
  | [] => .error .unfinished
  | '"' :: rest => readName rest
  | '{' :: rest => do
    let rest ← Json.passChar '"' rest
    let (token, rest) ← readName rest
    let rest ← Json.passChar ':' rest
    let rest ← passNull rest
    return (token, ← Json.passChar '}' rest)
  | _ => .error .malformed

def decode (text : String) : Except Fault Token :=
  Reader.whole read text.toList

end EnumStamp.Token
