import EnumStamp.Json.Number
import EnumStamp.Json.Quoted

set_option autoImplicit false

namespace EnumStamp.Json

inductive Shape where
  | null
  | boolean
  | number
  | string
  | array
  | object
  deriving DecidableEq

def Shape.name : Shape → String
  | .null => "null"
  | .boolean => "boolean"
  | .number => "number"
  | .string => "string"
  | .array => "array"
  | .object => "object"

/-- Reads an object after its opening brace. At each name `member` is asked to read the colon and
the value of that name into the state. -/
def membersLoop {σ : Type} (member : List Char → σ → Reader σ) :
    (ruler : List Char) → σ → Reader σ
  | [], _, _ => .error .unfinished
  | _ :: ruler, state, text => do
    let rest ← passChar '"' text
    let (name, rest) ← readQuoted rest
    let (state, rest) ← member name state rest
    match skipSpaces rest with
    | [] => .error .unfinished
    | '}' :: rest => .ok (state, rest)
    | ',' :: rest => membersLoop member ruler state rest
    | _ :: _ => .error .malformed

def members {σ : Type} (member : List Char → σ → Reader σ) (state : σ) (text : List Char) :
    Except Fault (σ × List Char) :=
  match skipSpaces text with
  | [] => .error .unfinished
  | '}' :: rest => .ok (state, rest)
  | other => membersLoop member other state other

/-- Reads a value whose scalars are kept; `nested` reads an array or an object after its opening
bracket. -/
def readValue (nested : Shape → Reader Shape) (text : List Char) :
    Except Fault (Shape × List Char) :=
  match skipSpaces text with
  | [] => .error .unfinished
  | 'n' :: rest => return (.null, ← passWord "ull".toList rest)
  | 't' :: rest => return (.boolean, ← passWord "rue".toList rest)
  | 'f' :: rest => return (.boolean, ← passWord "alse".toList rest)
  | '"' :: rest => do
    let (_, rest) ← readQuoted rest
    return (.string, rest)
  | '[' :: rest => nested .array rest
  | '{' :: rest => nested .object rest
  | char :: rest =>
    if char = '-' ∨ char.isDigit then do
      let (_, rest) ← keptNumber (char :: rest)
      return (.number, rest)
    else .error .malformed

def readNested (value : Reader Shape) (shape : Shape) (text : List Char) :
    Except Fault (Shape × List Char) := do
  if shape = .array then
    let (_, rest) ← items value text
    return (.array, rest)
  else
    let member (_ : List Char) (_ : Unit) (text : List Char) : Except Fault (Unit × List Char) := do
      let rest ← passChar ':' text
      let (_, rest) ← value rest
      return ((), rest)
    let (_, rest) ← members member () text
    return (.object, rest)

/-- Reads a value with at most `depth` arrays and objects inside one another. -/
def readShape : (depth : Nat) → Reader Shape
  | 0 => readValue fun _ _ => .error .malformed
  | depth + 1 => readValue (readNested (readShape depth))

/-- The nesting that a value may have. -/
def depthLimit : Nat := 127

def shapeOf (text : List Char) : Except Fault Shape :=
  Reader.whole (readShape depthLimit) text

/-- Refuses a value of an unwanted shape. A scalar is read first, so that its own faults show. -/
def mismatch {α : Type} (text : List Char) : Except Fault α :=
  match readValue (fun _ _ => .error .mismatched) text with
  | .error fault => .error fault
  | .ok _ => .error .mismatched

end EnumStamp.Json
