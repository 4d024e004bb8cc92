import EnumStamp.Json.Shape
import EnumStamp.Json.Skip

/-!
Codecs: a written form and a reader of one type, side by side. Records are written as objects with
their fields in order. They are read from an object with the fields in any order, or from an array
of exactly the fields in order.
-/

set_option autoImplicit false

namespace EnumStamp.Json

/-- How values of a type are written and read. -/
structure Codec (α : Type) where
  /-- The written form in front of the rest. -/
  write : α → List Char → List Char
  read : Reader α
  /-- The value of a record's field that is not given, if the field may be left out. -/
  whenMissing : Option α

namespace Codec

def encode {α : Type} (codec : Codec α) (value : α) : String :=
  String.ofList (codec.write value [])

/-- The value that a whole text holds. -/
def decode {α : Type} (codec : Codec α) (text : String) : Except Fault α :=
  codec.read.whole text.toList

/-- Reads a natural number below `bound`. -/
def readNatural (bound : Nat) (text : List Char) : Except Fault (Nat × List Char) :=
  match skipSpaces text with
  | [] => .error .unfinished
  | char :: rest =>
    if char = '-' ∨ char.isDigit then do
      let (number, rest) ← keptNumber (char :: rest)
      match number.natural? with
      | some value => if value < bound then return (value, rest) else .error .mismatched
      | none => .error .mismatched
    else mismatch (char :: rest)

def natural (bound : Nat) : Codec Nat where
  write value rest := Nat.toDigits 10 value ++ rest
  read := readNatural bound
  whenMissing := none

/-- A codec of `β` from one of `α`, for two types that stand for the same values. -/
def map {α β : Type} (codec : Codec α) (make : α → β) (back : β → α) : Codec β where
  write value rest := codec.write (back value) rest
  read text := do
    let (value, rest) ← codec.read text
    return (make value, rest)
  whenMissing := codec.whenMissing.map make

def word16 : Codec UInt16 :=
  (natural UInt16.size).map UInt16.ofNat UInt16.toNat

def word32 : Codec UInt32 :=
  (natural UInt32.size).map UInt32.ofNat UInt32.toNat

def readText (text : List Char) : Except Fault (List Char × List Char) :=
  match skipSpaces text with
  | [] => .error .unfinished
  | '"' :: rest => readQuoted rest
  | other => mismatch other

def text : Codec String where
  write value rest := writeQuoted value.toList rest
  read text := do
    let (value, rest) ← readText text
    return (String.ofList value, rest)
  whenMissing := none

/-- Items between commas, each in front of what follows it. -/
def writeItems {α : Type} (write : α → List Char → List Char) (values : List α)
    (rest : List Char) : List Char :=
  match values with
  | [] => rest
  | first :: values =>
    write first (values.foldr (fun value rest => ',' :: write value rest) rest)

/-- Arrays of any length. -/
def list {α : Type} (codec : Codec α) : Codec (List α) where
  write values rest := '[' :: writeItems codec.write values (']' :: rest)
  read text :=
    match skipSpaces text with
    | [] => .error .unfinished
    | '[' :: rest => items codec.read rest
    | other => mismatch other
  whenMissing := none

/-- A value or null; a record may leave such a field out. -/
def optional {α : Type} (codec : Codec α) : Codec (Option α) where
  write value rest :=
    match value with
    | none => "null".toList ++ rest
    | some value => codec.write value rest
  read text :=
    match skipSpaces text with
    | 'n' :: rest => return (none, ← passWord "ull".toList rest)
    | other => do
      let (value, rest) ← codec.read other
      return (some value, rest)
  whenMissing := some none

end Codec

/-- The fields of a record in order: the type of their values, as a nested pair, and that of a
partly read record, which holds an option for each field. -/
inductive Fields : Type → Type → Type 1 where
  | last {α : Type} (name : String) (codec : Codec α) : Fields α (Option α)
  | more {α β δ : Type} (name : String) (codec : Codec α) (rest : Fields β δ) :
      Fields (α × β) (Option α × δ)

namespace Fields

/-- A record of which nothing has been read. -/
def blank {α δ : Type} : Fields α δ → δ
  | .last .. => none
  | .more _ _ rest => (none, rest.blank)

/-- The record's values, if no field that is needed is missing. -/
def complete {α δ : Type} : Fields α δ → δ → Option α
  | .last _ codec, found => found <|> codec.whenMissing
  | .more _ codec rest, (found, others) => do
    let value ← found <|> codec.whenMissing
    let values ← rest.complete others
    return (value, values)

def readField {α : Type} (codec : Codec α) (found : Option α) (text : List Char) :
    Except Fault (Option α × List Char) := do
  if found.isSome then
    .error .mismatched
  else
    let rest ← passChar ':' text
    let (value, rest) ← codec.read rest
    return (some value, rest)

/-- Reads what follows a name: the value of that field, or one to be skipped. -/
def readMember {α δ : Type} : Fields α δ → (name : String) → δ → Reader δ
  | .last own codec, name, found, text =>
    if name = own then readField codec found text
    else do
      let rest ← passChar ':' text
      return (found, ← skipValue rest)
  | .more own codec fields, name, (found, others), text =>
    if name = own then do
      let (found, rest) ← readField codec found text
      return ((found, others), rest)
    else do
      let (others, rest) ← fields.readMember name others text
      return ((found, others), rest)

/-- Reads the values of all fields in order, up to the closing bracket. -/
def readInOrder {α δ : Type} : Fields α δ → (first : Bool) → Reader α
  | .last _ codec, first, text => do
    let rest ← separate first text
    codec.read rest
  | .more _ codec fields, first, text => do
    let rest ← separate first text
    let (value, rest) ← codec.read rest
    let (values, rest) ← fields.readInOrder false rest
    return ((value, values), rest)
where
  /-- Passes the comma between two values; an array that ends here is too short. -/
  separate (first : Bool) (text : List Char) : Except Fault (List Char) :=
    match skipSpaces text with
    | [] => .error .unfinished
    | ']' :: _ => .error .mismatched
    | ',' :: rest => if first then .error .malformed else .ok rest
    | other => if first then .ok other else .error .malformed

/-- The names and values of a record, each behind a comma but the first. -/
def write {α δ : Type} : Fields α δ → α → List Char → List Char
  | .last name codec, value, rest =>
    writeQuoted name.toList (':' :: codec.write value rest)
  | .more name codec fields, (value, values), rest =>
    writeQuoted name.toList (':' :: codec.write value (',' :: fields.write values rest))

end Fields

def Codec.record {α δ : Type} (fields : Fields α δ) : Codec α where
  write values rest := '{' :: fields.write values ('}' :: rest)
  read text :=
    match skipSpaces text with
    | [] => .error .unfinished
    | '{' :: rest => do
      let member (name : List Char) := fields.readMember (String.ofList name)
      let (found, rest) ← members member fields.blank rest
      match fields.complete found with
      | some values => return (values, rest)
      | none => .error .mismatched
    | '[' :: rest => do
      let (values, rest) ← fields.readInOrder true rest
      return (values, ← passChar ']' rest)
    | other => mismatch other
  whenMissing := none

end EnumStamp.Json
