set_option autoImplicit false

namespace EnumStamp.Json

inductive Fault where
  /-- The text ends before the value is complete. -/
  | unfinished
  /-- The text is not JSON. -/
  | malformed
  /-- The text is JSON of another shape than the one asked for. -/
  | mismatched
  deriving DecidableEq

/-- Reads an `α` from the front of a text and leaves the rest. -/
abbrev Reader (α : Type) := List Char → Except Fault (α × List Char)

/-- JSON knows four blanks: space, tab, line feed and carriage return. -/
def isSpace (char : Char) : Bool :=
  char == ' ' || char == '\t' || char == '\n' || char == '\r'

/-- The text from its first character that is no blank on. -/
def skipSpaces (text : List Char) : List Char :=
  text.dropWhile isSpace

def passWord : (word text : List Char) → Except Fault (List Char)
  | [], text => .ok text
  | _ :: _, [] => .error .unfinished
  | letter :: word, char :: text =>
    if char = letter then passWord word text else .error .malformed

/-- Passes one character after blanks. -/
def passChar (wanted : Char) (text : List Char) : Except Fault (List Char) :=
  match skipSpaces text with
  | [] => .error .unfinished
  | char :: rest => if char = wanted then .ok rest else .error .malformed

/-- Nothing but blanks may be left at the end of a text. -/
def atEnd (text : List Char) : Except Fault Unit :=
  match skipSpaces text with
  | [] => .ok ()
  | _ :: _ => .error .malformed

def Reader.whole {α : Type} (reader : Reader α) (text : List Char) : Except Fault α := do
  let (value, rest) ← reader text
  atEnd rest
  return value

/-- Reads the items of an array up to its closing bracket, an item being due next. The ruler is at
least as long as the text; each item takes at least one character, so it is never used up. -/
def itemsLoop {α : Type} (item : Reader α) : (ruler : List Char) → List α → Reader (List α)
  | [], _, _ => .error .unfinished
  | _ :: ruler, found, text =>
    match item text with
    | .error fault => .error fault
    | .ok (value, rest) =>
      match skipSpaces rest with
      | [] => .error .unfinished
      | ']' :: rest => .ok ((value :: found).reverse, rest)
      | ',' :: rest => itemsLoop item ruler (value :: found) rest
      | _ :: _ => .error .malformed

def items {α : Type} (item : Reader α) (text : List Char) : Except Fault (List α × List Char) :=
  match skipSpaces text with
  | [] => .error .unfinished
  | ']' :: rest => .ok ([], rest)
  | other => itemsLoop item other [] other

end EnumStamp.Json
