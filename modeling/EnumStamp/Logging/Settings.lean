import EnumStamp.Text.Blank

set_option autoImplicit false

namespace EnumStamp.Logging

inductive Format where
  /-- Flat lines of text. -/
  | text
  /-- An indented tree. -/
  | tree
  /-- One JSON object per event. -/
  | json
  deriving DecidableEq

namespace Format

def name : Format → String
  | .text => "Text"
  | .tree => "Tree"
  | .json => "Json"

/-- Reads the name of a format, whatever its blanks at the ends and the case of its ASCII letters;
any other text means flat text. -/
def read (text : String) : Format :=
  let word := (Text.trim text.toList).map Char.toLower
  if word = "tree".toList then .tree
  else if word = "json".toList then .json
  else .text

end Format

structure Settings where
  /-- Which events to keep, in the syntax of the host's log filter. -/
  directives : String
  format : Format
  deriving DecidableEq

namespace Settings

/-- The settings that three variables give: `own` directives win over `fallback` directives, and
without directives nothing is logged. -/
def ofVariables (own fallback format : Option String) : Option Settings :=
  (own <|> fallback).map fun directives =>
    { directives, format := (format.map Format.read).getD .text }

def ownVariable : String := "UUID_ENUM_LOG"

def formatVariable : String := "UUID_ENUM_LOG_FORMAT"

/-- The settings that an environment gives to a host whose general log variable is `general`. -/
def ofEnvironment (general : String) (lookup : String → Option String) : Option Settings :=
  ofVariables (lookup ownVariable) (lookup general) (lookup formatVariable)

theorem ofVariables_eq_none_iff (own fallback format : Option String) :
    ofVariables own fallback format = none ↔ own = none ∧ fallback = none := by
  cases own <;> cases fallback <;> simp [ofVariables]

end Settings

end EnumStamp.Logging
