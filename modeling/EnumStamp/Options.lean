import EnumStamp.Json.Codec

set_option autoImplicit false

namespace EnumStamp

structure Options where
  deriving DecidableEq, Inhabited

namespace Options

inductive Error where
  /-- The text is not one JSON value. -/
  | unreadable (fault : Json.Fault)
  /-- The value is neither an object nor null. -/
  | wrongShape (found : Json.Shape)

/-- The message for the host; that of an unreadable text is the heading of its details. -/
def Error.message : Error → String
  | .unreadable _ => "invalid transformer config JSON: "
  | .wrongShape found => "transformer config must be a JSON object, found " ++ found.name

def ofShape : Json.Shape → Except Error Options
  | .null => .ok default
  | .object => .ok {}
  | found => .error (.wrongShape found)

def decode (text : String) : Except Error Options :=
  match Json.shapeOf text.toList with
  | .ok shape => ofShape shape
  | .error fault => .error (.unreadable fault)

/-- The written form of the options: an object with no field. -/
def encode (_ : Options) : String :=
  String.ofList ['{', '}']

theorem ofShape_eq_ok_iff (shape : Json.Shape) :
    (∃ options, ofShape shape = .ok options) ↔ shape = .null ∨ shape = .object := by
  cases shape <;> simp [ofShape]

end Options

end EnumStamp
