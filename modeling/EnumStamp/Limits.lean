set_option autoImplicit false

namespace EnumStamp.Limits

/-- The most node slots that an arena reserves in advance; it still grows past them on demand. -/
def reservedNodes : Nat := 5000000

/-- The nesting that a work stack is sized for at the start; deeper trees only grow it. -/
def workStack : Nat := 64

/-- The number of characters of a node's source text that diagnostics show. -/
def previewLength : Nat := 100

/-- What diagnostics show for a node whose source text cannot be read. -/
def noText : String := "<no text available>"

end EnumStamp.Limits
