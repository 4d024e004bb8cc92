import EnumStamp.Arena.NodeId

set_option autoImplicit false

namespace EnumStamp

inductive Level where
  | warn
  | debug
  | trace
  deriving DecidableEq

def Level.name : Level → String
  | .warn => "WARN"
  | .debug => "DEBUG"
  | .trace => "TRACE"

inductive Event where
  | stamperReady
  | fileStarted (file : Option String)
  /-- A walk that may change the file says whether it did. -/
  | fileFinished (file : Option String) (changed : Option Bool)
  | nodeEntered (id : NodeId) (kind : String)
  | docSkipped (id : NodeId)
  | namelessEnum (id : NodeId)
  | enumEntered (enumName : String)
  | plainEnum (enumName : String)
  | constEnumStarted (enumName : String) (exported : Bool)
  | memberKept (enumName : String) (member : NodeId)
  | memberStarted (enumName member : String)
  | valueFound (key value : String)
  | valueGenerated (key value : String)
  | memberStamped (member value : String)
  | constEnumFinished (enumName : String)
  | nodeSighted (id : NodeId) (kind text : String)
  | childCountMismatch (actual expected : Nat) (id : NodeId)
  | unitsStarted (count : Nat)
  deriving DecidableEq

namespace Event

inductive Value where
  | text (value : String)
  | number (value : Nat)
  | truth (value : Bool)
  deriving DecidableEq

/-- What an event shows for a file whose name is not known. -/
def unknownFile : String := "<unknown>"

def level : Event → Level
  | .childCountMismatch .. => .warn
  | .nodeEntered .. => .trace
  | .docSkipped .. => .trace
  | .nodeSighted .. => .trace
  | _ => .debug

def message : Event → String
  | .stamperReady => "const enum UUID transformer initialized"
  | .fileStarted .. => "processing source file"
  | .fileFinished .. => "finished processing file"
  | .nodeEntered .. => "visiting node"
  | .docSkipped .. => "skipping JSDoc node"
  | .namelessEnum .. => "skipping enum without an identifier name"
  | .enumEntered .. => "visiting enum declaration"
  | .plainEnum .. => "skipping non-const enum"
  | .constEnumStarted .. => "processing const enum"
  | .memberKept .. => "keeping member with a non-identifier name"
  | .memberStarted .. => "processing member"
  | .valueFound .. => "using cached UUID"
  | .valueGenerated .. => "generated new UUID"
  | .memberStamped .. => "updated member"
  | .constEnumFinished .. => "finished processing const enum"
  | .nodeSighted .. => "node"
  | .childCountMismatch .. => "update_children: child count mismatch, keeping original node"
  | .unitsStarted .. => "transforming compilation units in parallel"

def fields : Event → List (String × Value)
  | .stamperReady => []
  | .fileStarted file => [("file", .text (file.getD unknownFile))]
  | .fileFinished file changed =>
    (changed.map fun changed => ("changed", .truth changed)).toList ++
      [("file", .text (file.getD unknownFile))]
  | .nodeEntered id kind => [("idx", .number id.raw.toNat), ("kind", .text kind)]
  | .docSkipped id => [("idx", .number id.raw.toNat)]
  | .namelessEnum id => [("idx", .number id.raw.toNat)]
  | .enumEntered enumName => [("enum_name", .text enumName)]
  | .plainEnum enumName => [("enum_name", .text enumName)]
  | .constEnumStarted enumName exported =>
    [("enum_name", .text enumName), ("exported", .truth exported)]
  | .memberKept enumName member =>
    [("enum_name", .text enumName), ("member", .number member.raw.toNat)]
  | .memberStarted enumName member => [("enum_name", .text enumName), ("member", .text member)]
  | .valueFound key value => [("key", .text key), ("uuid", .text value)]
  | .valueGenerated key value => [("key", .text key), ("uuid", .text value)]
  | .memberStamped member value => [("member", .text member), ("uuid", .text value)]
  | .constEnumFinished enumName => [("enum_name", .text enumName)]
  | .nodeSighted id kind text =>
    [("idx", .number id.raw.toNat), ("kind", .text kind), ("text", .text text)]
  | .childCountMismatch actual expected id =>
    [("actual", .number actual), ("expected", .number expected), ("node", .number id.raw.toNat)]
  | .unitsStarted count => [("units", .number count)]

end Event

end EnumStamp
