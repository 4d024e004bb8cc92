import EnumStamp.Arena.Growth
import EnumStamp.Kind.Modifier

/-!
Builders: writing the text of a source file and its tree at once, so that every node covers the text
that was written for it. A declaration with a body is opened, its body is built by further calls,
and it is closed with the nodes of its body.
-/

set_option autoImplicit false

namespace EnumStamp

inductive MemberName where
  | identifier (text : String)
  | quoted (text : String)
  /-- An identifier in brackets. -/
  | computed (text : String)

inductive MemberValue where
  | none
  | number (text : String)
  | quoted (text : String)

structure MemberOutline where
  name : MemberName
  value : MemberValue

structure ByteRange where
  start : UInt32
  stop : UInt32
  deriving DecidableEq

/-- An arena with the text that has been written of the newest file. -/
structure Builder where
  arena : Arena
  text : String

namespace Builder

def start (arena : Arena) : Builder :=
  { arena, text := "" }

/-- The byte offset at which the next piece goes. -/
def offset (builder : Builder) : UInt32 :=
  .ofNat builder.text.utf8ByteSize

/-- Whether a piece has to be set off from the text before it. -/
def needsSpace (builder : Builder) : Bool :=
  match builder.text.back? with
  | none => false
  | some last => last != ' ' && last != '\n'

/-- Appends a piece as it is. -/
def writeRaw (builder : Builder) (piece : String) : Builder :=
  { builder with text := builder.text ++ piece }

/-- Appends a piece, behind a space where one is needed, and answers with its range. -/
def write (builder : Builder) (piece : String) : Builder × ByteRange :=
  let builder := if builder.needsSpace then builder.writeRaw " " else builder
  let start := builder.offset
  let builder := builder.writeRaw piece
  (builder, { start, stop := builder.offset })

def newline (builder : Builder) : Builder :=
  builder.writeRaw "\n"

def node (builder : Builder) (add : Arena → Arena × NodeId) : Builder × NodeId :=
  let text := builder.text
  let (arena, id) := add builder.arena
  ({ arena, text }, id)

def identifier (builder : Builder) (name : String) : Builder × NodeId :=
  let (builder, range) := builder.write name
  builder.node (·.addIdentifier name range.start range.stop)

/-- Writes a modifier keyword; for any other token nothing but its node is written. -/
def keyword (builder : Builder) (token : Token) : Builder × NodeId :=
  let (builder, range) := builder.write token.keyword
  builder.node (·.addToken token.kind range.start range.stop)

def number (builder : Builder) (value : String) : Builder × NodeId :=
  let (builder, range) := builder.write value
  builder.node (·.addLiteral Token.numericLiteral.kind value range.start range.stop)

/-- Writes a string literal in quotes; nothing is escaped. -/
def quoted (builder : Builder) (value : String) : Builder × NodeId :=
  let (builder, range) := builder.write ("\"" ++ value ++ "\"")
  builder.node (·.addLiteral Token.stringLiteral.kind value range.start range.stop)

def keywords (builder : Builder) : List Token → Builder × List NodeId
  | [] => (builder, [])
  | token :: tokens =>
    let (builder, id) := builder.keyword token
    let (builder, ids) := builder.keywords tokens
    (builder, id :: ids)

/-- Writes a modifier list; without modifiers there is none. -/
def modifierList (builder : Builder) (tokens : List Token) : Builder × Option (List NodeId) :=
  if tokens.isEmpty then (builder, none)
  else
    let (builder, ids) := builder.keywords tokens
    (builder, some ids)

def memberName (builder : Builder) : MemberName → Builder × NodeId
  | .identifier text => builder.identifier text
  | .quoted text => builder.quoted text
  | .computed text =>
    let (builder, opening) := builder.write "["
    let start := builder.offset
    let builder := builder.writeRaw text
    let stop := builder.offset
    let (builder, expression) := builder.node (·.addIdentifier text start stop)
    let builder := builder.writeRaw "]"
    let stop := builder.offset
    builder.node (·.addComputedName opening.start stop expression)

/-- Writes the value of an enum member behind an equals sign. -/
def memberValue (builder : Builder) : MemberValue → Builder × NodeId
  | .none => (builder, .absent)
  | .number text => (builder.write "=").1.number text
  | .quoted text => (builder.write "=").1.quoted text

/-- Writes an enum member, whose range starts with its name. -/
def member (builder : Builder) (outline : MemberOutline) : Builder × NodeId :=
  let (builder, name) := builder.memberName outline.name
  let start := ((builder.arena.header? name).map Header.start).getD builder.offset
  let (builder, initializer) := builder.memberValue outline.value
  let stop := builder.offset
  builder.node (·.addEnumMember start stop { name, initializer })

/-- Writes further enum members, each behind a comma. -/
def furtherMembers (builder : Builder) : List MemberOutline → Builder × List NodeId
  | [] => (builder, [])
  | outline :: outlines =>
    let (builder, id) := (builder.writeRaw ",").member outline
    let (builder, ids) := builder.furtherMembers outlines
    (builder, id :: ids)

def members (builder : Builder) : List MemberOutline → Builder × List NodeId
  | [] => (builder, [])
  | outline :: outlines =>
    let (builder, id) := builder.member outline
    let (builder, ids) := builder.furtherMembers outlines
    (builder, id :: ids)

def enumDeclaration (builder : Builder) (modifiers : List Token) (name : String)
    (members : List MemberOutline) : Builder × NodeId :=
  let (builder, opening) := builder.write ""
  let (builder, modifiers) := builder.modifierList modifiers
  let (builder, name) := (builder.write "enum").1.identifier name
  let (builder, members) := (builder.write "\x7b").1.members members
  let builder := (builder.write "\x7d").1
  let stop := builder.offset
  builder.node (·.addEnum opening.start stop { modifiers, name, members })

/-- A declaration whose body is being built. -/
structure Opened where
  start : UInt32
  modifiers : Option (List NodeId)
  name : NodeId
  /-- Where the block of the body starts. -/
  blockStart : UInt32

def openBody (builder : Builder) : Builder :=
  (builder.write "\x7b").1.newline

/-- Closes a body, on a line of its own. -/
def closeBody (builder : Builder) : Builder :=
  let builder := if builder.text.back? == some '\n' then builder else builder.newline
  (builder.write "\x7d").1

def openFunction (builder : Builder) (name : String) : Builder × Opened :=
  let (builder, opening) := builder.write "function"
  let (builder, name) := builder.identifier name
  let builder := builder.writeRaw "()"
  let blockStart := builder.offset + 1
  (builder.openBody, { start := opening.start, modifiers := none, name, blockStart })

def closeFunction (builder : Builder) (opened : Opened) (statements : List NodeId) :
    Builder × NodeId :=
  let builder := builder.closeBody
  let stop := builder.offset
  let (builder, block) :=
    builder.node (·.addComposite Construct.block.kind opened.blockStart stop statements)
  builder.node
    (·.addComposite Construct.functionDeclaration.kind opened.start stop [opened.name, block])

/-- Opens a class declaration, whose members have no block of their own. -/
def openClass (builder : Builder) (name : String) : Builder × Opened :=
  let (builder, opening) := builder.write "class"
  let (builder, name) := builder.identifier name
  let blockStart := builder.offset
  (builder.openBody, { start := opening.start, modifiers := none, name, blockStart })

def closeClass (builder : Builder) (opened : Opened) (members : List NodeId) :
    Builder × NodeId :=
  let builder := builder.closeBody
  let stop := builder.offset
  builder.node
    (·.addComposite Construct.classDeclaration.kind opened.start stop (opened.name :: members))

def openNamespace (builder : Builder) (modifiers : List Token) (name : String) :
    Builder × Opened :=
  let (builder, opening) := builder.write ""
  let (builder, modifiers) := builder.modifierList modifiers
  let (builder, name) := (builder.write "namespace").1.identifier name
  let blockStart := builder.offset + 1
  (builder.openBody, { start := opening.start, modifiers, name, blockStart })

def closeNamespace (builder : Builder) (opened : Opened) (statements : List NodeId) :
    Builder × NodeId :=
  let builder := builder.closeBody
  let stop := builder.offset
  let (builder, body) :=
    builder.node (·.addComposite Construct.moduleBlock.kind opened.blockStart stop statements)
  builder.node
    (·.addModule opened.start stop { modifiers := opened.modifiers, name := opened.name, body })

/-- Writes a class property with a number as its value. -/
def property (builder : Builder) (name value : String) : Builder × NodeId :=
  let (builder, name) := builder.identifier name
  let start := ((builder.arena.header? name).map Header.start).getD 0
  let (builder, value) := (builder.write "=").1.number value
  let builder := builder.writeRaw ";"
  let stop := builder.offset
  builder.newline.node
    (·.addComposite Construct.propertyDeclaration.kind start stop [name, value])

def returnStatement (builder : Builder) (value : String) : Builder × NodeId :=
  let (builder, opening) := builder.write "return"
  let (builder, value) := builder.number value
  let builder := builder.writeRaw ";"
  let stop := builder.offset
  builder.newline.node
    (·.addComposite Construct.returnStatement.kind opening.start stop [value])

def docComment (builder : Builder) (comment : String) : Builder × NodeId :=
  let (builder, range) := builder.write ("/** " ++ comment ++ " */")
  builder.newline.node
    (·.addDoc Construct.docComment.kind range.start range.stop { comment, tags := [] })

/-- Ends the file: its root holds the whole text and the given statements. -/
def finish (builder : Builder) (fileName : String) (statements : List NodeId) :
    Arena × NodeId :=
  builder.arena.addSourceFile { name := fileName, text := builder.text, statements }

end Builder

end EnumStamp
