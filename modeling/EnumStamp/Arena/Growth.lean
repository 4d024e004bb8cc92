import EnumStamp.Arena.Basic
import EnumStamp.Event

/-!
Growth: adding nodes to an arena, and making changed copies of nodes. A copy keeps the header of the
node it is made from, but for the place of its payload, and has that node as its origin. Where
nothing would change, no copy is made and the node itself is the answer.
-/

set_option autoImplicit false

namespace EnumStamp.Arena

/-- Puts a payload at the end of the pool of its category. -/
def store (arena : Arena) : Payload → Arena
  | .identifier text => { arena with identifiers := arena.identifiers.push text }
  | .literal text => { arena with literals := arena.literals.push text }
  | .sourceFile file => { arena with sourceFiles := arena.sourceFiles.push file }
  | .enumeration decl => { arena with enums := arena.enums.push decl }
  | .enumMember member => { arena with enumMembers := arena.enumMembers.push member }
  | .computedName expression =>
    { arena with computedNames := arena.computedNames.push expression }
  | .moduleDecl decl => { arena with modules := arena.modules.push decl }
  | .doc comment => { arena with docs := arena.docs.push comment }
  | .composite children => { arena with composites := arena.composites.push children }

/-- Puts a node at the end, together with its origin. -/
def append (arena : Arena) (header : Header) (origin : NodeId) : Arena × NodeId :=
  let id := NodeId.ofPosition arena.size
  ({ arena with nodes := arena.nodes.push header, origins := arena.origins.push origin }, id)

/-- Adds a node with a payload and a header that the place of the payload completes. -/
def appendWith (arena : Arena) (header : Header) (payload : Payload) (origin : NodeId) :
    Arena × NodeId :=
  let place := arena.poolSize payload.category
  (arena.store payload).append { header with place := .ofNat place } origin

def addToken (arena : Arena) (kind : Kind) (start stop : UInt32) : Arena × NodeId :=
  arena.append ⟨kind, 0, start, stop, Header.noPlace⟩ .absent

/-- Adds a node of the parser with a payload. The kind is not checked: a node whose kind is of
another category than its payload reads the pool of its kind. -/
def add (arena : Arena) (kind : Kind) (start stop : UInt32) (payload : Payload) : Arena × NodeId :=
  arena.appendWith ⟨kind, 0, start, stop, Header.noPlace⟩ payload .absent

def addIdentifier (arena : Arena) (text : String) (start stop : UInt32) : Arena × NodeId :=
  arena.add Token.identifier.kind start stop (.identifier text)

/-- Adds a literal; its kind is one of the literal tokens. -/
def addLiteral (arena : Arena) (kind : Kind) (text : String) (start stop : UInt32) :
    Arena × NodeId :=
  arena.add kind start stop (.literal text)

/-- The last byte offset that a range can end at. -/
def lastOffset : Nat := UInt32.size - 2

/-- Adds a source file, whose range is its whole text. -/
def addSourceFile (arena : Arena) (file : SourceFile) : Arena × NodeId :=
  let length := file.text.utf8ByteSize
  let stop := if length < UInt32.size then length else lastOffset
  arena.add Construct.sourceFile.kind 0 (.ofNat stop) (.sourceFile file)

def addEnum (arena : Arena) (start stop : UInt32) (decl : EnumDecl) : Arena × NodeId :=
  arena.add Construct.enumDeclaration.kind start stop (.enumeration decl)

def addEnumMember (arena : Arena) (start stop : UInt32) (member : EnumMember) : Arena × NodeId :=
  arena.add Construct.enumMember.kind start stop (.enumMember member)

def addComputedName (arena : Arena) (start stop : UInt32) (expression : NodeId) :
    Arena × NodeId :=
  arena.add Construct.computedName.kind start stop (.computedName expression)

def addModule (arena : Arena) (start stop : UInt32) (decl : ModuleDecl) : Arena × NodeId :=
  arena.add Construct.moduleDeclaration.kind start stop (.moduleDecl decl)

/-- Adds a documentation node; its kind is one of the documentation kinds. -/
def addDoc (arena : Arena) (kind : Kind) (start stop : UInt32) (comment : DocComment) :
    Arena × NodeId :=
  arena.add kind start stop (.doc comment)

def addComposite (arena : Arena) (kind : Kind) (start stop : UInt32) (children : List NodeId) :
    Arena × NodeId :=
  arena.add kind start stop (.composite children)

/-- Makes a token without source text. -/
def createToken (arena : Arena) (kind : Kind) : Arena × NodeId :=
  arena.addToken kind Header.noPosition Header.noPosition

def createIdentifier (arena : Arena) (text : String) : Arena × NodeId :=
  arena.addIdentifier text Header.noPosition Header.noPosition

def createString (arena : Arena) (text : String) : Arena × NodeId :=
  arena.addLiteral Token.stringLiteral.kind text Header.noPosition Header.noPosition

def createNumber (arena : Arena) (text : String) : Arena × NodeId :=
  arena.addLiteral Token.numericLiteral.kind text Header.noPosition Header.noPosition

/-- The changed copy of a node, whose payload is edited by `edit`. The answer is the node itself if
it has no payload, if `edit` declines the payload, or if `edit` leaves it as it is. -/
def update (arena : Arena) (id : NodeId) (edit : Payload → Option Payload) : Arena × NodeId :=
  match arena.header? id with
  | none => (arena, id)
  | some header =>
    match arena.payloadAt? header with
    | none => (arena, id)
    | some payload =>
      match edit payload with
      | none => (arena, id)
      | some edited =>
        if edited = payload then (arena, id) else arena.appendWith header edited id

def updateSourceFile (arena : Arena) (id : NodeId) (statements : List NodeId) : Arena × NodeId :=
  arena.update id fun
    | .sourceFile file => some (.sourceFile { file with statements })
    | _ => none

def updateEnum (arena : Arena) (id : NodeId) (decl : EnumDecl) : Arena × NodeId :=
  arena.update id fun
    | .enumeration _ => some (.enumeration decl)
    | _ => none

def updateEnumMember (arena : Arena) (id : NodeId) (member : EnumMember) : Arena × NodeId :=
  arena.update id fun
    | .enumMember _ => some (.enumMember member)
    | _ => none

def updateComputedName (arena : Arena) (id expression : NodeId) : Arena × NodeId :=
  arena.update id fun
    | .computedName _ => some (.computedName expression)
    | _ => none

def updateModule (arena : Arena) (id : NodeId) (decl : ModuleDecl) : Arena × NodeId :=
  arena.update id fun
    | .moduleDecl _ => some (.moduleDecl decl)
    | _ => none

def updateDoc (arena : Arena) (id : NodeId) (tags : List NodeId) : Arena × NodeId :=
  arena.update id fun
    | .doc comment => some (.doc { comment with tags })
    | _ => none

def updateComposite (arena : Arena) (id : NodeId) (children : List NodeId) : Arena × NodeId :=
  arena.update id fun
    | .composite _ => some (.composite children)
    | _ => none

/-- Gives a node of any category other children, slot for slot. The answer is the node itself if
they are its own, or if there are more or fewer of them than it has. -/
def updateChildren (arena : Arena) (id : NodeId) (children : List NodeId) : Arena × NodeId :=
  let current := arena.children id
  if current = children ∨ current.length ≠ children.length then (arena, id)
  else arena.update id fun payload => some (payload.withChildren children)

/-- The warning that children given to a node are more or fewer than it has. -/
def childMismatch? (arena : Arena) (id : NodeId) (children : List NodeId) : Option Event :=
  let expected := (arena.children id).length
  if expected = children.length then none
  else some (.childCountMismatch children.length expected id)

@[simp] theorem size_store (arena : Arena) (payload : Payload) :
    (arena.store payload).size = arena.size := by
  cases payload <;> rfl

@[simp] theorem size_append (arena : Arena) (header : Header) (origin : NodeId) :
    (arena.append header origin).1.size = arena.size + 1 := by
  simp only [append, size, Array.size_push]

@[simp] theorem size_appendWith (arena : Arena) (header : Header) (payload : Payload)
    (origin : NodeId) : (arena.appendWith header payload origin).1.size = arena.size + 1 := by
  simp only [appendWith, size_append, size_store]

/-- Giving a node its own children makes no copy. -/
theorem updateChildren_children (arena : Arena) (id : NodeId) :
    arena.updateChildren id (arena.children id) = (arena, id) := by
  simp only [updateChildren, true_or, if_true]

theorem pooled?_store (arena : Arena) (payload : Payload) (category : Category) (place : Nat) :
    (arena.store payload).pooled? category place =
      if category = payload.category ∧ place = arena.poolSize category then some payload
      else arena.pooled? category place := by
  cases payload <;> cases category <;>
    simp [store, pooled?, Payload.category, poolSize, Array.getElem?_push]
  all_goals
    split
    · rfl
    · rfl

end EnumStamp.Arena
