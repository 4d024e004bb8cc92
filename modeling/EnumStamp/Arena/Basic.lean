import EnumStamp.Arena.Payload
import EnumStamp.Limits

/-!
Arenas: append-only stores of nodes. A node is a header; its kind settles which of nine pools its
payload index points into. A side table gives each node the node that it was made from. Nothing that
was stored is ever changed, so trees may share nodes.
-/

set_option autoImplicit false

namespace EnumStamp

/-- What every node has: its kind, its range in the source text in bytes, and the place of its
payload in the pool of its category. -/
structure Header where
  kind : Kind
  flags : UInt16
  start : UInt32
  stop : UInt32
  place : UInt32
  deriving DecidableEq

namespace Header

/-- The place of a node without a payload. -/
def noPlace : UInt32 := 0xFFFFFFFF

/-- The position of a node that does not come from source text. -/
def noPosition : UInt32 := 0xFFFFFFFF

/-- Whether the header refers to a payload, which may still be missing from its pool. -/
def hasPlace (header : Header) : Bool :=
  header.place != noPlace

def isSynthesized (header : Header) : Bool :=
  header.start == noPosition

end Header

structure Arena where
  nodes : Array Header
  /-- For each node the one it was made from, absent for a node of the parser. -/
  origins : Array NodeId
  identifiers : Array String
  literals : Array String
  sourceFiles : Array SourceFile
  enums : Array EnumDecl
  enumMembers : Array EnumMember
  computedNames : Array NodeId
  modules : Array ModuleDecl
  docs : Array DocComment
  composites : Array (List NodeId)
  deriving DecidableEq

namespace Arena

def empty : Arena :=
  ⟨#[], #[], #[], #[], #[], #[], #[], #[], #[], #[], #[]⟩

instance : Inhabited Arena := ⟨empty⟩

/-- The arena without nodes, with room for `capacity` of them, up to a limit. -/
def withCapacity (capacity : Nat) : Arena :=
  let room := min capacity Limits.reservedNodes
  { empty with
    nodes := .emptyWithCapacity room
    origins := .emptyWithCapacity room }

def size (arena : Arena) : Nat :=
  arena.nodes.size

def isEmpty (arena : Arena) : Bool :=
  arena.nodes.isEmpty

def header? (arena : Arena) (id : NodeId) : Option Header :=
  if id.isAbsent then none else arena.nodes[id.position]?

def kind? (arena : Arena) (id : NodeId) : Option Kind :=
  (arena.header? id).map Header.kind

/-- The payload at a place of the pool of a category; tokens have no pool. -/
def pooled? (arena : Arena) (category : Category) (place : Nat) : Option Payload :=
  match category with
  | .token => none
  | .identifier => arena.identifiers[place]?.map .identifier
  | .literal => arena.literals[place]?.map .literal
  | .sourceFile => arena.sourceFiles[place]?.map .sourceFile
  | .enumeration => arena.enums[place]?.map .enumeration
  | .enumMember => arena.enumMembers[place]?.map .enumMember
  | .computedName => arena.computedNames[place]?.map .computedName
  | .moduleDecl => arena.modules[place]?.map .moduleDecl
  | .doc => arena.docs[place]?.map .doc
  | .composite => arena.composites[place]?.map .composite

def poolSize (arena : Arena) : Category → Nat
  | .token => 0
  | .identifier => arena.identifiers.size
  | .literal => arena.literals.size
  | .sourceFile => arena.sourceFiles.size
  | .enumeration => arena.enums.size
  | .enumMember => arena.enumMembers.size
  | .computedName => arena.computedNames.size
  | .moduleDecl => arena.modules.size
  | .doc => arena.docs.size
  | .composite => arena.composites.size

def payloadAt? (arena : Arena) (header : Header) : Option Payload :=
  if header.hasPlace then arena.pooled? header.kind.category header.place.toNat else none

def payload? (arena : Arena) (id : NodeId) : Option Payload :=
  (arena.header? id).bind arena.payloadAt?

/-- The children of a node in source order; a node without payload has none. -/
def children (arena : Arena) (id : NodeId) : List NodeId :=
  match arena.payload? id with
  | some payload => payload.children
  | none => []

/-- The node that a node was made from, absent for a node of the parser. -/
def origin (arena : Arena) (id : NodeId) : NodeId :=
  if id.isAbsent then .absent else arena.origins[id.position]?.getD .absent

def followOrigins (arena : Arena) : (steps : Nat) → NodeId → Option NodeId
  | 0, _ => none
  | steps + 1, id =>
    let origin := arena.origin id
    if origin.isAbsent then some id else arena.followOrigins steps origin

/-- The node of the parser that a node was made from in the end. There is none if the origins run
in a circle, and only then are more steps needed than there are origins. -/
def parsedNode? (arena : Arena) (id : NodeId) : Option NodeId :=
  arena.followOrigins (arena.origins.size + 1) id

def identifierText? (arena : Arena) (id : NodeId) : Option String :=
  match arena.payload? id with
  | some (.identifier text) => some text
  | _ => none

def literalText? (arena : Arena) (id : NodeId) : Option String :=
  match arena.payload? id with
  | some (.literal text) => some text
  | _ => none

def sourceFile? (arena : Arena) (id : NodeId) : Option SourceFile :=
  match arena.payload? id with
  | some (.sourceFile file) => some file
  | _ => none

def enumDecl? (arena : Arena) (id : NodeId) : Option EnumDecl :=
  match arena.payload? id with
  | some (.enumeration decl) => some decl
  | _ => none

def enumMember? (arena : Arena) (id : NodeId) : Option EnumMember :=
  match arena.payload? id with
  | some (.enumMember member) => some member
  | _ => none

theorem payload?_of_header? {arena : Arena} {id : NodeId} {header : Header}
    (found : arena.header? id = some header) : arena.payload? id = arena.payloadAt? header := by
  simp only [payload?, found, Option.bind_some]

/-- A payload is of the category whose pool it comes from. -/
theorem category_of_pooled? {arena : Arena} {category : Category} {place : Nat} {payload : Payload}
    (found : arena.pooled? category place = some payload) : payload.category = category := by
  cases category <;> simp only [pooled?, Option.map_eq_some_iff, reduceCtorEq] at found
  all_goals
    obtain ⟨_, _, same⟩ := found
    rw [← same]
    rfl

theorem pooled?_isSome_iff (arena : Arena) (category : Category) (place : Nat) :
    (arena.pooled? category place).isSome ↔ place < arena.poolSize category := by
  cases category <;> simp [pooled?, poolSize]

end Arena

end EnumStamp
