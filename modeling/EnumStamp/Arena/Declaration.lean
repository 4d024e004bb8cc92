import EnumStamp.Arena.Basic
import EnumStamp.Kind.Modifier

set_option autoImplicit false

namespace EnumStamp.Arena

/-- The modifiers that the nodes of a modifier list contribute; a node that is missing or no
modifier keyword contributes none. -/
def modifiers (arena : Arena) (list : Option (List NodeId)) : Modifiers :=
  (list.getD []).filterMap fun id => (arena.kind? id).bind Kind.modifier?

/-- The modifiers of an enum or a module; other nodes have none. -/
def declModifiers (arena : Arena) (id : NodeId) : Modifiers :=
  match arena.payload? id with
  | some (.enumeration decl) => arena.modifiers decl.modifiers
  | some (.moduleDecl decl) => arena.modifiers decl.modifiers
  | _ => []

def isConstEnum (arena : Arena) (id : NodeId) : Bool :=
  arena.kind? id == some Construct.enumDeclaration.kind &&
    (arena.declModifiers id).contains .const

/-- The name of an enum, if it is an identifier. -/
def enumName? (arena : Arena) (id : NodeId) : Option String := do
  let decl ← arena.enumDecl? id
  arena.identifierText? decl.name

/-- The name of an enum member, if it is an ordinary identifier; a quoted, computed, private or
missing name is none. -/
def memberName? (arena : Arena) (id : NodeId) : Option String := do
  let member ← arena.enumMember? id
  if arena.kind? member.name = some Token.identifier.kind then
    arena.identifierText? member.name
  else
    none

end EnumStamp.Arena
