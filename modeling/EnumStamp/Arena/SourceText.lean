import EnumStamp.Arena.Basic
import EnumStamp.Text.Slice

set_option autoImplicit false

namespace EnumStamp.Arena

/-- The text that the node `id` covers in the source file `file`. There is none for a synthesized
node, for a range that does not lie in the text, and for one that cuts a character. -/
def nodeText? (arena : Arena) (file id : NodeId) : Option String := do
  let source ← arena.sourceFile? file
  let header ← arena.header? id
  if header.isSynthesized then
    none
  else
    Text.slice? source.text header.start.toNat header.stop.toNat

/-- The first characters of the text that a node covers, or a placeholder without one. -/
def preview (arena : Arena) (file id : NodeId) : String :=
  match arena.nodeText? file id with
  | some text => String.ofList (text.toList.take Limits.previewLength)
  | none => Limits.noText

def fileName? (arena : Arena) (id : NodeId) : Option String :=
  (arena.sourceFile? id).map SourceFile.name

def statements? (arena : Arena) (id : NodeId) : Option (List NodeId) :=
  (arena.sourceFile? id).map SourceFile.statements

end EnumStamp.Arena
