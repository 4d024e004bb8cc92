import EnumStamp.Arena.Basic
import EnumStamp.Arena.NodeList

set_option autoImplicit false

namespace EnumStamp

open Json (Codec Fault)

/-- The codec of an array, which is written as a list. -/
def Json.Codec.array {α : Type} (codec : Codec α) : Codec (Array α) :=
  (Codec.list codec).map List.toArray Array.toList

def Header.codec : Codec Header :=
  (Codec.record
    (.more "kind" .word16 (.more "flags" .word16 (.more "pos" .word32 (.more "end" .word32
      (.last "data_index" .word32)))))).map
    (fun (kind, flags, start, stop, place) => ⟨⟨kind⟩, flags, start, stop, place⟩)
    fun header => (header.kind.code, header.flags, header.start, header.stop, header.place)

def SourceFile.codec : Codec SourceFile :=
  (Codec.record
    (.more "file_name" .text (.more "text" .text (.last "statements" NodeId.listCodec)))).map
    (fun (name, text, statements) => ⟨name, text, statements⟩)
    fun file => (file.name, file.text, file.statements)

def EnumDecl.codec : Codec EnumDecl :=
  (Codec.record
    (.more "modifiers" (.optional NodeId.listCodec) (.more "name" NodeId.codec
      (.last "members" NodeId.listCodec)))).map
    (fun (modifiers, name, members) => ⟨modifiers, name, members⟩)
    fun decl => (decl.modifiers, decl.name, decl.members)

def EnumMember.codec : Codec EnumMember :=
  (Codec.record (.more "name" NodeId.codec (.last "initializer" NodeId.codec))).map
    (fun (name, initializer) => ⟨name, initializer⟩)
    fun member => (member.name, member.initializer)

def ModuleDecl.codec : Codec ModuleDecl :=
  (Codec.record
    (.more "modifiers" (.optional NodeId.listCodec) (.more "name" NodeId.codec
      (.last "body" NodeId.codec)))).map
    (fun (modifiers, name, body) => ⟨modifiers, name, body⟩)
    fun decl => (decl.modifiers, decl.name, decl.body)

def DocComment.codec : Codec DocComment :=
  (Codec.record (.more "comment" .text (.last "tags" NodeId.listCodec))).map
    (fun (comment, tags) => ⟨comment, tags⟩)
    fun doc => (doc.comment, doc.tags)

namespace Arena

def codec : Codec Arena :=
  (Codec.record
    (.more "nodes" Header.codec.array
      (.more "extended_info" (Codec.record (.last "original" NodeId.codec)).array
      (.more "identifiers" (Codec.record (.last "escaped_text" .text)).array
      (.more "literals" (Codec.record (.last "text" .text)).array
      (.more "source_files" SourceFile.codec.array
      (.more "enums" EnumDecl.codec.array
      (.more "enum_members" EnumMember.codec.array
      (.more "computed_properties" (Codec.record (.last "expression" NodeId.codec)).array
      (.more "modules" ModuleDecl.codec.array
      (.more "jsdocs" DocComment.codec.array
      (.last "composites"
        (Codec.record (.last "children" NodeId.listCodec)).array)))))))))))).map
    (fun (nodes, origins, identifiers, literals, sourceFiles, enums, enumMembers, computedNames,
        modules, docs, composites) =>
      { nodes, origins, identifiers, literals, sourceFiles, enums, enumMembers, computedNames,
        modules, docs, composites })
    fun arena =>
      (arena.nodes, arena.origins, arena.identifiers, arena.literals, arena.sourceFiles,
        arena.enums, arena.enumMembers, arena.computedNames, arena.modules, arena.docs,
        arena.composites)

/-- The text of an arena. -/
def snapshot (arena : Arena) : String :=
  codec.encode arena

/-- The arena that a text holds. -/
def restore (text : String) : Except Fault Arena :=
  codec.decode text

end Arena

end EnumStamp
