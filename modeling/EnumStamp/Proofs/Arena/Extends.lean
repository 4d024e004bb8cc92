import EnumStamp.Proofs.Arena.WellFormed
import EnumStamp.Arena.Declaration
import EnumStamp.Arena.Growth
import EnumStamp.Arena.SourceText

set_option autoImplicit false

namespace EnumStamp.Arena

/-- Each of the eleven vectors of an arena is an initial part of the vector of the other. -/
structure Extends (before after : Arena) : Prop where
  nodes : before.nodes.toList <+: after.nodes.toList
  origins : before.origins.toList <+: after.origins.toList
  identifiers : before.identifiers.toList <+: after.identifiers.toList
  literals : before.literals.toList <+: after.literals.toList
  sourceFiles : before.sourceFiles.toList <+: after.sourceFiles.toList
  enums : before.enums.toList <+: after.enums.toList
  enumMembers : before.enumMembers.toList <+: after.enumMembers.toList
  computedNames : before.computedNames.toList <+: after.computedNames.toList
  modules : before.modules.toList <+: after.modules.toList
  docs : before.docs.toList <+: after.docs.toList
  composites : before.composites.toList <+: after.composites.toList

theorem getElem?_of_prefix {α : Type} {before after : Array α}
    (kept : before.toList <+: after.toList) {position : Nat} {entry : α}
    (found : before[position]? = some entry) : after[position]? = some entry := by
  rw [← Array.getElem?_toList] at found ⊢
  obtain ⟨inside, same⟩ := List.getElem?_eq_some_iff.mp found
  rw [List.prefix_iff_getElem?.mp kept position inside, same]

theorem map_getElem?_of_prefix {α β : Type} {before after : Array α}
    (kept : before.toList <+: after.toList) {position : Nat} {wrap : α → β} {result : β}
    (found : before[position]?.map wrap = some result) :
    after[position]?.map wrap = some result := by
  obtain ⟨entry, stored, same⟩ := Option.map_eq_some_iff.mp found
  exact Option.map_eq_some_iff.mpr ⟨entry, getElem?_of_prefix kept stored, same⟩

theorem prefix_push {α : Type} (entries : Array α) (entry : α) :
    entries.toList <+: (entries.push entry).toList := by
  rw [Array.toList_push]
  exact List.prefix_append _ _

namespace Extends

theorem refl (arena : Arena) : arena.Extends arena := by
  constructor <;> exact List.prefix_refl _

theorem trans {first second third : Arena} (early : first.Extends second)
    (late : second.Extends third) : first.Extends third where
  nodes := early.nodes.trans late.nodes
  origins := early.origins.trans late.origins
  identifiers := early.identifiers.trans late.identifiers
  literals := early.literals.trans late.literals
  sourceFiles := early.sourceFiles.trans late.sourceFiles
  enums := early.enums.trans late.enums
  enumMembers := early.enumMembers.trans late.enumMembers
  computedNames := early.computedNames.trans late.computedNames
  modules := early.modules.trans late.modules
  docs := early.docs.trans late.docs
  composites := early.composites.trans late.composites

theorem size_le {before after : Arena} (grown : before.Extends after) :
    before.size ≤ after.size :=
  grown.nodes.length_le

theorem header? {before after : Arena} (grown : before.Extends after) {id : NodeId}
    {header : Header} (found : before.header? id = some header) :
    after.header? id = some header := by
  rw [header?_eq_some_iff] at found ⊢
  exact ⟨found.1, getElem?_of_prefix grown.nodes found.2⟩

theorem has {before after : Arena} (grown : before.Extends after) {id : NodeId}
    (has : before.Has id) : after.Has id := by
  obtain ⟨header, found⟩ := has.header
  exact has_of_header (grown.header? found)

theorem kind? {before after : Arena} (grown : before.Extends after) {id : NodeId}
    (has : before.Has id) : after.kind? id = before.kind? id := by
  obtain ⟨header, found⟩ := has.header
  simp only [Arena.kind?, found, grown.header? found]

theorem pooled? {before after : Arena} (grown : before.Extends after) {category : Category}
    {place : Nat} {payload : Payload} (found : before.pooled? category place = some payload) :
    after.pooled? category place = some payload := by
  cases category with
  | token => cases found
  | identifier => exact map_getElem?_of_prefix grown.identifiers found
  | literal => exact map_getElem?_of_prefix grown.literals found
  | sourceFile => exact map_getElem?_of_prefix grown.sourceFiles found
  | enumeration => exact map_getElem?_of_prefix grown.enums found
  | enumMember => exact map_getElem?_of_prefix grown.enumMembers found
  | computedName => exact map_getElem?_of_prefix grown.computedNames found
  | moduleDecl => exact map_getElem?_of_prefix grown.modules found
  | doc => exact map_getElem?_of_prefix grown.docs found
  | composite => exact map_getElem?_of_prefix grown.composites found

theorem payloadAt? {before after : Arena} (grown : before.Extends after) {header : Header}
    {payload : Payload} (found : before.payloadAt? header = some payload) :
    after.payloadAt? header = some payload := by
  unfold Arena.payloadAt? at found ⊢
  split at found
  · rename_i placed
    rw [if_pos placed]
    exact grown.pooled? found
  · cases found

theorem payload? {before after : Arena} (grown : before.Extends after) {id : NodeId}
    {payload : Payload} (found : before.payload? id = some payload) :
    after.payload? id = some payload := by
  obtain ⟨header, atHeader, stored⟩ := Option.bind_eq_some_iff.mp found
  rw [payload?_of_header? (grown.header? atHeader)]
  exact grown.payloadAt? stored

/-- A header has the same payload in every extension, or none in all. -/
theorem payloadAt?_eq {before after : Arena} (grown : before.Extends after) {header : Header}
    (inPool : before.isPlaced header = true) :
    after.payloadAt? header = before.payloadAt? header := by
  by_cases placed : header.hasPlace = true
  · obtain ⟨payload, stored⟩ := payload_of_place inPool placed
    rw [stored, grown.payloadAt? stored]
  · rw [Arena.payloadAt?, Arena.payloadAt?, if_neg placed, if_neg placed]

theorem payload?_eq {before after : Arena} (grown : before.Extends after)
    (sound : before.WellFormed) {id : NodeId} (has : before.Has id) :
    after.payload? id = before.payload? id := by
  obtain ⟨header, found⟩ := has.header
  rw [payload?_of_header? found, payload?_of_header? (grown.header? found),
    grown.payloadAt?_eq (sound.isPlaced found)]

theorem children_eq {before after : Arena} (grown : before.Extends after)
    (sound : before.WellFormed) {id : NodeId} (has : before.Has id) :
    after.children id = before.children id := by
  simp only [children, grown.payload?_eq sound has]

end Extends

/-- Storing a payload extends one pool and nothing else. -/
theorem extends_store (arena : Arena) (payload : Payload) :
    arena.Extends (arena.store payload) := by
  cases payload with
  | identifier text => exact { Extends.refl arena with identifiers := prefix_push _ _ }
  | literal text => exact { Extends.refl arena with literals := prefix_push _ _ }
  | sourceFile file => exact { Extends.refl arena with sourceFiles := prefix_push _ _ }
  | enumeration decl => exact { Extends.refl arena with enums := prefix_push _ _ }
  | enumMember member => exact { Extends.refl arena with enumMembers := prefix_push _ _ }
  | computedName expression =>
    exact { Extends.refl arena with computedNames := prefix_push _ _ }
  | moduleDecl decl => exact { Extends.refl arena with modules := prefix_push _ _ }
  | doc comment => exact { Extends.refl arena with docs := prefix_push _ _ }
  | composite children => exact { Extends.refl arena with composites := prefix_push _ _ }

theorem extends_append (arena : Arena) (header : Header) (origin : NodeId) :
    arena.Extends (arena.append header origin).1 :=
  { Extends.refl arena with nodes := prefix_push _ _, origins := prefix_push _ _ }

theorem extends_appendWith (arena : Arena) (header : Header) (payload : Payload)
    (origin : NodeId) : arena.Extends (arena.appendWith header payload origin).1 :=
  (extends_store arena payload).trans (extends_append _ _ _)

theorem extends_update (arena : Arena) (id : NodeId) (edit : Payload → Option Payload) :
    arena.Extends (arena.update id edit).1 := by
  unfold update
  split
  · exact Extends.refl arena
  · split
    · exact Extends.refl arena
    · split
      · exact Extends.refl arena
      · split
        · exact Extends.refl arena
        · exact extends_appendWith _ _ _ _

theorem extends_updateChildren (arena : Arena) (id : NodeId) (children : List NodeId) :
    arena.Extends (arena.updateChildren id children).1 := by
  unfold updateChildren
  dsimp only
  split
  · exact Extends.refl arena
  · exact extends_update _ _ _

theorem extends_createString (arena : Arena) (text : String) :
    arena.Extends (arena.createString text).1 :=
  extends_appendWith _ _ _ _

end EnumStamp.Arena
