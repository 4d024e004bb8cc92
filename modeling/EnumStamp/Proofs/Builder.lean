import EnumStamp.Builder
import EnumStamp.Proofs.Arena.Ownership

set_option autoImplicit false

namespace EnumStamp

open Arena

namespace Builder

@[simp] theorem arena_newline (builder : Builder) : builder.newline.arena = builder.arena := rfl

/-- Writing text leaves the arena as it is. -/
@[simp] theorem arena_write (builder : Builder) (piece : String) :
    (builder.write piece).1.arena = builder.arena := by
  unfold write
  dsimp only
  split <;> rfl

@[simp] theorem arena_openBody (builder : Builder) : builder.openBody.arena = builder.arena := by
  simp only [openBody, arena_newline, arena_write]

@[simp] theorem arena_closeBody (builder : Builder) : builder.closeBody.arena = builder.arena := by
  unfold closeBody
  dsimp only
  rw [arena_write]
  split <;> rfl

theorem builds_write (builder : Builder) (piece : String) (given : List NodeId) :
    builder.arena.Builds given (builder.write piece).1.arena given := by
  rw [arena_write]
  exact Builds.refl _ _

theorem builds_identifier (builder : Builder) (name : String) :
    builder.arena.Builds [] (builder.identifier name).1.arena [(builder.identifier name).2] :=
  (builder.builds_write name []).add (.addIdentifier name _ _) rfl trivial
    fun _ member => nomatch member

theorem builds_keyword (builder : Builder) (token : Token) :
    builder.arena.Builds [] (builder.keyword token).1.arena [(builder.keyword token).2] :=
  (builder.builds_write token.keyword []).add (.addToken token.kind _ _) rfl trivial
    fun _ member => nomatch member

theorem builds_number (builder : Builder) (value : String) :
    builder.arena.Builds [] (builder.number value).1.arena [(builder.number value).2] :=
  (builder.builds_write value []).add (.addLiteral Token.numericLiteral.kind value _ _) rfl rfl
    fun _ member => nomatch member

theorem builds_quoted (builder : Builder) (value : String) :
    builder.arena.Builds [] (builder.quoted value).1.arena [(builder.quoted value).2] :=
  (builder.builds_write ("\"" ++ value ++ "\"") []).add
    (.addLiteral Token.stringLiteral.kind value _ _) rfl rfl fun _ member => nomatch member

theorem builds_keywords (builder : Builder) (tokens : List Token) :
    builder.arena.Builds [] (builder.keywords tokens).1.arena (builder.keywords tokens).2 := by
  induction tokens generalizing builder with
  | nil => exact Builds.refl _ _
  | cons token tokens ih => exact (builder.builds_keyword token).cons (ih _)

theorem builds_modifierList (builder : Builder) (tokens : List Token) :
    builder.arena.Builds [] (builder.modifierList tokens).1.arena
      ((builder.modifierList tokens).2.getD []) := by
  unfold modifierList
  split
  · exact Builds.refl _ _
  · exact builder.builds_keywords tokens

theorem builds_memberName (builder : Builder) (name : MemberName) :
    builder.arena.Builds [] (builder.memberName name).1.arena [(builder.memberName name).2] := by
  cases name with
  | identifier text => exact builder.builds_identifier text
  | quoted text => exact builder.builds_quoted text
  | computed text =>
    let opening := builder.write "["
    let inside := opening.1.writeRaw text
    let expression := inside.node (·.addIdentifier text opening.1.offset inside.offset)
    let closed := expression.1.writeRaw "]"
    have named : builder.arena.Builds [] expression.1.arena [expression.2] :=
      (builder.builds_write "[" []).add
        (.addIdentifier text opening.1.offset inside.offset) rfl trivial
        fun _ member => nomatch member
    exact (named.add (.addComputedName opening.2.start closed.offset expression.2) rfl trivial
      fun _ member => .inl member).last

theorem builds_memberValue (builder : Builder) (value : MemberValue) :
    builder.arena.Builds [] (builder.memberValue value).1.arena
      [(builder.memberValue value).2] := by
  cases value with
  | none =>
    exact (Builds.refl _ []).fewer fun _ member => .inr (List.mem_singleton.mp member)
  | number text => exact (builder.builds_write "=" []).next (builds_number _ text)
  | quoted text => exact (builder.builds_write "=" []).next (builds_quoted _ text)

theorem builds_member (builder : Builder) (outline : MemberOutline) :
    builder.arena.Builds [] (builder.member outline).1.arena [(builder.member outline).2] := by
  let name := builder.memberName outline.name
  let start := ((name.1.arena.header? name.2).map Header.start).getD name.1.offset
  let value := name.1.memberValue outline.value
  have parts : builder.arena.Builds [] value.1.arena [value.2, name.2] :=
    (builder.builds_memberName outline.name).next (name.1.builds_memberValue outline.value)
  exact (parts.add (.addEnumMember start value.1.offset ⟨name.2, value.2⟩) rfl trivial
    (by simp [Operation.slots, Payload.slots])).last

theorem builds_furtherMembers (builder : Builder) (outlines : List MemberOutline) :
    builder.arena.Builds [] (builder.furtherMembers outlines).1.arena
      (builder.furtherMembers outlines).2 := by
  induction outlines generalizing builder with
  | nil => exact Builds.refl _ _
  | cons outline outlines ih =>
    exact ((builder.writeRaw ",").builds_member outline).cons (ih _)

theorem builds_members (builder : Builder) (outlines : List MemberOutline) :
    builder.arena.Builds [] (builder.members outlines).1.arena (builder.members outlines).2 := by
  cases outlines with
  | nil => exact Builds.refl _ _
  | cons outline outlines =>
    exact (builder.builds_member outline).cons (builds_furtherMembers _ outlines)

theorem builds_enumDeclaration (builder : Builder) (modifiers : List Token) (name : String)
    (members : List MemberOutline) :
    builder.arena.Builds [] (builder.enumDeclaration modifiers name members).1.arena
      [(builder.enumDeclaration modifiers name members).2] := by
  let opening := builder.write ""
  let list := opening.1.modifierList modifiers
  let named := (list.1.write "enum").1.identifier name
  let filled := (named.1.write "\x7b").1.members members
  let closed := (filled.1.write "\x7d").1
  have early : builder.arena.Builds [] list.1.arena (list.2.getD []) :=
    ((builder.builds_write "" []).next (opening.1.builds_modifierList modifiers)).fewer
      fun _ member => .inl (List.mem_append_left _ member)
  have middle : builder.arena.Builds [] named.1.arena (named.2 :: list.2.getD []) :=
    (early.next (builds_write _ "enum" [])).next (builds_identifier _ name)
  have late : builder.arena.Builds [] closed.arena (filled.2 ++ named.2 :: list.2.getD []) :=
    ((middle.next (builds_write _ "\x7b" [])).next (builds_members _ members)).next
      (builds_write _ "\x7d" [])
  refine (late.add (.addEnum opening.2.start closed.offset ⟨list.2, named.2, filled.2⟩) rfl trivial
    fun slot member => .inl ?_).last
  simp only [Operation.slots, Payload.slots, List.mem_append, List.mem_cons] at member ⊢
  rcases member with modifier | same | filling
  · exact .inr (.inr modifier)
  · exact .inr (.inl same)
  · exact .inl filling

theorem builds_property (builder : Builder) (name value : String) :
    builder.arena.Builds [] (builder.property name value).1.arena
      [(builder.property name value).2] := by
  let named := builder.identifier name
  let start := ((named.1.arena.header? named.2).map Header.start).getD 0
  let valued := (named.1.write "=").1.number value
  let ended := valued.1.writeRaw ";"
  have parts : builder.arena.Builds [] ended.newline.arena [valued.2, named.2] :=
    ((builder.builds_identifier name).next (named.1.builds_write "=" [])).next
      (builds_number _ value)
  exact (parts.add (.addComposite Construct.propertyDeclaration.kind start ended.offset
    [named.2, valued.2]) rfl rfl (by simp [Operation.slots])).last

theorem builds_returnStatement (builder : Builder) (value : String) :
    builder.arena.Builds [] (builder.returnStatement value).1.arena
      [(builder.returnStatement value).2] := by
  let opening := builder.write "return"
  let valued := opening.1.number value
  let ended := valued.1.writeRaw ";"
  have parts : builder.arena.Builds [] ended.newline.arena [valued.2] :=
    (builder.builds_write "return" []).next (opening.1.builds_number value)
  exact (parts.add (.addComposite Construct.returnStatement.kind opening.2.start ended.offset
    [valued.2]) rfl rfl (by simp [Operation.slots])).last

theorem builds_docComment (builder : Builder) (comment : String) :
    builder.arena.Builds [] (builder.docComment comment).1.arena
      [(builder.docComment comment).2] := by
  let written := builder.write ("/** " ++ comment ++ " */")
  have early : builder.arena.Builds [] written.1.newline.arena [] :=
    builder.builds_write ("/** " ++ comment ++ " */") []
  exact early.add (.addDoc Construct.docComment.kind written.2.start written.2.stop ⟨comment, []⟩)
    rfl rfl fun _ member => nomatch member

/-- The handles that an open declaration keeps until it is closed. -/
def Opened.handles (opened : Opened) : List NodeId :=
  opened.name :: opened.modifiers.getD []

theorem builds_openBody (builder : Builder) (given : List NodeId) :
    builder.arena.Builds given builder.openBody.arena given := by
  rw [arena_openBody]
  exact Builds.refl _ _

theorem builds_closeBody (builder : Builder) (given : List NodeId) :
    builder.arena.Builds given builder.closeBody.arena given := by
  rw [arena_closeBody]
  exact Builds.refl _ _

theorem builds_openFunction (builder : Builder) (name : String) :
    builder.arena.Builds [] (builder.openFunction name).1.arena
      (builder.openFunction name).2.handles := by
  let named := (builder.write "function").1.identifier name
  have early : builder.arena.Builds [] named.1.arena [named.2] :=
    (builder.builds_write "function" []).next (builds_identifier _ name)
  exact early.next (builds_openBody (named.1.writeRaw "()") [])

theorem builds_openClass (builder : Builder) (name : String) :
    builder.arena.Builds [] (builder.openClass name).1.arena
      (builder.openClass name).2.handles := by
  let named := (builder.write "class").1.identifier name
  have early : builder.arena.Builds [] named.1.arena [named.2] :=
    (builder.builds_write "class" []).next (builds_identifier _ name)
  exact early.next (builds_openBody named.1 [])

theorem builds_openNamespace (builder : Builder) (modifiers : List Token) (name : String) :
    builder.arena.Builds [] (builder.openNamespace modifiers name).1.arena
      (builder.openNamespace modifiers name).2.handles := by
  let opening := builder.write ""
  let list := opening.1.modifierList modifiers
  let named := (list.1.write "namespace").1.identifier name
  have early : builder.arena.Builds [] list.1.arena (list.2.getD []) :=
    ((builder.builds_write "" []).next (opening.1.builds_modifierList modifiers)).fewer
      fun _ member => .inl (List.mem_append_left _ member)
  have middle : builder.arena.Builds [] named.1.arena (named.2 :: list.2.getD []) :=
    (early.next (builds_write _ "namespace" [])).next (builds_identifier _ name)
  exact middle.next (builds_openBody named.1 [])

section Close

variable (builder : Builder) (opened : Opened) (contents : List NodeId)

theorem builds_closeFunction :
    builder.arena.Builds (opened.handles ++ contents)
      (builder.closeFunction opened contents).1.arena
      [(builder.closeFunction opened contents).2] := by
  let closed := builder.closeBody
  let block :=
    closed.node (·.addComposite Construct.block.kind opened.blockStart closed.offset contents)
  have early : builder.arena.Builds (opened.handles ++ contents) block.1.arena
      (block.2 :: (opened.handles ++ contents)) :=
    (builder.builds_closeBody _).add (.addComposite Construct.block.kind opened.blockStart
      closed.offset contents) rfl rfl fun _ member => .inl (List.mem_append_right _ member)
  exact (early.add (.addComposite Construct.functionDeclaration.kind opened.start closed.offset
    [opened.name, block.2]) rfl rfl (by simp [Operation.slots, Opened.handles])).last

theorem builds_closeClass :
    builder.arena.Builds (opened.handles ++ contents)
      (builder.closeClass opened contents).1.arena
      [(builder.closeClass opened contents).2] := by
  refine ((builder.builds_closeBody _).add (.addComposite Construct.classDeclaration.kind
    opened.start builder.closeBody.offset (opened.name :: contents)) rfl rfl ?_).last
  intro slot member
  rcases List.mem_cons.mp member with rfl | content
  · exact .inl (List.mem_append_left _ (List.mem_cons_self ..))
  · exact .inl (List.mem_append_right _ content)

theorem builds_closeNamespace :
    builder.arena.Builds (opened.handles ++ contents)
      (builder.closeNamespace opened contents).1.arena
      [(builder.closeNamespace opened contents).2] := by
  let closed := builder.closeBody
  let body :=
    closed.node (·.addComposite Construct.moduleBlock.kind opened.blockStart closed.offset contents)
  have early : builder.arena.Builds (opened.handles ++ contents) body.1.arena
      (body.2 :: (opened.handles ++ contents)) :=
    (builder.builds_closeBody _).add (.addComposite Construct.moduleBlock.kind opened.blockStart
      closed.offset contents) rfl rfl fun _ member => .inl (List.mem_append_right _ member)
  refine (early.add (.addModule opened.start closed.offset ⟨opened.modifiers, opened.name, body.2⟩)
    rfl trivial fun slot member => .inl ?_).last
  simp only [Operation.slots, Payload.slots, Opened.handles, List.mem_append, List.mem_cons,
    List.not_mem_nil, or_false] at member ⊢
  rcases member with modifier | same | made
  · exact .inr (.inl (.inr modifier))
  · exact .inr (.inl (.inl same))
  · exact .inl made

end Close

theorem builds_finish (builder : Builder) (fileName : String) (statements : List NodeId) :
    builder.arena.Builds statements (builder.finish fileName statements).1
      [(builder.finish fileName statements).2] :=
  ((Builds.refl builder.arena statements).add (.addSourceFile ⟨fileName, builder.text, statements⟩)
    rfl trivial fun _ member => .inl member).last

end Builder

end EnumStamp
