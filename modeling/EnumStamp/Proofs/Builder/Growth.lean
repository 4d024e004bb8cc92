import EnumStamp.Proofs.Desk

set_option autoImplicit false

namespace EnumStamp

open Arena

namespace Arena

/-- A node reaches from one byte to another. -/
def Spans (arena : Arena) (id : NodeId) (start stop : UInt32) : Prop :=
  ∃ header, arena.header? id = some header ∧ header.start = start ∧ header.stop = stop

section Add

variable {arena later : Arena} {kind : Kind} {start stop : UInt32} {payload : Payload}

theorem spans_add (fits : later.Fits)
    (grown : (arena.add kind start stop payload).1.Extends later) :
    later.Spans (arena.add kind start stop payload).2 start stop := by
  have room : arena.Fits := (fits.of_extends grown).of_extends (extends_appendWith _ _ _ _)
  exact ⟨arena.placedHeader ⟨kind, 0, start, stop, Header.noPlace⟩ payload,
    grown.header? (header?_appendWith room), rfl, rfl⟩

theorem kind?_add (fits : later.Fits)
    (grown : (arena.add kind start stop payload).1.Extends later) :
    later.kind? (arena.add kind start stop payload).2 = some kind := by
  have room : arena.Fits := (fits.of_extends grown).of_extends (extends_appendWith _ _ _ _)
  have found : later.header? (arena.add kind start stop payload).2 =
      some (arena.placedHeader ⟨kind, 0, start, stop, Header.noPlace⟩ payload) :=
    grown.header? (header?_appendWith room)
  rw [kind?, found]
  rfl

theorem payload?_add (suits : kind.category = payload.category) (fits : later.Fits)
    (grown : (arena.add kind start stop payload).1.Extends later) :
    later.payload? (arena.add kind start stop payload).2 = some payload := by
  have room : arena.Fits := (fits.of_extends grown).of_extends (extends_appendWith _ _ _ _)
  apply grown.payload?
  exact (payload?_of_header? (header?_appendWith room)).trans
    (payloadAt?_placedHeader room .absent suits)

theorem header?_addToken (fits : later.Fits)
    (grown : (arena.addToken kind start stop).1.Extends later) :
    later.header? (arena.addToken kind start stop).2 =
      some ⟨kind, 0, start, stop, Header.noPlace⟩ := by
  have room : arena.Fits := (fits.of_extends grown).of_extends (extends_append _ _ _)
  exact grown.header? (header?_append room)

theorem spans_addToken (fits : later.Fits)
    (grown : (arena.addToken kind start stop).1.Extends later) :
    later.Spans (arena.addToken kind start stop).2 start stop :=
  ⟨_, header?_addToken fits grown, rfl, rfl⟩

theorem children_addToken (fits : later.Fits)
    (grown : (arena.addToken kind start stop).1.Extends later) :
    later.children (arena.addToken kind start stop).2 = [] := by
  rw [children, payload?_of_header? (header?_addToken fits grown)]
  rfl

end Add

/-- The start of a node is read off its header, whatever is taken where there is none. -/
theorem Spans.start_eq {arena : Arena} {id : NodeId} {start stop : UInt32}
    (spans : arena.Spans id start stop) (other : UInt32) :
    ((arena.header? id).map Header.start).getD other = start := by
  obtain ⟨header, found, same, _⟩ := spans
  rw [found, Option.map_some, Option.getD_some, same]

end Arena

namespace Builder

/-- Whether a text ends in something that a piece behind it has to be set off from. -/
def isSolid (text : String) : Bool :=
  text.back?.any fun last => last != ' ' && last != '\n'

/-- The text with a space behind it where a piece would need one. -/
def settled (text : String) : String :=
  if isSolid text then text ++ " " else text

theorem isSolid_append {piece : String} (solid : isSolid piece = true) (text : String) :
    isSolid (text ++ piece) = true := by
  unfold isSolid at solid ⊢
  rw [String.back?_eq] at solid ⊢
  obtain ⟨last, atEnd, fine⟩ := (Option.any_eq_true _ _).mp solid
  rw [String.toList_append, List.getLast?_append, atEnd]
  exact fine

theorem isSolid_append_space (text : String) : isSolid (text ++ " ") = false := by
  rw [isSolid, String.back?_eq, String.toList_append, List.getLast?_append]
  rfl

theorem settled_append {piece : String} (solid : isSolid piece = true) (text : String) :
    settled (text ++ piece) = text ++ piece ++ " " := by
  rw [settled, if_pos (isSolid_append solid text)]

theorem settled_settled (text : String) : settled (settled text) = settled text := by
  by_cases solid : isSolid text = true
  · have spaced : settled text = text ++ " " := if_pos solid
    rw [spaced, settled, isSolid_append_space, if_neg Bool.false_ne_true]
  · have same : settled text = text := if_neg solid
    rw [same, same]

/-- The builder at the place where a piece would go. -/
def spaced (builder : Builder) : Builder :=
  if builder.needsSpace then builder.writeRaw " " else builder

theorem arena_writeRaw (builder : Builder) (piece : String) :
    (builder.writeRaw piece).arena = builder.arena := rfl

theorem arena_spaced (builder : Builder) : builder.spaced.arena = builder.arena := by
  unfold spaced
  split <;> rfl

theorem needsSpace_eq (builder : Builder) : builder.needsSpace = isSolid builder.text := by
  rw [needsSpace, isSolid]
  cases builder.text.back? <;> rfl

theorem text_spaced (builder : Builder) : builder.spaced.text = settled builder.text := by
  rw [spaced, needsSpace_eq, settled]
  split <;> rfl

theorem write_eq (builder : Builder) (piece : String) :
    builder.write piece = (builder.spaced.writeRaw piece,
      ⟨builder.spaced.offset, (builder.spaced.writeRaw piece).offset⟩) := rfl

theorem text_write (builder : Builder) (piece : String) :
    (builder.write piece).1.text = settled builder.text ++ piece := by
  rw [write_eq, ← text_spaced]
  rfl

theorem toNat_offset {builder : Builder} (short : builder.text.utf8ByteSize < UInt32.size) :
    builder.offset.toNat = builder.text.utf8ByteSize :=
  UInt32.toNat_ofNat_of_lt' short

/-- A piece of one byte moves the place on by one. -/
theorem offset_writeRaw_of_byte (builder : Builder) {piece : String}
    (byte : piece.utf8ByteSize = 1) : (builder.writeRaw piece).offset = builder.offset + 1 := by
  show UInt32.ofNat (builder.text ++ piece).utf8ByteSize = _
  rw [String.utf8ByteSize_append, byte, UInt32.ofNat_add]
  rfl

/-- The later state has all of the earlier one, with the rest behind it. -/
structure Grows (early late : Builder) : Prop where
  text : ∃ rest, late.text = early.text ++ rest
  arena : early.arena.Extends late.arena

namespace Grows

theorem refl (builder : Builder) : builder.Grows builder :=
  ⟨⟨"", String.append_empty.symm⟩, .refl _⟩

theorem trans {first second third : Builder} (early : first.Grows second)
    (late : second.Grows third) : first.Grows third := by
  obtain ⟨⟨rest, whole⟩, grown⟩ := early
  obtain ⟨⟨more, all⟩, larger⟩ := late
  refine ⟨⟨rest ++ more, ?_⟩, grown.trans larger⟩
  rw [all, whole, String.append_assoc]

theorem size_le {early late : Builder} (grown : early.Grows late) :
    early.text.utf8ByteSize ≤ late.text.utf8ByteSize := by
  obtain ⟨rest, whole⟩ := grown.text
  rw [whole, String.utf8ByteSize_append]
  exact Nat.le_add_right ..

end Grows

section Grows

variable (builder : Builder)

theorem grows_writeRaw (piece : String) : builder.Grows (builder.writeRaw piece) :=
  ⟨⟨piece, rfl⟩, .refl _⟩

theorem grows_newline : builder.Grows builder.newline :=
  builder.grows_writeRaw "\n"

theorem grows_spaced : builder.Grows builder.spaced := by
  unfold spaced
  split
  · exact builder.grows_writeRaw " "
  · exact .refl _

theorem grows_write (piece : String) : builder.Grows (builder.write piece).1 :=
  builder.grows_spaced.trans (builder.spaced.grows_writeRaw piece)

theorem grows_node (op : Operation) : builder.Grows (builder.node op.apply).1 :=
  ⟨⟨"", String.append_empty.symm⟩, extends_apply op builder.arena⟩

theorem grows_identifier (name : String) : builder.Grows (builder.identifier name).1 :=
  (builder.grows_write name).trans (grows_node _ (.addIdentifier name _ _))

theorem grows_keyword (token : Token) : builder.Grows (builder.keyword token).1 :=
  (builder.grows_write token.keyword).trans (grows_node _ (.addToken token.kind _ _))

theorem grows_number (value : String) : builder.Grows (builder.number value).1 :=
  (builder.grows_write value).trans (grows_node _ (.addLiteral _ value _ _))

theorem grows_quoted (value : String) : builder.Grows (builder.quoted value).1 :=
  (builder.grows_write _).trans (grows_node _ (.addLiteral _ value _ _))

theorem grows_keywords (tokens : List Token) : builder.Grows (builder.keywords tokens).1 := by
  induction tokens generalizing builder with
  | nil => exact .refl _
  | cons token tokens ih => exact (builder.grows_keyword token).trans (ih _)

theorem grows_modifierList (tokens : List Token) :
    builder.Grows (builder.modifierList tokens).1 := by
  unfold modifierList
  split
  · exact .refl _
  · exact builder.grows_keywords tokens

theorem grows_memberName (name : MemberName) : builder.Grows (builder.memberName name).1 := by
  cases name with
  | identifier text => exact builder.grows_identifier text
  | quoted text => exact builder.grows_quoted text
  | computed text =>
    have inside := (builder.grows_write "[").trans (grows_writeRaw _ text)
    exact ((inside.trans (grows_node _ (.addIdentifier text _ _))).trans
      (grows_writeRaw _ "]")).trans (grows_node _ (.addComputedName _ _ _))

theorem grows_memberValue (value : MemberValue) :
    builder.Grows (builder.memberValue value).1 := by
  cases value with
  | none => exact .refl _
  | number text => exact (builder.grows_write "=").trans (grows_number _ text)
  | quoted text => exact (builder.grows_write "=").trans (grows_quoted _ text)

theorem grows_member (outline : MemberOutline) : builder.Grows (builder.member outline).1 :=
  ((builder.grows_memberName outline.name).trans (grows_memberValue _ outline.value)).trans
    (grows_node _ (.addEnumMember _ _ _))

theorem grows_furtherMembers (outlines : List MemberOutline) :
    builder.Grows (builder.furtherMembers outlines).1 := by
  induction outlines generalizing builder with
  | nil => exact .refl _
  | cons outline outlines ih =>
    exact ((builder.grows_writeRaw ",").trans (grows_member _ outline)).trans (ih _)

theorem grows_members (outlines : List MemberOutline) :
    builder.Grows (builder.members outlines).1 := by
  cases outlines with
  | nil => exact .refl _
  | cons outline outlines =>
    exact (builder.grows_member outline).trans (grows_furtherMembers _ outlines)

theorem grows_enumDeclaration (modifiers : List Token) (name : String)
    (members : List MemberOutline) :
    builder.Grows (builder.enumDeclaration modifiers name members).1 := by
  have list := (builder.grows_write "").trans (grows_modifierList _ modifiers)
  have named := (list.trans (grows_write _ "enum")).trans (grows_identifier _ name)
  have filled := (named.trans (grows_write _ "\x7b")).trans (grows_members _ members)
  exact (filled.trans (grows_write _ "\x7d")).trans (grows_node _ (.addEnum _ _ _))

theorem grows_property (name value : String) : builder.Grows (builder.property name value).1 := by
  have valued := ((builder.grows_identifier name).trans (grows_write _ "=")).trans
    (grows_number _ value)
  exact ((valued.trans (grows_writeRaw _ ";")).trans (grows_newline _)).trans
    (grows_node _ (.addComposite _ _ _ _))

theorem grows_returnStatement (value : String) :
    builder.Grows (builder.returnStatement value).1 := by
  have valued := (builder.grows_write "return").trans (grows_number _ value)
  exact ((valued.trans (grows_writeRaw _ ";")).trans (grows_newline _)).trans
    (grows_node _ (.addComposite _ _ _ _))

theorem grows_docComment (comment : String) : builder.Grows (builder.docComment comment).1 :=
  ((builder.grows_write _).trans (grows_newline _)).trans (grows_node _ (.addDoc _ _ _ _))

theorem grows_perform (call : Call) : builder.Grows (call.perform builder) := by
  cases call with
  | identifier name => exact builder.grows_identifier name
  | keyword token => exact builder.grows_keyword token
  | number value => exact builder.grows_number value
  | quoted value => exact builder.grows_quoted value
  | enumDeclaration modifiers name members =>
    exact builder.grows_enumDeclaration modifiers name members
  | property name value => exact builder.grows_property name value
  | returnStatement value => exact builder.grows_returnStatement value
  | docComment comment => exact builder.grows_docComment comment
  | newline => exact builder.grows_newline

theorem grows_openBody : builder.Grows builder.openBody :=
  (builder.grows_write "\x7b").trans (grows_newline _)

theorem grows_enter (body : Body) : builder.Grows (body.enter builder).1 := by
  cases body with
  | ofFunction name =>
    have named := (builder.grows_write "function").trans (grows_identifier _ name)
    exact (named.trans (grows_writeRaw _ "()")).trans (grows_openBody _)
  | ofClass name =>
    exact ((builder.grows_write "class").trans (grows_identifier _ name)).trans (grows_openBody _)
  | ofNamespace modifiers name =>
    have list := (builder.grows_write "").trans (grows_modifierList _ modifiers)
    exact ((list.trans (grows_write _ "namespace")).trans (grows_identifier _ name)).trans
      (grows_openBody _)

theorem grows_closeBody : builder.Grows builder.closeBody := by
  unfold closeBody
  dsimp only
  split
  · exact builder.grows_write "\x7d"
  · exact builder.grows_newline.trans (grows_write _ "\x7d")

theorem grows_leave (body : Body) (opened : Opened) (contents : List NodeId) :
    builder.Grows (body.leave opened contents builder).1 := by
  cases body with
  | ofFunction =>
    exact (builder.grows_closeBody.trans (grows_node _ (.addComposite _ _ _ _))).trans
      (grows_node _ (.addComposite _ _ _ _))
  | ofClass => exact builder.grows_closeBody.trans (grows_node _ (.addComposite _ _ _ _))
  | ofNamespace =>
    exact (builder.grows_closeBody.trans (grows_node _ (.addComposite _ _ _ _))).trans
      (grows_node _ (.addModule _ _ _))

end Grows

/-- A builder comes from another by any calls, with whatever is passed to them. -/
inductive Writes (first : Builder) : Builder → Prop where
  | start : Writes first first
  | call {between : Builder} (early : Writes first between) (call : Call) :
      Writes first (call.perform between)
  | enter {between : Builder} (early : Writes first between) (body : Body) :
      Writes first (body.enter between).1
  | leave {between : Builder} (early : Writes first between) (body : Body) (opened : Opened)
      (contents : List NodeId) : Writes first (body.leave opened contents between).1

theorem Writes.grows {first last : Builder} (writes : first.Writes last) : first.Grows last := by
  induction writes with
  | start => exact .refl _
  | call _ call ih => exact ih.trans (grows_perform _ call)
  | enter _ body ih => exact ih.trans (grows_enter _ body)
  | leave _ body opened contents ih => exact ih.trans (grows_leave _ body opened contents)

/-- The node `file` of the arena holds the text. The text leaves the greatest offset free, and no
handle and no place wraps around. -/
structure Finished (whole : Builder) (file : NodeId) : Prop where
  source : ∃ source, whole.arena.sourceFile? file = some source ∧ source.text = whole.text
  short : whole.text.utf8ByteSize < UInt32.size - 1
  fits : whole.arena.Fits

theorem finished_finish (last : Builder) (fileName : String) (statements : List NodeId)
    (short : last.text.utf8ByteSize < UInt32.size - 1)
    (fits : (last.finish fileName statements).1.Fits) :
    Finished ⟨(last.finish fileName statements).1, last.text⟩
      (last.finish fileName statements).2 := by
  have stored : (last.finish fileName statements).1.payload? (last.finish fileName statements).2 =
      some (.sourceFile ⟨fileName, last.text, statements⟩) := payload?_add rfl fits (.refl _)
  refine ⟨⟨⟨fileName, last.text, statements⟩, ?_, rfl⟩, short, fits⟩
  rw [sourceFile?, stored]

/-- The finished file has all that was written. -/
theorem grows_finish (last : Builder) (fileName : String) (statements : List NodeId) :
    last.Grows ⟨(last.finish fileName statements).1, last.text⟩ :=
  ⟨⟨"", String.append_empty.symm⟩,
    extends_apply (.addSourceFile ⟨fileName, last.text, statements⟩) last.arena⟩

section Finished

variable {whole first second : Builder} {file id : NodeId}

theorem Finished.toNat_offset (finished : whole.Finished file) (grown : first.Grows whole) :
    first.offset.toNat = first.text.utf8ByteSize := by
  have short := finished.short
  have less := grown.size_le
  exact Builder.toNat_offset (by omega)

/-- A node that reaches from one state of the builder to another covers what was written between
them. -/
theorem Finished.nodeText? (finished : whole.Finished file) {piece : String}
    (between : second.text = first.text ++ piece) (grown : second.Grows whole)
    (spans : whole.arena.Spans id first.offset second.offset) :
    whole.arena.nodeText? file id = some piece := by
  obtain ⟨source, atFile, all⟩ := finished.source
  obtain ⟨header, found, start, stop⟩ := spans
  obtain ⟨rest, behind⟩ := grown.text
  have short := finished.short
  have less := grown.size_le
  have size : second.text.utf8ByteSize = first.text.utf8ByteSize + piece.utf8ByteSize := by
    rw [between, String.utf8ByteSize_append]
  have starts : header.start.toNat = first.text.utf8ByteSize := by
    rw [start]
    exact Builder.toNat_offset (by omega)
  have stops : header.stop.toNat = second.text.utf8ByteSize := by
    rw [stop]
    exact Builder.toNat_offset (by omega)
  have parsed : header.isSynthesized = false := by
    rw [Header.isSynthesized, beq_eq_false_iff_ne]
    intro same
    rw [same] at starts
    have top : Header.noPosition.toNat = UInt32.size - 1 := rfl
    omega
  have slice : Text.slice? source.text header.start.toNat header.stop.toNat = some piece := by
    rw [Text.slice?_eq_some_iff]
    refine ⟨first.text, rest, ?_, starts.symm, ?_⟩
    · rw [all, behind, between]
    · rw [starts, stops, size]
  simp only [Arena.nodeText?, atFile, found, parsed, Option.bind_eq_bind, Option.bind_some,
    Bool.false_eq_true, if_false]
  exact slice

end Finished

/-! Where the nodes of names and values lie. -/

section Spans

variable (builder : Builder) {later : Arena} (fits : later.Fits)

include fits

theorem identifier_spans (name : String)
    (grown : (builder.identifier name).1.arena.Extends later) :
    later.Spans (builder.identifier name).2 builder.spaced.offset
      (builder.identifier name).1.offset :=
  spans_add fits grown

theorem keyword_spans (token : Token) (grown : (builder.keyword token).1.arena.Extends later) :
    later.Spans (builder.keyword token).2 builder.spaced.offset
      (builder.keyword token).1.offset :=
  spans_addToken fits grown

theorem number_spans (value : String) (grown : (builder.number value).1.arena.Extends later) :
    later.Spans (builder.number value).2 builder.spaced.offset (builder.number value).1.offset :=
  spans_add fits grown

theorem quoted_spans (value : String) (grown : (builder.quoted value).1.arena.Extends later) :
    later.Spans (builder.quoted value).2 builder.spaced.offset (builder.quoted value).1.offset :=
  spans_add fits grown

theorem memberName_spans (name : MemberName)
    (grown : (builder.memberName name).1.arena.Extends later) :
    later.Spans (builder.memberName name).2 builder.spaced.offset
      (builder.memberName name).1.offset := by
  cases name with
  | identifier text => exact builder.identifier_spans fits text grown
  | quoted text => exact builder.quoted_spans fits text grown
  | computed text => exact spans_add fits grown

end Spans

end Builder

end EnumStamp
