import EnumStamp.Proofs.Builder.Growth

/-!
Layout: where the nodes of a file lie. A run of a builder is a tree of calls, in which the handles
that a body is closed with come from calls made directly in it, in their order. Every node of the
run covers some text, its children lie inside it, and they lie one behind another. Main statements:
a step that adds a node (`Lays.node`), every kind of call (`lays_perform`), opening and closing
(`opens_enter`, `Opens.leave`), runs of any depth (`lays_run`), and files (`file_laidOut`).
-/

set_option autoImplicit false

namespace EnumStamp

open Arena

namespace Arena

/-- Nodes lie one behind another between two offsets. -/
inductive InRow (arena : Arena) : (start : Nat) → List NodeId → (stop : Nat) → Prop where
  | nil {start stop : Nat} (ordered : start ≤ stop) : InRow arena start [] stop
  | cons {start stop : Nat} {id : NodeId} {ids : List NodeId} {first last : UInt32}
      (spans : arena.Spans id first last) (behind : start ≤ first.toNat)
      (ordered : first.toNat ≤ last.toNat) (others : InRow arena last.toNat ids stop) :
      InRow arena start (id :: ids) stop

/-- The inner node lies inside the outer one. -/
def Within (arena : Arena) (inner outer : NodeId) : Prop :=
  ∃ start first last stop, arena.Spans outer start stop ∧ arena.Spans inner first last ∧
    start.toNat ≤ first.toNat ∧ first.toNat ≤ last.toNat ∧ last.toNat ≤ stop.toNat

/-- The other node starts behind the end of the one. -/
def Precedes (arena : Arena) (one other : NodeId) : Prop :=
  ∃ start stop first last, arena.Spans one start stop ∧ arena.Spans other first last ∧
    stop.toNat ≤ first.toNat

/-- The node covers some text of the file, and its children lie one behind another inside it. -/
structure Laid (arena : Arena) (file id : NodeId) : Prop where
  readable : ∃ text, arena.nodeText? file id = some text
  row : ∃ start stop, arena.Spans id start stop ∧
    arena.InRow start.toNat (arena.children id) stop.toNat

theorem Spans.isPresent {arena : Arena} {id : NodeId} {start stop : UInt32}
    (spans : arena.Spans id start stop) : id.isPresent = true := by
  obtain ⟨header, found, _⟩ := spans
  exact (has_iff.mp (has_of_header found)).1

namespace InRow

variable {arena : Arena} {start middle stop : Nat} {ids others : List NodeId}

theorem le (row : arena.InRow start ids stop) : start ≤ stop := by
  induction row with
  | nil ordered => exact ordered
  | cons _ behind ordered _ ih => omega

theorem append (row : arena.InRow start ids middle) (more : arena.InRow middle others stop) :
    arena.InRow start (ids ++ others) stop := by
  induction row with
  | nil ordered =>
    cases more with
    | nil further => exact .nil (Nat.le_trans ordered further)
    | cons spans behind fine rest => exact .cons spans (Nat.le_trans ordered behind) fine rest
  | cons spans behind ordered _ ih => exact .cons spans behind ordered (ih more)

theorem member (row : arena.InRow start ids stop) {id : NodeId} (among : id ∈ ids) :
    ∃ first last, arena.Spans id first last ∧ start ≤ first.toNat ∧ first.toNat ≤ last.toNat ∧
      last.toNat ≤ stop := by
  induction row with
  | nil => cases among
  | cons spans behind ordered rest ih =>
    rcases List.mem_cons.mp among with rfl | later
    · exact ⟨_, _, spans, behind, ordered, rest.le⟩
    · obtain ⟨first, last, found, lower, fine, upper⟩ := ih later
      exact ⟨first, last, found, by omega, fine, upper⟩

theorem pairwise (row : arena.InRow start ids stop) : ids.Pairwise arena.Precedes := by
  induction row with
  | nil => exact .nil
  | cons spans _ _ rest ih =>
    refine .cons (fun other among => ?_) ih
    obtain ⟨first, last, found, lower, _⟩ := rest.member among
    exact ⟨_, _, first, last, spans, found, lower⟩

theorem filter_eq (row : arena.InRow start ids stop) : ids.filter NodeId.isPresent = ids := by
  apply List.filter_eq_self.mpr
  intro id among
  obtain ⟨first, last, spans, _⟩ := row.member among
  exact spans.isPresent

end InRow

end Arena

namespace Builder

/-- The handle that a call answers with, if it does. -/
def Call.answers : Call → Builder → List NodeId
  | .identifier name, builder => [(builder.identifier name).2]
  | .keyword token, builder => [(builder.keyword token).2]
  | .number value, builder => [(builder.number value).2]
  | .quoted value, builder => [(builder.quoted value).2]
  | .enumDeclaration modifiers name members, builder =>
    [(builder.enumDeclaration modifiers name members).2]
  | .property name value, builder => [(builder.property name value).2]
  | .returnStatement value, builder => [(builder.returnStatement value).2]
  | .docComment comment, builder => [(builder.docComment comment).2]
  | .newline, _ => []

/-- A part of a run: a call, or a declaration with what is called while its body is open. Its handle
may be kept, for the body that it stands in to be closed with, or not. -/
inductive Part where
  | call (step : Call) (kept : Bool)
  | body (head : Body) (contents : List Part) (kept : Bool)

mutual

/-- The builder after a part of a run, and the handles that are kept. -/
def Part.write : Part → Builder → Builder × List NodeId
  | .call step kept, builder =>
    (step.perform builder, if kept then step.answers builder else [])
  | .body head contents kept, builder =>
    let (builder, opened) := head.enter builder
    let (builder, ids) := Part.writeAll contents builder
    let (builder, id) := head.leave opened ids builder
    (builder, if kept then [id] else [])

/-- The builder after the parts of a run one after another. -/
def Part.writeAll : List Part → Builder → Builder × List NodeId
  | [], builder => (builder, [])
  | part :: run, builder =>
    let (builder, ids) := part.write builder
    let (builder, others) := Part.writeAll run builder
    (builder, ids ++ others)

end

/-- The file that a run writes into an arena, with the nodes that were kept for its statements. -/
def Part.file (arena : Arena) (fileName : String) (run : List Part) : Arena × NodeId :=
  let (builder, statements) := Part.writeAll run (start arena)
  builder.finish fileName statements

/-- Between two states of a builder only nodes have been added that are laid out in the end, and
the handles that were answered lie one behind another in the text that was written. -/
structure Lays (whole : Builder) (file : NodeId) (first second : Builder) (ids : List NodeId) :
    Prop where
  grows : first.Grows second
  laid : ∀ id, whole.arena.Has id → first.arena.size ≤ id.position →
    id.position < second.arena.size → whole.arena.Laid file id
  row : whole.arena.InRow first.text.utf8ByteSize ids second.text.utf8ByteSize

namespace Lays

variable {whole first second third : Builder} {file : NodeId} {ids others : List NodeId}

/-- Text alone adds no nodes. -/
theorem of_text (grows : first.Grows second) (same : second.arena = first.arena) :
    Lays whole file first second [] := by
  refine ⟨grows, fun id _ lower upper => ?_, .nil grows.size_le⟩
  rw [same] at upper
  omega

theorem trans (early : Lays whole file first second ids)
    (late : Lays whole file second third others) :
    Lays whole file first third (ids ++ others) := by
  refine ⟨early.grows.trans late.grows, fun id has lower upper => ?_, early.row.append late.row⟩
  by_cases old : id.position < second.arena.size
  · exact early.laid id has lower old
  · exact late.laid id has (by omega) upper

theorem text (lays : Lays whole file first second ids) (grows : second.Grows third)
    (same : third.arena = second.arena) : Lays whole file first third ids :=
  List.append_nil ids ▸ lays.trans (of_text grows same)

theorem raw (builder : Builder) (piece : String) :
    Lays whole file builder (builder.writeRaw piece) [] :=
  of_text (builder.grows_writeRaw piece) rfl

theorem writeRaw (lays : Lays whole file first second ids) (piece : String) :
    Lays whole file first (second.writeRaw piece) ids :=
  lays.text (second.grows_writeRaw piece) (second.arena_writeRaw piece)

theorem write (lays : Lays whole file first second ids) (piece : String) :
    Lays whole file first (second.write piece).1 ids :=
  lays.text (second.grows_write piece) (second.arena_write piece)

theorem after_raw {piece : String} (lays : Lays whole file (first.writeRaw piece) second ids) :
    Lays whole file first second ids :=
  (raw first piece).trans lays

theorem after_spaced (lays : Lays whole file first.spaced second ids) :
    Lays whole file first second ids :=
  (of_text first.grows_spaced first.arena_spaced).trans lays

/-- What follows a piece lies behind the place where the piece starts. -/
theorem after_write {piece : String} (lays : Lays whole file (first.write piece).1 second ids) :
    Lays whole file first.spaced second ids :=
  (raw first.spaced piece).trans lays

/-- A handle may be used or not. -/
theorem keep (lays : Lays whole file first second ids) (kept : Bool) :
    Lays whole file first second (if kept then ids else []) := by
  cases kept with
  | true => exact lays
  | false => exact ⟨lays.grows, lays.laid, .nil lays.grows.size_le⟩

end Lays

section Lays

variable {whole : Builder} {file : NodeId} (finished : whole.Finished file)

include finished

/-- A new node that covers what was written between two states, and has what was answered between
them for its children, is laid out. -/
theorem Lays.add {first second third fourth : Builder} {ids : List NodeId} {id : NodeId}
    (lays : Lays whole file first second ids) (more : second.Grows third)
    (same : third.arena = second.arena) (grows : third.Grows fourth) (grown : fourth.Grows whole)
    (size : fourth.arena.size = third.arena.size + 1) (new : id = .ofPosition third.arena.size)
    (spans : whole.arena.Spans id first.offset second.offset)
    (children : whole.arena.children id = ids) : Lays whole file first fourth [id] := by
  have ends : second.Grows whole := more.trans (grows.trans grown)
  have starts := finished.toNat_offset (lays.grows.trans ends)
  have stops := finished.toNat_offset ends
  refine ⟨lays.grows.trans (more.trans grows), fun other has lower upper => ?_, ?_⟩
  · by_cases old : other.position < second.arena.size
    · exact lays.laid other has lower old
    · -- One node has been added, so a node that was not there before is this one.
      have last : other = id := by
        rw [new, ← NodeId.ofPosition_position other]
        congr 1
        rw [size, same] at upper
        rw [same]
        omega
      obtain ⟨rest, between⟩ := lays.grows.text
      subst last
      refine ⟨⟨rest, finished.nodeText? between ends spans⟩, _, _, spans, ?_⟩
      rw [children, starts, stops]
      exact lays.row
  · refine .cons spans (Nat.le_of_eq starts.symm) ?_ (.nil ?_)
    · rw [starts, stops]
      exact lays.grows.size_le
    · rw [stops]
      exact (more.trans grows).size_le

/-- A node with a payload. -/
theorem Lays.node {first second third : Builder} {ids : List NodeId}
    (lays : Lays whole file first second ids) (more : second.Grows third)
    (same : third.arena = second.arena) {kind : Kind} {start stop : UInt32} {payload : Payload}
    (suits : kind.category = payload.category) (starts : start = first.offset)
    (stops : stop = second.offset) (children : payload.children = ids)
    (grown : (third.node (·.add kind start stop payload)).1.Grows whole) :
    Lays whole file first (third.node (·.add kind start stop payload)).1
      [(third.node (·.add kind start stop payload)).2] := by
  have grows : third.Grows (third.node (·.add kind start stop payload)).1 :=
    ⟨⟨"", String.append_empty.symm⟩, extends_appendWith _ _ _ _⟩
  have stored : whole.arena.payload? (third.node (·.add kind start stop payload)).2 =
      some payload := payload?_add suits finished.fits grown.arena
  have spans : whole.arena.Spans (third.node (·.add kind start stop payload)).2 first.offset
      second.offset := starts ▸ stops ▸ spans_add finished.fits grown.arena
  refine lays.add finished more same grows grown (size_appendWith ..) ?_ spans ?_
  · exact congrArg NodeId.ofPosition (size_store _ _)
  · rw [Arena.children, stored]
    exact children

theorem lays_identifier (builder : Builder) (name : String)
    (grown : (builder.identifier name).1.Grows whole) :
    Lays whole file builder.spaced (builder.identifier name).1 [(builder.identifier name).2] :=
  Lays.node finished (.raw builder.spaced name) (.refl _) rfl rfl rfl rfl rfl grown

theorem lays_number (builder : Builder) (value : String)
    (grown : (builder.number value).1.Grows whole) :
    Lays whole file builder.spaced (builder.number value).1 [(builder.number value).2] :=
  Lays.node finished (.raw builder.spaced value) (.refl _) rfl rfl rfl rfl rfl grown

theorem lays_quoted (builder : Builder) (value : String)
    (grown : (builder.quoted value).1.Grows whole) :
    Lays whole file builder.spaced (builder.quoted value).1 [(builder.quoted value).2] :=
  Lays.node finished (.raw builder.spaced _) (.refl _) rfl rfl rfl rfl rfl grown

theorem lays_keyword (builder : Builder) (token : Token)
    (grown : (builder.keyword token).1.Grows whole) :
    Lays whole file builder.spaced (builder.keyword token).1 [(builder.keyword token).2] := by
  let written := builder.spaced.writeRaw token.keyword
  have grows : written.Grows (builder.keyword token).1 :=
    written.grows_node (.addToken token.kind builder.spaced.offset written.offset)
  have text : Lays whole file builder.spaced written [] := .raw builder.spaced token.keyword
  exact text.add finished (.refl _) rfl grows grown (size_append ..) rfl
    (builder.keyword_spans finished.fits token grown.arena)
    (children_addToken finished.fits grown.arena)

theorem lays_keywords (builder : Builder) (tokens : List Token)
    (grown : (builder.keywords tokens).1.Grows whole) :
    Lays whole file builder (builder.keywords tokens).1 (builder.keywords tokens).2 := by
  induction tokens generalizing builder with
  | nil => exact .of_text (.refl _) rfl
  | cons token tokens ih =>
    have more := (grows_keywords _ tokens).trans grown
    have first := (lays_keyword finished builder token more).after_spaced
    exact first.trans (ih _ grown)

theorem lays_modifierList (builder : Builder) (tokens : List Token)
    (grown : (builder.modifierList tokens).1.Grows whole) :
    Lays whole file builder (builder.modifierList tokens).1
      ((builder.modifierList tokens).2.getD []) := by
  cases tokens with
  | nil => exact .of_text (.refl _) rfl
  | cons token tokens => exact lays_keywords finished builder (token :: tokens) grown

theorem lays_memberName (builder : Builder) (name : MemberName)
    (grown : (builder.memberName name).1.Grows whole) :
    Lays whole file builder.spaced (builder.memberName name).1 [(builder.memberName name).2] := by
  cases name with
  | identifier text => exact lays_identifier finished builder text grown
  | quoted text => exact lays_quoted finished builder text grown
  | computed text =>
    let opened := (builder.write "[").1
    let inside := opened.writeRaw text
    let expression := inside.node (·.addIdentifier text opened.offset inside.offset)
    let closed := expression.1.writeRaw "]"
    have more : closed.Grows whole := (closed.grows_node
      (.addComputedName builder.spaced.offset closed.offset expression.2)).trans grown
    have early : expression.1.Grows whole := (expression.1.grows_writeRaw "]").trans more
    have named : Lays whole file opened expression.1 [expression.2] :=
      Lays.node finished (.raw opened text) (.refl _) rfl rfl rfl rfl rfl early
    have brackets : Lays whole file builder.spaced closed [expression.2] :=
      named.after_write.writeRaw "]"
    exact brackets.node finished (.refl _) rfl rfl rfl rfl brackets.row.filter_eq grown

/-- A value is answered as a node, or as the absent one, which lies nowhere. -/
theorem lays_memberValue (builder : Builder) (value : MemberValue)
    (grown : (builder.memberValue value).1.Grows whole) :
    Lays whole file builder (builder.memberValue value).1
      ([(builder.memberValue value).2].filter NodeId.isPresent) := by
  cases value with
  | none => exact .of_text (.refl _) rfl
  | number number =>
    have lays := (lays_number finished (builder.write "=").1 number grown).after_spaced
    have lays := lays.after_write.after_spaced
    exact lays.row.filter_eq.symm ▸ lays
  | quoted quoted =>
    have lays := (lays_quoted finished (builder.write "=").1 quoted grown).after_spaced
    have lays := lays.after_write.after_spaced
    exact lays.row.filter_eq.symm ▸ lays

theorem lays_member (builder : Builder) (outline : MemberOutline)
    (grown : (builder.member outline).1.Grows whole) :
    Lays whole file builder.spaced (builder.member outline).1 [(builder.member outline).2] := by
  let named := builder.memberName outline.name
  let valued := named.1.memberValue outline.value
  let start := ((named.1.arena.header? named.2).map Header.start).getD named.1.offset
  have more : valued.1.Grows whole :=
    (valued.1.grows_node (.addEnumMember start valued.1.offset ⟨named.2, valued.2⟩)).trans grown
  have early : named.1.Grows whole := (named.1.grows_memberValue outline.value).trans more
  have starts : start = builder.spaced.offset := Spans.start_eq
    (builder.memberName_spans (finished.fits.of_extends early.arena) outline.name (.refl _)) _
  have name := lays_memberName finished builder outline.name early
  have parts := name.trans (lays_memberValue finished named.1 outline.value more)
  have children : (Payload.enumMember ⟨named.2, valued.2⟩).children =
      [named.2] ++ [valued.2].filter NodeId.isPresent := by
    rw [← name.row.filter_eq, ← List.filter_append]
    rfl
  exact parts.node finished (.refl _) rfl rfl starts rfl children grown

theorem lays_furtherMembers (builder : Builder) (outlines : List MemberOutline)
    (grown : (builder.furtherMembers outlines).1.Grows whole) :
    Lays whole file builder (builder.furtherMembers outlines).1
      (builder.furtherMembers outlines).2 := by
  induction outlines generalizing builder with
  | nil => exact .of_text (.refl _) rfl
  | cons outline outlines ih =>
    have more := (grows_furtherMembers _ outlines).trans grown
    have first := (lays_member finished (builder.writeRaw ",") outline more).after_spaced
    exact first.after_raw.trans (ih _ grown)

theorem lays_members (builder : Builder) (outlines : List MemberOutline)
    (grown : (builder.members outlines).1.Grows whole) :
    Lays whole file builder (builder.members outlines).1 (builder.members outlines).2 := by
  cases outlines with
  | nil => exact .of_text (.refl _) rfl
  | cons outline outlines =>
    have more := (grows_furtherMembers _ outlines).trans grown
    exact (lays_member finished builder outline more).after_spaced.trans
      (lays_furtherMembers finished _ outlines grown)

theorem lays_enumDeclaration (builder : Builder) (modifiers : List Token) (name : String)
    (members : List MemberOutline)
    (grown : (builder.enumDeclaration modifiers name members).1.Grows whole) :
    Lays whole file builder.spaced (builder.enumDeclaration modifiers name members).1
      [(builder.enumDeclaration modifiers name members).2] := by
  let opening := builder.write ""
  let list := opening.1.modifierList modifiers
  let keyword := (list.1.write "enum").1
  let named := keyword.identifier name
  let brace := (named.1.write "\x7b").1
  let filled := brace.members members
  let closed := (filled.1.write "\x7d").1
  have byClosed : closed.Grows whole := (closed.grows_node
    (.addEnum opening.2.start closed.offset ⟨list.2, named.2, filled.2⟩)).trans grown
  have byFilled : filled.1.Grows whole := (filled.1.grows_write "\x7d").trans byClosed
  have byNamed : named.1.Grows whole := ((named.1.grows_write "\x7b").trans
    (brace.grows_members members)).trans byFilled
  have byList : list.1.Grows whole := ((list.1.grows_write "enum").trans
    (keyword.grows_identifier name)).trans byNamed
  have listed : Lays whole file builder.spaced keyword (list.2.getD []) :=
    (lays_modifierList finished opening.1 modifiers byList).after_write.write "enum"
  have head : Lays whole file builder.spaced brace (list.2.getD [] ++ [named.2]) :=
    (listed.trans (lays_identifier finished keyword name byNamed).after_spaced).write "\x7b"
  have parts : Lays whole file builder.spaced closed (list.2.getD [] ++ named.2 :: filled.2) := by
    have all := (head.trans (lays_members finished brace members byFilled)).write "\x7d"
    rw [List.append_assoc] at all
    exact all
  exact parts.node finished (.refl _) rfl rfl rfl rfl parts.row.filter_eq grown

theorem lays_property (builder : Builder) (name value : String)
    (grown : (builder.property name value).1.Grows whole) :
    Lays whole file builder.spaced (builder.property name value).1
      [(builder.property name value).2] := by
  let named := builder.identifier name
  let start := ((named.1.arena.header? named.2).map Header.start).getD 0
  let equals := (named.1.write "=").1
  let valued := equals.number value
  let ended := valued.1.writeRaw ";"
  have more : ended.newline.Grows whole := (ended.newline.grows_node (.addComposite
    Construct.propertyDeclaration.kind start ended.offset [named.2, valued.2])).trans grown
  have byValued : valued.1.Grows whole :=
    ((valued.1.grows_writeRaw ";").trans ended.grows_newline).trans more
  have byNamed : named.1.Grows whole := ((named.1.grows_write "=").trans
    (equals.grows_number value)).trans byValued
  have starts : start = builder.spaced.offset := Spans.start_eq
    (builder.identifier_spans (finished.fits.of_extends byNamed.arena) name (.refl _)) _
  have left : Lays whole file builder.spaced equals [named.2] :=
    (lays_identifier finished builder name byNamed).write "="
  have parts : Lays whole file builder.spaced ended [named.2, valued.2] :=
    (left.trans (lays_number finished equals value byValued).after_spaced).writeRaw ";"
  exact parts.node finished ended.grows_newline ended.arena_newline rfl starts rfl
    parts.row.filter_eq grown

theorem lays_returnStatement (builder : Builder) (value : String)
    (grown : (builder.returnStatement value).1.Grows whole) :
    Lays whole file builder.spaced (builder.returnStatement value).1
      [(builder.returnStatement value).2] := by
  let keyword := (builder.write "return").1
  let valued := keyword.number value
  let ended := valued.1.writeRaw ";"
  have more : ended.newline.Grows whole := (ended.newline.grows_node (.addComposite
    Construct.returnStatement.kind builder.spaced.offset ended.offset [valued.2])).trans grown
  have byValued : valued.1.Grows whole :=
    ((valued.1.grows_writeRaw ";").trans ended.grows_newline).trans more
  have parts : Lays whole file builder.spaced ended [valued.2] :=
    (lays_number finished keyword value byValued).after_spaced.after_write.writeRaw ";"
  exact parts.node finished ended.grows_newline ended.arena_newline rfl rfl rfl
    parts.row.filter_eq grown

theorem lays_docComment (builder : Builder) (comment : String)
    (grown : (builder.docComment comment).1.Grows whole) :
    Lays whole file builder.spaced (builder.docComment comment).1
      [(builder.docComment comment).2] :=
  Lays.node finished (.raw builder.spaced _) (grows_newline _) (arena_newline _) rfl rfl
    rfl rfl grown

theorem lays_perform (builder : Builder) (call : Call)
    (grown : (call.perform builder).Grows whole) :
    Lays whole file builder (call.perform builder) (call.answers builder) := by
  cases call with
  | identifier name => exact (lays_identifier finished builder name grown).after_spaced
  | keyword token => exact (lays_keyword finished builder token grown).after_spaced
  | number value => exact (lays_number finished builder value grown).after_spaced
  | quoted value => exact (lays_quoted finished builder value grown).after_spaced
  | enumDeclaration modifiers name members =>
    exact (lays_enumDeclaration finished builder modifiers name members grown).after_spaced
  | property name value => exact (lays_property finished builder name value grown).after_spaced
  | returnStatement value =>
    exact (lays_returnStatement finished builder value grown).after_spaced
  | docComment comment => exact (lays_docComment finished builder comment grown).after_spaced
  | newline => exact .raw builder "\n"

end Lays

/-- The handles of the head of a declaration; only a namespace has modifiers. -/
def Body.heads : Body → Opened → List NodeId
  | .ofNamespace _ _, opened => opened.modifiers.getD [] ++ [opened.name]
  | _, opened => [opened.name]

/-- Between two states of a builder a declaration has been opened: its head lies between its start
and the place where its block is to start, which is within the text. -/
def Opens (whole : Builder) (file : NodeId) (body : Body) (first second : Builder)
    (opened : Opened) : Prop :=
  ∃ begun inside, Lays whole file first begun [] ∧ opened.start = begun.offset ∧
    Lays whole file begun inside (body.heads opened) ∧ opened.blockStart = inside.offset ∧
      Lays whole file inside second []

/-- One character behind a head there still is a place of the text: what separates the head from the
brace, or the brace. -/
theorem exists_inside (builder : Builder) :
    ∃ inside, inside.arena = builder.arena ∧ builder.Grows inside ∧
      inside.Grows builder.openBody ∧ builder.offset + 1 = inside.offset := by
  have next {piece : String} (byte : piece.utf8ByteSize = 1) :
      builder.offset + 1 = (builder.writeRaw piece).offset :=
    (builder.offset_writeRaw_of_byte byte).symm
  by_cases solid : builder.needsSpace = true
  · have spaced : builder.spaced = builder.writeRaw " " := if_pos solid
    refine ⟨builder.writeRaw " ", rfl, builder.grows_writeRaw " ", ?_, next rfl⟩
    rw [← spaced]
    exact (grows_writeRaw _ "\x7b").trans (grows_newline _)
  · have spaced : builder.spaced = builder := if_neg solid
    refine ⟨builder.writeRaw "\x7b", rfl, builder.grows_writeRaw "\x7b", ?_, next rfl⟩
    have same : builder.writeRaw "\x7b" = (builder.write "\x7b").1 := by
      rw [write_eq, spaced]
    rw [same]
    exact grows_newline _

section Bodies

variable {whole : Builder} {file : NodeId} (finished : whole.Finished file)

include finished

theorem opens_enter (builder : Builder) (body : Body)
    (grown : (body.enter builder).1.Grows whole) :
    Opens whole file body builder (body.enter builder).1 (body.enter builder).2 := by
  have before : Lays whole file builder builder.spaced [] :=
    .of_text builder.grows_spaced builder.arena_spaced
  cases body with
  | ofFunction name =>
    let keyword := (builder.write "function").1
    let named := (keyword.identifier name).1
    let parens := named.writeRaw "()"
    have byNamed : named.Grows whole :=
      ((named.grows_writeRaw "()").trans parens.grows_openBody).trans grown
    obtain ⟨inside, same, behind, upTo, place⟩ := parens.exists_inside
    have head := (lays_identifier finished keyword name byNamed).after_spaced.after_write
    refine ⟨builder.spaced, inside, before, rfl, (head.writeRaw "()").text behind same, place, ?_⟩
    exact .of_text upTo ((arena_openBody _).trans same.symm)
  | ofClass name =>
    let keyword := (builder.write "class").1
    let named := (keyword.identifier name).1
    have byNamed : named.Grows whole := named.grows_openBody.trans grown
    have head := (lays_identifier finished keyword name byNamed).after_spaced.after_write
    exact ⟨builder.spaced, named, before, rfl, head, rfl,
      .of_text named.grows_openBody (arena_openBody _)⟩
  | ofNamespace modifiers name =>
    let list := (builder.write "").1.modifierList modifiers
    let keyword := (list.1.write "namespace").1
    let named := (keyword.identifier name).1
    have byNamed : named.Grows whole := named.grows_openBody.trans grown
    have byList : list.1.Grows whole :=
      ((list.1.grows_write "namespace").trans (keyword.grows_identifier name)).trans byNamed
    obtain ⟨inside, same, behind, upTo, place⟩ := named.exists_inside
    have listed : Lays whole file builder.spaced keyword (list.2.getD []) :=
      (lays_modifierList finished _ modifiers byList).after_write.write "namespace"
    have head := listed.trans (lays_identifier finished keyword name byNamed).after_spaced
    refine ⟨builder.spaced, inside, before, rfl, head.text behind same, place, ?_⟩
    exact .of_text upTo ((arena_openBody _).trans same.symm)

/-- A body that is closed with nodes that lie in it belongs to a declaration that is laid out. -/
theorem Opens.leave {first second third : Builder} {body : Body} {opened : Opened}
    {contents : List NodeId} (opens : Opens whole file body first second opened)
    (lays : Lays whole file second third contents)
    (grown : (body.leave opened contents third).1.Grows whole) :
    Lays whole file first (body.leave opened contents third).1
      [(body.leave opened contents third).2] := by
  obtain ⟨begun, inside, before, start, head, blockStart, behind⟩ := opens
  let closed := third.closeBody
  have filled : Lays whole file inside closed contents :=
    (behind.trans lays).text third.grows_closeBody third.arena_closeBody
  cases body with
  | ofFunction =>
    let block := closed.node
      (·.add Construct.block.kind opened.blockStart closed.offset (.composite contents))
    have byBlock : block.1.Grows whole := (block.1.grows_node
      (.addComposite Construct.functionDeclaration.kind opened.start closed.offset
        [opened.name, block.2])).trans grown
    have blocks : Lays whole file inside block.1 [block.2] :=
      filled.node finished (.refl _) rfl rfl blockStart rfl filled.row.filter_eq byBlock
    have parts : Lays whole file begun block.1 [opened.name, block.2] := head.trans blocks
    exact before.trans (parts.node finished (.refl _) rfl rfl start rfl parts.row.filter_eq grown)
  | ofClass =>
    have parts : Lays whole file begun closed (opened.name :: contents) := head.trans filled
    exact before.trans (parts.node finished (.refl _) rfl rfl start rfl parts.row.filter_eq grown)
  | ofNamespace =>
    let block := closed.node
      (·.add Construct.moduleBlock.kind opened.blockStart closed.offset (.composite contents))
    have byBlock : block.1.Grows whole := (block.1.grows_node
      (.addModule opened.start closed.offset ⟨opened.modifiers, opened.name, block.2⟩)).trans grown
    have blocks : Lays whole file inside block.1 [block.2] :=
      filled.node finished (.refl _) rfl rfl blockStart rfl filled.row.filter_eq byBlock
    have parts : Lays whole file begun block.1
        (opened.modifiers.getD [] ++ [opened.name, block.2]) := by
      have all := head.trans blocks
      rw [Body.heads, List.append_assoc] at all
      exact all
    exact before.trans (parts.node finished (.refl _) rfl rfl start rfl parts.row.filter_eq grown)

end Bodies

mutual

theorem grows_part (builder : Builder) (part : Part) :
    builder.Grows (part.write builder).1 := by
  match part with
  | .call step kept => exact builder.grows_perform step
  | .body head contents kept =>
    exact ((builder.grows_enter head).trans (grows_run _ contents)).trans
      (grows_leave _ head _ _)

theorem grows_run (builder : Builder) (run : List Part) :
    builder.Grows (Part.writeAll run builder).1 := by
  match run with
  | [] => exact .refl _
  | part :: run => exact (builder.grows_part part).trans (grows_run _ run)

end

mutual

theorem lays_part {whole : Builder} {file : NodeId} (finished : whole.Finished file)
    (builder : Builder) (part : Part) (grown : (part.write builder).1.Grows whole) :
    Lays whole file builder (part.write builder).1 (part.write builder).2 := by
  match part with
  | .call step kept => exact (lays_perform finished builder step grown).keep kept
  | .body head contents kept =>
    let entered := head.enter builder
    let filled := Part.writeAll contents entered.1
    have byFilled : filled.1.Grows whole :=
      (filled.1.grows_leave head entered.2 filled.2).trans grown
    have byEntered : entered.1.Grows whole := (entered.1.grows_run contents).trans byFilled
    -- The contents are written before the node of the declaration is there, which takes them in.
    have opens := opens_enter finished builder head byEntered
    have inside := lays_run finished entered.1 contents byFilled
    exact (opens.leave finished inside grown).keep kept

/-- Whatever is called, to any depth, the nodes of it are laid out and the handles that are kept lie
one behind another. -/
theorem lays_run {whole : Builder} {file : NodeId} (finished : whole.Finished file)
    (builder : Builder) (run : List Part)
    (grown : (Part.writeAll run builder).1.Grows whole) :
    Lays whole file builder (Part.writeAll run builder).1
      (Part.writeAll run builder).2 := by
  match run with
  | [] => exact .of_text (.refl _) rfl
  | part :: run =>
    have more := (grows_run _ run).trans grown
    exact (lays_part finished builder part more).trans (lays_run finished _ run grown)

end

/-- The root covers the whole text. -/
theorem lays_finish {first last : Builder} {statements : List NodeId} (fileName : String)
    (empty : first.text = "")
    (short : last.text.utf8ByteSize < UInt32.size - 1)
    (fits : (last.finish fileName statements).1.Fits)
    (lays : Lays ⟨(last.finish fileName statements).1, last.text⟩
      (last.finish fileName statements).2 first last statements) :
    Lays ⟨(last.finish fileName statements).1, last.text⟩ (last.finish fileName statements).2
      first ⟨(last.finish fileName statements).1, last.text⟩
      [(last.finish fileName statements).2] := by
  have finished := last.finished_finish fileName statements short fits
  have start : 0 = first.offset := by
    rw [offset, empty]
    rfl
  have inside : last.text.utf8ByteSize < UInt32.size := by omega
  have stop : UInt32.ofNat (if last.text.utf8ByteSize < UInt32.size then last.text.utf8ByteSize
      else lastOffset) = last.offset := by
    rw [if_pos inside, offset]
  exact lays.node finished (.refl _) rfl rfl start stop lays.row.filter_eq (.refl _)

/-- A file is written into any arena by any calls, to any depth and with any texts, and each body
and the file itself are closed with some of the nodes that were made directly in them, in their
order. If the text is not too long, every new node covers some text of it, its children lie inside
it, and they lie one behind another. -/
theorem file_laidOut (arena : Arena) (fileName : String) (run : List Part)
    (short : (Part.writeAll run (start arena)).1.text.utf8ByteSize < UInt32.size - 1)
    (fits : (Part.file arena fileName run).1.Fits) {id : NodeId}
    (has : (Part.file arena fileName run).1.Has id) (new : arena.size ≤ id.position) :
    (∃ text, (Part.file arena fileName run).1.nodeText?
        (Part.file arena fileName run).2 id = some text) ∧
      (∀ child ∈ (Part.file arena fileName run).1.children id,
        (Part.file arena fileName run).1.Within child id) ∧
      ((Part.file arena fileName run).1.children id).Pairwise
        (Part.file arena fileName run).1.Precedes := by
  let written := Part.writeAll run (start arena)
  have whole := written.1.finished_finish fileName written.2 short fits
  have lays := lays_finish fileName rfl short fits (lays_run whole (start arena) run
    (written.1.grows_finish fileName written.2))
  obtain ⟨readable, start, stop, spans, row⟩ := lays.laid id has new (has_iff.mp has).2
  refine ⟨readable, fun child among => ?_, row.pairwise⟩
  obtain ⟨first, last, found, lower, fine, upper⟩ := row.member among
  exact ⟨start, first, last, stop, spans, found, lower, fine, upper⟩

/-- A comment, and a namespace without a name whose body has a dropped keyword without text, a
function, and an enum behind it. -/
def nested : List Part :=
  [.call (.docComment "é") true,
    .body (.ofNamespace [.exportKeyword] "")
      [.call (.keyword .identifier) false,
        .body (.ofFunction "ƒ") [.call (.returnStatement "0") true] true,
        .call .newline true,
        .call (.enumDeclaration [] "E" [⟨.computed "", .quoted "ü"⟩, ⟨.quoted "", .none⟩]) true]
      true]

/-- The arena has seven nodes already. The block of the namespace starts behind its brace, because
the empty name left a space there, and the function and the enum lie in it. -/
theorem file_laidOut_nested :
    (Part.writeAll nested (start .colors)).1.text.utf8ByteSize = 83 ∧
      (Part.file .colors "é.ts" nested).1.Fits ∧
      (Part.file .colors "é.ts" nested).1.Has (.ofPosition 24) ∧
      Arena.colors.size ≤ (NodeId.ofPosition 24).position ∧
      (Part.file .colors "é.ts" nested).1.children (.ofPosition 24) =
        [.ofPosition 15, .ofPosition 23] ∧
      (∃ text, (Part.file .colors "é.ts" nested).1.nodeText?
        (Part.file .colors "é.ts" nested).2 (.ofPosition 24) = some text) ∧
      (Part.file .colors "é.ts" nested).1.Within (.ofPosition 23) (.ofPosition 24) ∧
      (Part.file .colors "é.ts" nested).1.Precedes (.ofPosition 15) (.ofPosition 23) := by
  have size : (Part.writeAll nested (start .colors)).1.text.utf8ByteSize = 83 := by
    decide +kernel
  have short : (Part.writeAll nested (start .colors)).1.text.utf8ByteSize < UInt32.size - 1 := by
    rw [size]
    decide
  have fits : (Part.file .colors "é.ts" nested).1.Fits := by decide +kernel
  have has : (Part.file .colors "é.ts" nested).1.Has (.ofPosition 24) := by
    unfold Has
    decide +kernel
  have new : Arena.colors.size ≤ (NodeId.ofPosition 24).position := by decide
  have children : (Part.file .colors "é.ts" nested).1.children (.ofPosition 24) =
      [.ofPosition 15, .ofPosition 23] := by decide +kernel
  obtain ⟨readable, inside, ordered⟩ := file_laidOut .colors "é.ts" nested short fits has new
  rw [children] at inside ordered
  refine ⟨size, fits, has, new, children, readable, ?_, ?_⟩
  · exact inside _ (List.mem_cons_of_mem _ (List.mem_singleton_self _))
  · exact List.rel_of_pairwise_cons ordered (List.mem_singleton_self _)

end Builder

end EnumStamp
