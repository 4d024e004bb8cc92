import EnumStamp.Proofs.Builder.Growth

set_option autoImplicit false

namespace EnumStamp

open Arena

/-- The texts of the modifier keywords, each with a space behind it. -/
def keywordsText (tokens : List Token) : String :=
  String.join (((tokens.map Token.keyword).filter (· ≠ "")).map (· ++ " "))

def MemberName.text : MemberName → String
  | .identifier text => text
  | .quoted text => "\"" ++ text ++ "\""
  | .computed text => "[" ++ text ++ "]"

def MemberValue.text? : MemberValue → Option String
  | .none => Option.none
  | .number text => some text
  | .quoted text => some ("\"" ++ text ++ "\"")

def MemberOutline.text (outline : MemberOutline) : String :=
  match outline.value.text? with
  | none => outline.name.text
  | some value => outline.name.text ++ " = " ++ value

/-- What stands between the braces of a declaration. -/
def membersText : List MemberOutline → String
  | [] => " "
  | outline :: outlines =>
    " " ++ ", ".intercalate ((outline :: outlines).map MemberOutline.text) ++ " "

def enumText (modifiers : List Token) (name : String) (members : List MemberOutline) : String :=
  keywordsText modifiers ++ "enum " ++ name ++ " \x7b" ++ membersText members ++ "\x7d"

/-- Whether a name that is written without quotes or brackets sets itself off from what follows. -/
def MemberName.isSolid : MemberName → Bool
  | .identifier text => Builder.isSolid text
  | _ => true

def MemberValue.isSolid : MemberValue → Bool
  | .number text => Builder.isSolid text
  | _ => true

def MemberOutline.isSolid (outline : MemberOutline) : Bool :=
  outline.name.isSolid && outline.value.isSolid

namespace Arena

/-- The node covers the piece, and starts where the text before it ends. -/
structure Covers (arena : Arena) (file id : NodeId) (before piece : String) : Prop where
  text : arena.nodeText? file id = some piece
  place : ∃ header, arena.header? id = some header ∧ header.start.toNat = before.utf8ByteSize

inductive KeywordsCover (arena : Arena) (file : NodeId) :
    (before : String) → List Token → List NodeId → Prop where
  | nil {before : String} : KeywordsCover arena file before [] []
  | cons {before : String} {token : Token} {tokens : List Token} {id : NodeId} {ids : List NodeId}
      (here : arena.Covers file id before token.keyword)
      (others : KeywordsCover arena file (before ++ keywordsText [token]) tokens ids) :
      KeywordsCover arena file before (token :: tokens) (id :: ids)

/-- A node is a member with its name and its value, or with no initializer, and each of the nodes
covers its own text. -/
structure MemberCovers (arena : Arena) (file id : NodeId) (before : String)
    (outline : MemberOutline) : Prop where
  whole : arena.Covers file id before outline.text
  parts : ∃ member, arena.enumMember? id = some member ∧
    arena.Covers file member.name before outline.name.text ∧
    match outline.value.text? with
    | none => member.initializer = .absent
    | some value =>
      arena.Covers file member.initializer (before ++ outline.name.text ++ " = ") value

/-- Nodes are members and cover their texts, with commas between them. -/
inductive MembersCover (arena : Arena) (file : NodeId) :
    (before : String) → List MemberOutline → List NodeId → Prop where
  | nil {before : String} : MembersCover arena file before [] []
  | cons {before : String} {outline : MemberOutline} {outlines : List MemberOutline} {id : NodeId}
      {ids : List NodeId} (here : arena.MemberCovers file id before outline)
      (others : MembersCover arena file (before ++ outline.text ++ ", ") outlines ids) :
      MembersCover arena file before (outline :: outlines) (id :: ids)

theorem MembersCover.nodeTexts {arena : Arena} {file : NodeId} {before : String}
    {outlines : List MemberOutline} {ids : List NodeId}
    (covers : arena.MembersCover file before outlines ids) :
    ids.map (arena.nodeText? file) = outlines.map fun outline => some outline.text := by
  induction covers with
  | nil => rfl
  | cons here _ ih => rw [List.map_cons, List.map_cons, here.whole.text, ih]

/-- A node is an enum declaration, and all nodes of the declaration cover their own texts. -/
structure EnumCovers (arena : Arena) (file id : NodeId) (before : String) (modifiers : List Token)
    (name : String) (members : List MemberOutline) : Prop where
  whole : arena.Covers file id before (enumText modifiers name members)
  parts : ∃ decl, arena.enumDecl? id = some decl ∧
    arena.KeywordsCover file before modifiers (decl.modifiers.getD []) ∧
    arena.Covers file decl.name (before ++ keywordsText modifiers ++ "enum ") name ∧
    arena.MembersCover file (before ++ keywordsText modifiers ++ "enum " ++ name ++ " \x7b ")
      members decl.members

end Arena

/-! What the calls write. -/

theorem keywordsText_cons (token : Token) (tokens : List Token) :
    keywordsText (token :: tokens) = keywordsText [token] ++ keywordsText tokens := by
  simp only [keywordsText]
  rw [← String.join_append, ← List.map_append, ← List.filter_append, ← List.map_append]
  rfl

theorem keywordsText_singleton (token : Token) :
    keywordsText [token] = if token.keyword = "" then "" else token.keyword ++ " " := by
  by_cases empty : token.keyword = ""
  · simp [keywordsText, empty]
  · simp [keywordsText, empty]

namespace Builder

theorem isSolid_keyword {token : Token} (some_ : token.keyword ≠ "") :
    isSolid token.keyword = true := by
  unfold Token.keyword at some_ ⊢
  cases isModifier : token.modifier? with
  | none =>
    rw [isModifier] at some_
    exact absurd rfl some_
  | some modifier => cases modifier <;> decide +kernel

theorem text_keyword (builder : Builder) (token : Token) :
    (builder.keyword token).1.text = settled builder.text ++ token.keyword :=
  builder.text_write token.keyword

theorem text_identifier (builder : Builder) (name : String) :
    (builder.identifier name).1.text = settled builder.text ++ name :=
  builder.text_write name

theorem text_number (builder : Builder) (value : String) :
    (builder.number value).1.text = settled builder.text ++ value :=
  builder.text_write value

theorem text_quoted (builder : Builder) (value : String) :
    (builder.quoted value).1.text = settled builder.text ++ ("\"" ++ value ++ "\"") :=
  builder.text_write _

/-- What follows a piece that sets itself off goes behind one space. -/
theorem settled_write (builder : Builder) {piece : String} (solid : isSolid piece = true) :
    settled (builder.write piece).1.text = settled builder.text ++ piece ++ " " := by
  rw [text_write, settled_append solid]

theorem settled_equals (builder : Builder) :
    settled (builder.write "=").1.text = settled builder.text ++ "= " := by
  rw [builder.settled_write (by decide +kernel), String.append_assoc]
  rfl

/-- What follows a keyword goes behind one space, and a token without text leaves no trace. -/
theorem settled_keyword (text : String) (token : Token) :
    settled (settled text ++ token.keyword) = settled text ++ keywordsText [token] := by
  rw [keywordsText_singleton]
  split
  · rename_i empty
    rw [empty, String.append_empty, settled_settled]
  · rename_i some_
    rw [settled_append (isSolid_keyword some_), String.append_assoc]

theorem settled_keywords (builder : Builder) (tokens : List Token) :
    settled (builder.keywords tokens).1.text = settled builder.text ++ keywordsText tokens := by
  induction tokens generalizing builder with
  | nil => exact String.append_empty.symm
  | cons token tokens ih =>
    calc
      settled (builder.keywords (token :: tokens)).1.text =
          settled (builder.keyword token).1.text ++ keywordsText tokens := ih _
      _ = settled builder.text ++ keywordsText [token] ++ keywordsText tokens := by
        rw [text_keyword, settled_keyword]
      _ = settled builder.text ++ keywordsText (token :: tokens) := by
        rw [keywordsText_cons token tokens, String.append_assoc]

theorem settled_modifierList (builder : Builder) (tokens : List Token) :
    settled (builder.modifierList tokens).1.text = settled builder.text ++ keywordsText tokens := by
  cases tokens with
  | nil => exact String.append_empty.symm
  | cons token tokens => exact builder.settled_keywords (token :: tokens)

theorem isSolid_memberName {name : MemberName} (solid : name.isSolid = true) :
    isSolid name.text = true := by
  cases name with
  | identifier text => exact solid
  | quoted text => exact isSolid_append (by decide +kernel) _
  | computed text => exact isSolid_append (by decide +kernel) _

theorem isSolid_memberValue {value : MemberValue} (solid : value.isSolid = true) {text : String}
    (isText : value.text? = some text) : isSolid text = true := by
  cases value with
  | none => cases isText
  | number number =>
    cases isText
    exact solid
  | quoted quoted =>
    cases isText
    exact isSolid_append (by decide +kernel) _

theorem isSolid_member {outline : MemberOutline} (solid : outline.isSolid = true) :
    isSolid outline.text = true := by
  obtain ⟨name, value⟩ := Bool.and_eq_true_iff.mp solid
  unfold MemberOutline.text
  split
  · exact isSolid_memberName name
  · rename_i text isText
    exact isSolid_append (isSolid_memberValue value isText) _

theorem text_memberName (builder : Builder) (name : MemberName) :
    (builder.memberName name).1.text = settled builder.text ++ name.text := by
  cases name with
  | identifier text => exact builder.text_identifier text
  | quoted text => exact builder.text_quoted text
  | computed text =>
    calc
      (builder.memberName (.computed text)).1.text = (builder.write "[").1.text ++ text ++ "]" :=
        rfl
      _ = settled builder.text ++ ("[" ++ text ++ "]") := by
        rw [text_write]
        simp only [String.append_assoc]

theorem text_memberValue (builder : Builder) (value : MemberValue) {text : String}
    (isText : value.text? = some text) :
    (builder.memberValue value).1.text = settled builder.text ++ "= " ++ text := by
  cases value with
  | none => cases isText
  | number number =>
    cases isText
    exact (text_number _ _).trans (congrArg (· ++ _) builder.settled_equals)
  | quoted quoted =>
    cases isText
    exact (text_quoted _ _).trans (congrArg (· ++ _) builder.settled_equals)

theorem text_member (builder : Builder) {outline : MemberOutline}
    (solid : outline.isSolid = true) :
    (builder.member outline).1.text = settled builder.text ++ outline.text := by
  obtain ⟨name, _⟩ := Bool.and_eq_true_iff.mp solid
  let named := builder.memberName outline.name
  have written : named.1.text = settled builder.text ++ outline.name.text :=
    builder.text_memberName outline.name
  have same : (builder.member outline).1.text = (named.1.memberValue outline.value).1.text := rfl
  rw [same]
  cases isText : outline.value.text? with
  | none =>
    have absent : outline.value = .none := by
      cases value : outline.value with
      | none => rfl
      | number | quoted =>
        rw [value] at isText
        cases isText
    rw [absent, MemberOutline.text, isText]
    exact written
  | some text =>
    rw [named.1.text_memberValue outline.value isText, written,
      settled_append (isSolid_memberName name), MemberOutline.text, isText]
    simp only [String.append_assoc]
    rfl

theorem settled_comma (text : String) : settled (text ++ ",") = text ++ ", " := by
  rw [settled_append (by decide +kernel), String.append_assoc]
  rfl

theorem text_furtherMembers (builder : Builder) {outlines : List MemberOutline}
    (solid : ∀ outline ∈ outlines, outline.isSolid = true) :
    (builder.furtherMembers outlines).1.text =
      builder.text ++ String.join (outlines.map fun outline => ", " ++ outline.text) := by
  induction outlines generalizing builder with
  | nil => exact String.append_empty.symm
  | cons outline outlines ih =>
    obtain ⟨here, later⟩ := List.forall_mem_cons.mp solid
    let first := (builder.writeRaw ",").member outline
    have written : first.1.text = builder.text ++ ", " ++ outline.text := by
      exact ((builder.writeRaw ",").text_member here).trans
        (congrArg (· ++ _) (settled_comma builder.text))
    calc
      (builder.furtherMembers (outline :: outlines)).1.text =
          first.1.text ++ String.join (outlines.map fun outline => ", " ++ outline.text) :=
        ih first.1 later
      _ = _ := by
        rw [written, List.map_cons, String.join_cons]
        simp only [String.append_assoc]

/-- Members that are joined with commas. -/
theorem intercalate_members (outline : MemberOutline) (outlines : List MemberOutline) :
    ", ".intercalate ((outline :: outlines).map MemberOutline.text) =
      outline.text ++ String.join (outlines.map fun outline => ", " ++ outline.text) := by
  induction outlines generalizing outline with
  | nil => simp
  | cons next outlines ih =>
    rw [List.map_cons, List.map_cons, String.intercalate_cons_cons, ← List.map_cons, ih next,
      List.map_cons, String.join_cons]
    simp only [String.append_assoc]

theorem isSolid_members {outline : MemberOutline} {outlines : List MemberOutline}
    (solid : ∀ other ∈ outline :: outlines, other.isSolid = true) :
    isSolid (", ".intercalate ((outline :: outlines).map MemberOutline.text)) = true := by
  induction outlines generalizing outline with
  | nil =>
    rw [List.map_singleton, String.intercalate_singleton]
    exact isSolid_member (solid outline (List.mem_singleton_self _))
  | cons next outlines ih =>
    rw [List.map_cons, List.map_cons, String.intercalate_cons_cons, ← List.map_cons]
    exact isSolid_append (ih (List.forall_mem_cons.mp solid).2) _

/-- Behind an opening brace the members are written with a space on either side. -/
theorem settled_members (builder : Builder) {outlines : List MemberOutline}
    (opened : isSolid builder.text = true)
    (solid : ∀ outline ∈ outlines, outline.isSolid = true) :
    settled (builder.members outlines).1.text = builder.text ++ membersText outlines := by
  have gap : settled builder.text = builder.text ++ " " := if_pos opened
  cases outlines with
  | nil => exact gap
  | cons outline outlines =>
    obtain ⟨here, later⟩ := List.forall_mem_cons.mp solid
    have written : (builder.members (outline :: outlines)).1.text =
        builder.text ++ " " ++ ", ".intercalate ((outline :: outlines).map MemberOutline.text) := by
      calc
        (builder.members (outline :: outlines)).1.text = (builder.member outline).1.text ++
            String.join (outlines.map fun outline => ", " ++ outline.text) :=
          text_furtherMembers _ later
        _ = _ := by
          rw [builder.text_member here, gap, String.append_assoc, ← intercalate_members]
    rw [written, settled_append (isSolid_members solid), membersText]
    simp only [String.append_assoc]

/-! What the nodes cover. -/

section Covers

variable {whole : Builder} {file : NodeId} (finished : whole.Finished file)

include finished

theorem Finished.covers {first second : Builder} {id : NodeId} {piece : String}
    (between : second.text = first.text ++ piece) (grown : second.Grows whole)
    (spans : whole.arena.Spans id first.offset second.offset) :
    whole.arena.Covers file id first.text piece := by
  refine ⟨finished.nodeText? between grown spans, ?_⟩
  obtain ⟨header, found, start, _⟩ := spans
  have short := finished.short
  have less := grown.size_le
  rw [between, String.utf8ByteSize_append] at less
  refine ⟨header, found, ?_⟩
  rw [start]
  exact Builder.toNat_offset (by omega)

/-- A node that starts where the next piece goes. -/
theorem Finished.covers_spaced {builder second : Builder} {id : NodeId} {piece : String}
    (written : second.text = settled builder.text ++ piece) (grown : second.Grows whole)
    (spans : whole.arena.Spans id builder.spaced.offset second.offset) :
    whole.arena.Covers file id (settled builder.text) piece := by
  rw [← text_spaced] at written ⊢
  exact finished.covers written grown spans

theorem keywords_cover (builder : Builder) (tokens : List Token)
    (grown : (builder.keywords tokens).1.Grows whole) :
    whole.arena.KeywordsCover file (settled builder.text) tokens (builder.keywords tokens).2 := by
  induction tokens generalizing builder with
  | nil => exact .nil
  | cons token tokens ih =>
    let first := builder.keyword token
    have later : first.1.Grows whole := (first.1.grows_keywords tokens).trans grown
    have here : whole.arena.Covers file first.2 (settled builder.text) token.keyword :=
      finished.covers_spaced (builder.text_keyword token) later
        (builder.keyword_spans finished.fits token later.arena)
    have others := ih first.1 grown
    rw [builder.text_keyword, settled_keyword] at others
    exact .cons here others

theorem modifierList_covers (builder : Builder) (tokens : List Token)
    (grown : (builder.modifierList tokens).1.Grows whole) :
    whole.arena.KeywordsCover file (settled builder.text) tokens
      ((builder.modifierList tokens).2.getD []) := by
  cases tokens with
  | nil => exact .nil
  | cons token tokens => exact keywords_cover finished builder (token :: tokens) grown

theorem memberName_covers (builder : Builder) (name : MemberName)
    (grown : (builder.memberName name).1.Grows whole) :
    whole.arena.Covers file (builder.memberName name).2 (settled builder.text) name.text :=
  finished.covers_spaced (builder.text_memberName name) grown
    (builder.memberName_spans finished.fits name grown.arena)

theorem memberValue_covers (builder : Builder) (value : MemberValue)
    (grown : (builder.memberValue value).1.Grows whole) :
    match value.text? with
    | none => (builder.memberValue value).2 = .absent
    | some text =>
      whole.arena.Covers file (builder.memberValue value).2 (settled builder.text ++ "= ")
        text := by
  let equals := (builder.write "=").1
  have place : settled equals.text = settled builder.text ++ "= " := builder.settled_equals
  rw [← place]
  cases value with
  | none => rfl
  | number text =>
    exact finished.covers_spaced (equals.text_number text) grown
      (equals.number_spans finished.fits text grown.arena)
  | quoted text =>
    exact finished.covers_spaced (equals.text_quoted text) grown
      (equals.quoted_spans finished.fits text grown.arena)

theorem member_covers (builder : Builder) {outline : MemberOutline}
    (solid : outline.isSolid = true) (grown : (builder.member outline).1.Grows whole) :
    whole.arena.MemberCovers file (builder.member outline).2 (settled builder.text) outline := by
  let named := builder.memberName outline.name
  let valued := named.1.memberValue outline.value
  let start := ((named.1.arena.header? named.2).map Header.start).getD named.1.offset
  have more : valued.1.Grows whole :=
    (valued.1.grows_node (.addEnumMember start valued.1.offset ⟨named.2, valued.2⟩)).trans grown
  have early : named.1.Grows whole := (named.1.grows_memberValue outline.value).trans more
  have starts : start = builder.spaced.offset := Spans.start_eq
    (builder.memberName_spans (finished.fits.of_extends early.arena) outline.name (.refl _)) _
  have spans : whole.arena.Spans (builder.member outline).2 builder.spaced.offset
      (builder.member outline).1.offset := starts ▸ spans_add finished.fits grown.arena
  have stored : whole.arena.payload? (builder.member outline).2 =
      some (.enumMember ⟨named.2, valued.2⟩) := payload?_add rfl finished.fits grown.arena
  have atMember : whole.arena.enumMember? (builder.member outline).2 =
      some ⟨named.2, valued.2⟩ := by
    rw [enumMember?, stored]
  refine ⟨finished.covers_spaced (builder.text_member solid) grown spans, _, atMember,
    memberName_covers finished builder outline.name early, ?_⟩
  have place : settled named.1.text ++ "= " =
      settled builder.text ++ outline.name.text ++ " = " := by
    obtain ⟨name, _⟩ := Bool.and_eq_true_iff.mp solid
    rw [builder.text_memberName, settled_append (isSolid_memberName name)]
    simp only [String.append_assoc]
    rfl
  rw [← place]
  exact memberValue_covers finished named.1 outline.value more

theorem furtherMembers_cover (builder : Builder) {outlines : List MemberOutline}
    (solid : ∀ outline ∈ outlines, outline.isSolid = true)
    (grown : (builder.furtherMembers outlines).1.Grows whole) :
    whole.arena.MembersCover file (builder.text ++ ", ") outlines
      (builder.furtherMembers outlines).2 := by
  induction outlines generalizing builder with
  | nil => exact .nil
  | cons outline outlines ih =>
    obtain ⟨here, later⟩ := List.forall_mem_cons.mp solid
    let first := (builder.writeRaw ",").member outline
    have more : first.1.Grows whole := (first.1.grows_furtherMembers outlines).trans grown
    have place : settled (builder.writeRaw ",").text = builder.text ++ ", " :=
      settled_comma builder.text
    have covers := member_covers finished (builder.writeRaw ",") here more
    have others := ih first.1 later grown
    rw [(builder.writeRaw ",").text_member here] at others
    rw [place] at covers others
    exact .cons covers others

theorem members_cover (builder : Builder) {outlines : List MemberOutline}
    (solid : ∀ outline ∈ outlines, outline.isSolid = true)
    (grown : (builder.members outlines).1.Grows whole) :
    whole.arena.MembersCover file (settled builder.text) outlines (builder.members outlines).2 := by
  cases outlines with
  | nil => exact .nil
  | cons outline outlines =>
    obtain ⟨here, later⟩ := List.forall_mem_cons.mp solid
    let first := builder.member outline
    have more : first.1.Grows whole := (first.1.grows_furtherMembers outlines).trans grown
    have others := furtherMembers_cover finished first.1 later grown
    rw [builder.text_member here] at others
    exact .cons (member_covers finished builder here more) others

theorem enumDeclaration_covers (builder : Builder) (modifiers : List Token) {name : String}
    (solid : isSolid name = true) {members : List MemberOutline}
    (solidMembers : ∀ outline ∈ members, outline.isSolid = true)
    (grown : (builder.enumDeclaration modifiers name members).1.Grows whole) :
    whole.arena.EnumCovers file (builder.enumDeclaration modifiers name members).2
      (settled builder.text) modifiers name members := by
  let opening := builder.write ""
  let list := opening.1.modifierList modifiers
  let keyword := (list.1.write "enum").1
  let named := keyword.identifier name
  let brace := (named.1.write "\x7b").1
  let filled := brace.members members
  let closed := (filled.1.write "\x7d").1
  have byClosed : closed.Grows whole := (closed.grows_node
    (.addEnum opening.2.start closed.offset ⟨list.2, named.2, filled.2⟩)).trans grown
  have byFilled : filled.1.Grows whole := (filled.1.grows_write "\x7d").trans byClosed
  have byBrace : brace.Grows whole := (brace.grows_members members).trans byFilled
  have byNamed : named.1.Grows whole := (named.1.grows_write "\x7b").trans byBrace
  have byKeyword : keyword.Grows whole := (keyword.grows_identifier name).trans byNamed
  have byList : list.1.Grows whole := (list.1.grows_write "enum").trans byKeyword
  -- Where each of the pieces is written.
  have first : settled opening.1.text = settled builder.text := by
    rw [builder.text_write, String.append_empty, settled_settled]
  have second : settled keyword.text =
      settled builder.text ++ keywordsText modifiers ++ "enum " := by
    rw [list.1.settled_write (by decide +kernel), opening.1.settled_modifierList, first]
    simp only [String.append_assoc]
    rfl
  have third : brace.text =
      settled builder.text ++ keywordsText modifiers ++ "enum " ++ name ++ " \x7b" := by
    rw [named.1.text_write, keyword.text_identifier, settled_append solid, second]
    simp only [String.append_assoc]
    rfl
  have opened : isSolid brace.text = true := by
    rw [named.1.text_write]
    exact isSolid_append (by decide +kernel) _
  have last : closed.text = settled builder.text ++ enumText modifiers name members := by
    rw [filled.1.text_write, brace.settled_members opened solidMembers, third, enumText]
    simp only [String.append_assoc]
  have written : (builder.enumDeclaration modifiers name members).1.text =
      settled builder.text ++ enumText modifiers name members := last
  have stored : whole.arena.payload? (builder.enumDeclaration modifiers name members).2 =
      some (.enumeration ⟨list.2, named.2, filled.2⟩) :=
    payload?_add rfl finished.fits grown.arena
  have decl : whole.arena.enumDecl? (builder.enumDeclaration modifiers name members).2 =
      some ⟨list.2, named.2, filled.2⟩ := by
    rw [enumDecl?, stored]
  refine ⟨finished.covers_spaced written grown (spans_add finished.fits grown.arena),
    ⟨list.2, named.2, filled.2⟩, decl, ?_, ?_, ?_⟩
  · rw [← first]
    exact modifierList_covers finished opening.1 modifiers byList
  · rw [← second]
    exact finished.covers_spaced (keyword.text_identifier name) byNamed
      (keyword.identifier_spans finished.fits name byNamed.arena)
  · have gap : settled brace.text =
        settled builder.text ++ keywordsText modifiers ++ "enum " ++ name ++ " \x7b " := by
      rw [settled, if_pos opened, third]
      simp only [String.append_assoc]
      rfl
    rw [← gap]
    exact members_cover finished brace solidMembers byFilled

end Covers

/-- An enum declaration is written at any time, with names and numbers that set themselves off from
what follows, and with any other texts. Whatever is written afterwards, in a finished file that is
not too long the declaration and its parts cover the texts that were asked for. -/
theorem finish_enumDeclaration (builder : Builder) (modifiers : List Token) {name : String}
    (solid : isSolid name = true) {members : List MemberOutline}
    (solidMembers : ∀ outline ∈ members, outline.isSolid = true) {last : Builder}
    (writes : (builder.enumDeclaration modifiers name members).1.Writes last)
    (fileName : String) (statements : List NodeId)
    (short : last.text.utf8ByteSize < UInt32.size - 1)
    (fits : (last.finish fileName statements).1.Fits) :
    (last.finish fileName statements).1.EnumCovers (last.finish fileName statements).2
      (builder.enumDeclaration modifiers name members).2 (settled builder.text) modifiers name
      members := by
  have finished := last.finished_finish fileName statements short fits
  have grown := writes.grows.trans (last.grows_finish fileName statements)
  exact enumDeclaration_covers finished builder modifiers solid solidMembers grown

/-- A declaration behind other text and before more of it. One of the modifiers has no text, a name
and a value have letters of two bytes, and a quoted name is empty. -/
theorem finish_enumDeclaration_oil :
    let builder : Builder := ⟨.empty, "f();"⟩
    let members : List MemberOutline :=
      [⟨.identifier "Öl", .number "1"⟩, ⟨.quoted "", .none⟩, ⟨.computed "k ", .quoted "ü\n"⟩]
    let declared := builder.enumDeclaration [.exportKeyword, .identifier, .constKeyword] "E" members
    let last := (Call.returnStatement "0").perform declared.1
    let finished := last.finish "a.ts" [declared.2]
    isSolid "E" = true ∧ (∀ outline ∈ members, outline.isSolid = true) ∧
      declared.1.Writes last ∧ last.text.utf8ByteSize < UInt32.size - 1 ∧ finished.1.Fits ∧
      finished.1.nodeText? finished.2 declared.2 =
        some "export const enum E \x7b Öl = 1, \"\", [k ] = \"ü\n\" \x7d" ∧
      ∃ decl, finished.1.enumDecl? declared.2 = some decl ∧
        decl.members.map (finished.1.nodeText? finished.2) =
          [some "Öl = 1", some "\"\"", some "[k ] = \"ü\n\""] := by
  intro builder members declared last finished
  have solid : isSolid "E" = true := by decide +kernel
  have solidMembers : ∀ outline ∈ members, outline.isSolid = true := by decide +kernel
  have writes : declared.1.Writes last := Writes.start.call _
  have short : last.text.utf8ByteSize < UInt32.size - 1 := by decide +kernel
  have fits : finished.1.Fits := by decide +kernel
  have covers := builder.finish_enumDeclaration [.exportKeyword, .identifier, .constKeyword] solid
    solidMembers writes "a.ts" [declared.2] short fits
  obtain ⟨decl, atDecl, _, _, covered⟩ := covers.parts
  refine ⟨solid, solidMembers, writes, short, fits, ?_, decl, atDecl, ?_⟩
  · rw [covers.whole.text]
    decide +kernel
  · rw [covered.nodeTexts]
    decide +kernel

end Builder

end EnumStamp
