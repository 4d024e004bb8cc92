import EnumStamp.Proofs.Builder.Rendering

/-!
Braces: what the block of a declaration covers. The block is to start at the brace, but its start is
taken before the brace is written, one place behind the head of the declaration. That is the brace
where a space comes between the two, and the line break behind the brace where the head ends in a
space or a line break itself. Main statements: what opening and closing a body do
(`enter_opens`, `leave_closes`), and the text of the block in the finished file (`finish_block`).
-/

set_option autoImplicit false

namespace EnumStamp

open Arena

namespace Builder

/-- The kind of the block of a declaration; the members of a class have none. -/
def Body.blockKind? : Body → Option Kind
  | .ofFunction _ => some Construct.block.kind
  | .ofClass _ => none
  | .ofNamespace _ _ => some Construct.moduleBlock.kind

/-- The block of a declaration among the slots of its payload. -/
def Body.blockOf? : Body → Payload → Option NodeId
  | .ofFunction _, .composite [_, block] => some block
  | .ofNamespace _ _, .moduleDecl decl => some decl.body
  | _, _ => none

def Body.block? (body : Body) (arena : Arena) (declared : NodeId) : Option NodeId :=
  (arena.payload? declared).bind body.blockOf?

/-- Whether a space comes between the head of a declaration and its brace. The head of a function
ends in parentheses, and that of a namespace in whatever the name ends in. -/
def Body.isSetOff : Body → Bool
  | .ofFunction _ => true
  | .ofClass name | .ofNamespace _ name => isSolid name

/-- The text with its last line ended. -/
def lineEnded (text : String) : String :=
  if text.back? == some '\n' then text else text ++ "\n"

/-- The text that the block of a declaration covers, when `inner` was written between the line of
the opening brace and the closing one. -/
def Body.blockText (body : Body) (inner : String) : String :=
  (if body.isSetOff then "\x7b" else "") ++ lineEnded ("\n" ++ inner) ++ "\x7d"

/-! Lines and spaces. -/

theorem isSolid_of_back {text : String} (ends : text.back? = some '\n') :
    isSolid text = false := by
  rw [isSolid, ends]
  rfl

theorem back?_lineEnded (text : String) : (lineEnded text).back? = some '\n' := by
  unfold lineEnded
  split
  · rename_i ends
    exact beq_iff_eq.mp ends
  · rw [String.back?_eq, String.toList_append, List.getLast?_append]
    rfl

theorem settled_lineEnded (text : String) : settled (lineEnded text) = lineEnded text := by
  rw [settled, isSolid_of_back (back?_lineEnded text), if_neg Bool.false_ne_true]

/-- The last character is that of the last piece, if the piece has one. -/
theorem back?_append {piece : String} (filled : piece ≠ "") (text : String) :
    (text ++ piece).back? = piece.back? := by
  have last : piece.toList.getLast? ≠ none := by
    simpa [List.getLast?_eq_none_iff] using filled
  rw [String.back?_eq, String.back?_eq, String.toList_append, List.getLast?_append]
  cases found : piece.toList.getLast? with
  | none => exact absurd found last
  | some char => rfl

theorem lineEnded_append {piece : String} (filled : piece ≠ "") (text : String) :
    lineEnded (text ++ piece) = text ++ lineEnded piece := by
  rw [lineEnded, lineEnded, back?_append filled]
  split
  · rfl
  · rw [String.append_assoc]

/-- A piece sets itself off, or does not, wherever it goes; an empty one leaves the space in
front of it. -/
theorem isSolid_settled_append (text piece : String) :
    isSolid (settled text ++ piece) = isSolid piece := by
  by_cases empty : piece = ""
  · subst empty
    rw [String.append_empty, settled]
    by_cases solid : isSolid text = true
    · rw [if_pos solid, isSolid_append_space]
      rfl
    · rw [if_neg solid]
      exact Bool.eq_false_iff.mpr solid
  · rw [isSolid, isSolid, back?_append empty]

theorem text_openBody (builder : Builder) :
    builder.openBody.text = settled builder.text ++ "\x7b" ++ "\n" := by
  rw [← builder.text_write "\x7b"]
  rfl

theorem text_closeBody (builder : Builder) :
    builder.closeBody.text = lineEnded builder.text ++ "\x7d" := by
  have lined : (if builder.text.back? == some '\n' then builder else builder.newline).text =
      lineEnded builder.text := by
    rw [lineEnded]
    split
    · rfl
    · rfl
  rw [closeBody, text_write, lined, settled_lineEnded]

/-! Opening and closing. -/

/-- One place behind a head there is the brace, if a space comes between them, and otherwise what
follows the brace. -/
theorem exists_blockStart (builder : Builder) :
    ∃ inside, builder.offset + 1 = offset inside ∧ builder.openBody.text =
      inside.text ++ (if isSolid builder.text then "\x7b" else "") ++ "\n" := by
  -- The byte behind the head is the space if there is one, and otherwise the brace itself.
  by_cases solid : isSolid builder.text = true
  · refine ⟨builder.writeRaw " ", (builder.offset_writeRaw_of_byte rfl).symm, ?_⟩
    rw [if_pos solid, text_openBody, settled, if_pos solid]
    rfl
  · refine ⟨builder.writeRaw "\x7b", (builder.offset_writeRaw_of_byte rfl).symm, ?_⟩
    rw [if_neg solid, String.append_empty, text_openBody, settled, if_neg solid]
    rfl

/-- Where the block of an opened declaration starts, and what is written from there on. -/
theorem enter_opens (builder : Builder) (body : Body) {kind : Kind}
    (blockKind : body.blockKind? = some kind) :
    ∃ inside, (body.enter builder).2.blockStart = offset inside ∧
      (body.enter builder).1.text =
        inside.text ++ (if body.isSetOff then "\x7b" else "") ++ "\n" := by
  cases body with
  | ofFunction name =>
    let named := (builder.write "function").1.identifier name
    obtain ⟨inside, start, text⟩ := (named.1.writeRaw "()").exists_blockStart
    have solid : isSolid (named.1.writeRaw "()").text = true :=
      isSolid_append (by decide +kernel) _
    rw [solid] at text
    exact ⟨inside, start, text⟩
  | ofClass name => cases blockKind
  | ofNamespace modifiers name =>
    let list := (builder.write "").1.modifierList modifiers
    let keyword := (list.1.write "namespace").1
    obtain ⟨inside, start, text⟩ := (keyword.identifier name).1.exists_blockStart
    rw [keyword.text_identifier, isSolid_settled_append] at text
    exact ⟨inside, start, text⟩

/-- The block of a closed declaration reaches from the start that was taken for it to the closing
brace. -/
theorem leave_closes {builder : Builder} {body : Body} {kind : Kind}
    (blockKind : body.blockKind? = some kind) (opened : Opened) (contents : List NodeId)
    {later : Arena} (fits : later.Fits)
    (grown : (body.leave opened contents builder).1.arena.Extends later) :
    ∃ block, body.block? later (body.leave opened contents builder).2 = some block ∧
      later.kind? block = some kind ∧
      later.Spans block opened.blockStart builder.closeBody.offset := by
  let closed := builder.closeBody
  cases body with
  | ofFunction name =>
    cases blockKind
    let block := closed.node
      (·.add Construct.block.kind opened.blockStart closed.offset (.composite contents))
    have byBlock : block.1.arena.Extends later := (extends_apply (.addComposite
      Construct.functionDeclaration.kind opened.start closed.offset [opened.name, block.2])
        block.1.arena).trans grown
    refine ⟨block.2, ?_, kind?_add fits byBlock, spans_add fits byBlock⟩
    have stored : later.payload? ((Body.ofFunction name).leave opened contents builder).2 =
        some (.composite [opened.name, block.2]) := payload?_add rfl fits grown
    rw [Body.block?, stored]
    rfl
  | ofClass name => cases blockKind
  | ofNamespace modifiers name =>
    cases blockKind
    let block := closed.node
      (·.add Construct.moduleBlock.kind opened.blockStart closed.offset (.composite contents))
    have byBlock : block.1.arena.Extends later := (extends_apply (.addModule opened.start
      closed.offset ⟨opened.modifiers, opened.name, block.2⟩) block.1.arena).trans grown
    refine ⟨block.2, ?_, kind?_add fits byBlock, spans_add fits byBlock⟩
    have stored : later.payload?
        ((Body.ofNamespace modifiers name).leave opened contents builder).2 =
          some (.moduleDecl ⟨opened.modifiers, opened.name, block.2⟩) := payload?_add rfl fits grown
    rw [Body.block?, stored]
    rfl

theorem text_leave (builder : Builder) (body : Body) (opened : Opened) (contents : List NodeId) :
    (body.leave opened contents builder).1.text = builder.closeBody.text := by
  cases body <;> rfl

/-- What the block of a declaration covers, from its start to the end of the closed body. -/
theorem text_closed {builder filled inside : Builder} {body : Body} {inner : String}
    (opened : (body.enter builder).1.text =
      inside.text ++ (if body.isSetOff then "\x7b" else "") ++ "\n")
    (fills : filled.text = (body.enter builder).1.text ++ inner) :
    filled.closeBody.text = inside.text ++ body.blockText inner := by
  have filling : "\n" ++ inner ≠ "" := by simp
  calc
    filled.closeBody.text = lineEnded (inside.text ++ (if body.isSetOff then "\x7b" else "") ++
        ("\n" ++ inner)) ++ "\x7d" := by
      rw [text_closeBody, fills, opened]
      simp only [String.append_assoc]
    _ = inside.text ++ body.blockText inner := by
      rw [lineEnded_append filling, Body.blockText]
      simp only [String.append_assoc]

theorem getLast?_blockText (body : Body) (inner : String) :
    (body.blockText inner).toList.getLast? = some '\x7d' := by
  rw [Body.blockText, String.toList_append, List.getLast?_append]
  rfl

theorem head?_blockText (body : Body) (inner : String) :
    (body.blockText inner).toList.head? = some (if body.isSetOff then '\x7b' else '\n') := by
  have line : (lineEnded ("\n" ++ inner)).toList.head? = some '\n' := by
    unfold lineEnded
    split <;> simp
  unfold Body.blockText
  split <;> simp [line]

/-- The declaration has a block, whose text starts with the opening brace and ends with the closing
one. -/
def Body.CoversBraces (body : Body) (arena : Arena) (file declared : NodeId) : Prop :=
  ∃ block text, body.block? arena declared = some block ∧
    arena.nodeText? file block = some text ∧ text.toList.head? = some '\x7b' ∧
    text.toList.getLast? = some '\x7d'

/-- A declaration with a block is written at any time, with any name and any calls in its body.
Whatever is written afterwards, in a finished file that is not too long the block is of its kind and
covers what was written up to the closing brace. It covers the opening brace too just if that is set
off from the head, which it always is in a function, and in a namespace whose name is not empty and
ends neither in a space nor in a line break. -/
theorem finish_block (builder : Builder) (body : Body) {kind : Kind}
    (blockKind : body.blockKind? = some kind) {filled : Builder}
    (fills : (body.enter builder).1.Writes filled) (contents : List NodeId) {last : Builder}
    (writes : (body.leave (body.enter builder).2 contents filled).1.Writes last)
    (fileName : String) (statements : List NodeId)
    (short : last.text.utf8ByteSize < UInt32.size - 1)
    (fits : (last.finish fileName statements).1.Fits) :
    (∃ block inner,
      body.block? (last.finish fileName statements).1
        (body.leave (body.enter builder).2 contents filled).2 = some block ∧
      (last.finish fileName statements).1.kind? block = some kind ∧
      filled.text = (body.enter builder).1.text ++ inner ∧
      (last.finish fileName statements).1.nodeText? (last.finish fileName statements).2 block =
        some (body.blockText inner)) ∧
    (body.CoversBraces (last.finish fileName statements).1 (last.finish fileName statements).2
      (body.leave (body.enter builder).2 contents filled).2 ↔ body.isSetOff = true) := by
  let left := body.leave (body.enter builder).2 contents filled
  have finished := last.finished_finish fileName statements short fits
  have grown := writes.grows.trans (last.grows_finish fileName statements)
  obtain ⟨inside, start, opened⟩ := enter_opens builder body blockKind
  obtain ⟨inner, filling⟩ := fills.grows.text
  obtain ⟨block, found, isKind, spans⟩ :=
    leave_closes blockKind (body.enter builder).2 contents fits grown.arena
  have written : left.1.text = inside.text ++ body.blockText inner := by
    rw [text_leave, text_closed opened filling]
  have stop : filled.closeBody.offset = left.1.offset := by
    rw [offset, offset, text_leave]
  rw [start, stop] at spans
  have covered := finished.nodeText? written grown spans
  refine ⟨⟨block, inner, found, isKind, filling, covered⟩, ?_⟩
  constructor
  · -- There is one block and one text of it, which starts with a line break if not with the brace.
    rintro ⟨other, text, again, same, first, _⟩
    cases found.symm.trans again
    cases covered.symm.trans same
    rw [head?_blockText] at first
    by_contra touching
    rw [if_neg touching] at first
    exact absurd first (by decide)
  · intro setOff
    refine ⟨block, _, found, covered, ?_, getLast?_blockText body inner⟩
    rw [head?_blockText, if_pos setOff]

/-- A function without a name, in a file that has text already, and a namespace whose name ends in a
space. The block of the namespace starts with the end of the line of its brace. -/
theorem finish_block_spaced :
    let builder : Builder := ⟨.empty, "f();"⟩
    let inner := (Call.returnStatement "0").perform
    let function := Body.ofFunction ""
    let first := function.leave (function.enter builder).2 [.ofPosition 2]
      (inner (function.enter builder).1)
    let space := Body.ofNamespace [.exportKeyword] "é "
    let second := space.leave (space.enter first.1.newline).2 [.ofPosition 8]
      (inner (space.enter first.1.newline).1)
    let finished := second.1.finish "a.ts" [first.2, second.2]
    second.1.text.utf8ByteSize = 64 ∧ finished.1.Fits ∧
      function.CoversBraces finished.1 finished.2 first.2 ∧
      ¬ space.CoversBraces finished.1 finished.2 second.2 ∧
      ∃ block, space.block? finished.1 second.2 = some block ∧
        finished.1.nodeText? finished.2 block = some "\nreturn 0;\n\x7d" := by
  intro builder inner function first space second finished
  have size : second.1.text.utf8ByteSize = 64 := by decide +kernel
  have short : second.1.text.utf8ByteSize < UInt32.size - 1 := by
    rw [size]
    decide
  have fits : finished.1.Fits := by decide +kernel
  have later : first.1.Writes second.1 :=
    (((Writes.start.call .newline).enter space).call (.returnStatement "0")).leave space _ _
  obtain ⟨_, covers⟩ := builder.finish_block function rfl
    (Writes.start.call (.returnStatement "0")) [.ofPosition 2] later "a.ts" [first.2, second.2]
    short fits
  obtain ⟨⟨block, between, found, _, wrote, covered⟩, touches⟩ :=
    first.1.newline.finish_block space rfl (Writes.start.call (.returnStatement "0"))
      [.ofPosition 8] .start "a.ts" [first.2, second.2] short fits
  have same : between = "return 0;\n" := by
    have whole : (inner (space.enter first.1.newline).1).text =
        (space.enter first.1.newline).1.text ++ "return 0;\n" := by decide +kernel
    rw [whole, String.append_right_inj] at wrote
    exact wrote.symm
  refine ⟨size, fits, covers.mpr rfl, fun braces => ?_, block, found, ?_⟩
  · exact absurd (touches.mp braces) (by decide +kernel)
  · rw [covered, same]
    decide +kernel

/-- There are blocks that do not start with their brace. -/
theorem blocks_without_brace :
    ¬ ∀ (builder : Builder) (body : Body) (kind : Kind), body.blockKind? = some kind →
      ∀ filled, (body.enter builder).1.Writes filled →
        ∀ contents last, (body.leave (body.enter builder).2 contents filled).1.Writes last →
          ∀ fileName statements, last.text.utf8ByteSize < UInt32.size - 1 →
            (last.finish fileName statements).1.Fits →
              body.CoversBraces (last.finish fileName statements).1
                (last.finish fileName statements).2
                (body.leave (body.enter builder).2 contents filled).2 := by
  intro claim
  let body := Body.ofNamespace [] ""
  let entered := body.enter (Builder.start .empty)
  let left := body.leave entered.2 [] entered.1
  let finished := left.1.finish "a.ts" [left.2]
  obtain ⟨block, text, found, covered, first, _⟩ := claim (Builder.start .empty) body _ rfl _ .start
    [] left.1 .start "a.ts" [left.2] (by decide +kernel) (by decide +kernel)
  have atBlock : body.block? finished.1 left.2 = some (.ofPosition 1) := by decide +kernel
  cases atBlock.symm.trans found
  have broken : finished.1.nodeText? finished.2 (.ofPosition 1) = some "\n\x7d" := by
    decide +kernel
  cases broken.symm.trans covered
  exact absurd first (by decide +kernel)

end Builder

end EnumStamp
