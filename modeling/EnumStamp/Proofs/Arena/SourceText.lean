import EnumStamp.Arena.SourceText

set_option autoImplicit false

namespace EnumStamp

namespace Text

/-- Whether a character of the text starts at a byte offset, or the text ends there. -/
def IsBoundary (text : String) (offset : Nat) : Prop :=
  offset = text.utf8ByteSize ∨
    ∃ inside : offset < text.toByteArray.size, text.toByteArray[offset].IsUTF8FirstByte

theorem isBoundary_iff_isValid {text : String} {offset : Nat} :
    IsBoundary text offset ↔ (String.Pos.Raw.mk offset).IsValid text := by
  rw [String.Pos.Raw.isValid_iff_isUTF8FirstByte, IsBoundary, String.Pos.Raw.ext_iff]
  rfl

/-- Boundaries are the places between the characters before and those after. -/
theorem isBoundary_iff {text : String} {offset : Nat} :
    IsBoundary text offset ↔
      ∃ before after, text = before ++ after ∧ before.utf8ByteSize = offset := by
  rw [isBoundary_iff_isValid, String.Pos.Raw.isValid_iff_exists_append]
  refine exists_congr fun before => exists_congr fun after => and_congr_right fun _ => ?_
  rw [String.Pos.Raw.ext_iff]
  exact eq_comm

/-- A range can be cut out of a text just if it is no inverted one between two boundaries, and then
the bytes of the slice are those of the range. -/
theorem slice?_cases (text : String) (start stop : Nat) :
    (∃ part, slice? text start stop = some part ∧
      part.toByteArray = text.toByteArray.extract start stop ∧
      start ≤ stop ∧ IsBoundary text start ∧ IsBoundary text stop) ∨
    (slice? text start stop = none ∧
      ¬ (start ≤ stop ∧ IsBoundary text start ∧ IsBoundary text stop)) := by
  rw [isBoundary_iff_isValid, isBoundary_iff_isValid]
  unfold slice?
  split
  · rename_i first
    split
    · rename_i last
      split
      · rename_i ordered
        exact .inl ⟨_, rfl, String.toByteArray_extract, ordered, first, last⟩
      · rename_i inverted
        exact .inr ⟨rfl, fun range => inverted range.1⟩
    · rename_i cuts
      exact .inr ⟨rfl, fun range => cuts range.2.2⟩
  · rename_i cuts
    exact .inr ⟨rfl, fun range => cuts range.2.1⟩

/-- The byte offset at which the character with a number starts, counted from zero. -/
def charOffset? : List Char → (number : Nat) → Option Nat
  | [], _ => none
  | _ :: _, 0 => some 0
  | char :: chars, number + 1 => (charOffset? chars number).map (char.utf8Size + ·)

/-- A text up to the byte at which the character with the number `count` starts, or the whole text
without such a character. There is no outcome if that byte lies inside a character. -/
def shorten? (text : String) (count : Nat) : Option String :=
  match charOffset? text.toList count with
  | some cut => slice? text 0 cut
  | none => some text

theorem charOffset?_eq (chars : List Char) (number : Nat) :
    charOffset? chars number =
      if number < chars.length then some (String.ofList (chars.take number)).utf8ByteSize
      else none := by
  induction chars generalizing number with
  | nil => rfl
  | cons char chars ih =>
    cases number with
    | zero => rfl
    | succ number =>
      rw [charOffset?, ih]
      simp only [List.length_cons, Nat.add_lt_add_iff_right, List.take_succ_cons,
        String.ofList_cons, String.utf8ByteSize_append, String.utf8ByteSize_singleton]
      split <;> rfl

/-- Cutting at an offset that was found by counting never fails. -/
theorem shorten?_eq (text : String) (count : Nat) :
    shorten? text count = some (String.ofList (text.toList.take count)) := by
  have whole : text = String.ofList (text.toList.take count) ++
      String.ofList (text.toList.drop count) := by
    rw [← String.ofList_append, List.take_append_drop, String.ofList_toList]
  rw [shorten?, charOffset?_eq]
  by_cases long : count < text.toList.length
  · rw [if_pos long]
    refine slice?_eq_some_iff.mpr ⟨"", String.ofList (text.toList.drop count), ?_, rfl, ?_⟩
    · rw [String.empty_append]
      exact whole
    · exact Nat.zero_add _
  · rw [if_neg long, List.take_of_length_le (Nat.le_of_not_lt long), String.ofList_toList]

end Text

/-- The range of the header is a part of the text between two boundaries, and the node was not made
without source text. -/
structure Header.Covers (header : Header) (text : String) : Prop where
  positioned : header.start ≠ noPosition
  ordered : header.start.toNat ≤ header.stop.toNat
  inside : header.stop.toNat ≤ text.utf8ByteSize
  starts : Text.IsBoundary text header.start.toNat
  stops : Text.IsBoundary text header.stop.toNat

namespace Arena

variable {arena : Arena} {file id : NodeId} {source : SourceFile} {header : Header}

theorem nodeText?_of_synthesized (atFile : arena.sourceFile? file = some source)
    (found : arena.header? id = some header) (made : header.start = Header.noPosition) :
    arena.nodeText? file id = none := by
  have synthesized : header.isSynthesized = true := beq_iff_eq.mpr made
  simp only [nodeText?, atFile, found, synthesized, Option.bind_eq_bind, Option.bind_some, if_true]

theorem nodeText?_of_positioned (atFile : arena.sourceFile? file = some source)
    (found : arena.header? id = some header) (positioned : header.start ≠ Header.noPosition) :
    arena.nodeText? file id = Text.slice? source.text header.start.toNat header.stop.toNat := by
  have parsed : header.isSynthesized = false := beq_eq_false_iff_ne.mpr positioned
  simp only [nodeText?, atFile, found, parsed, Option.bind_eq_bind, Option.bind_some,
    Bool.false_eq_true, if_false]

/-- Where there is text of a node, there are the file and the node. -/
theorem exists_of_nodeText? {text : String} (reads : arena.nodeText? file id = some text) :
    ∃ source header, arena.sourceFile? file = some source ∧ arena.header? id = some header := by
  simp only [nodeText?, Option.bind_eq_bind, Option.bind_eq_some_iff] at reads
  obtain ⟨source, atFile, header, found, _⟩ := reads
  exact ⟨source, header, atFile, found⟩

/-- The text of a node that is there, in a file that is there. -/
theorem nodeText?_cases (atFile : arena.sourceFile? file = some source)
    (found : arena.header? id = some header) :
    (∃ text, arena.nodeText? file id = some text ∧ header.Covers source.text ∧
      text.toByteArray = source.text.toByteArray.extract header.start.toNat header.stop.toNat) ∨
    (arena.nodeText? file id = none ∧ ¬ header.Covers source.text) := by
  by_cases positioned : header.start = Header.noPosition
  · exact .inr ⟨nodeText?_of_synthesized atFile found positioned,
      fun covers => covers.positioned positioned⟩
  · rw [nodeText?_of_positioned atFile found positioned]
    rcases Text.slice?_cases source.text header.start.toNat header.stop.toNat with
      ⟨text, reads, bytes, ordered, starts, stops⟩ | ⟨none, outside⟩
    · have inside := (Text.isBoundary_iff_isValid.mp stops).le_utf8ByteSize
      exact .inl ⟨text, reads, ⟨positioned, ordered, inside, starts, stops⟩, bytes⟩
    · exact .inr ⟨none, fun covers => outside ⟨covers.ordered, covers.starts, covers.stops⟩⟩

theorem preview_of_text {text : String} (reads : arena.nodeText? file id = some text) :
    arena.preview file id = String.ofList (text.toList.take Limits.previewLength) := by
  simp only [preview, reads]

theorem preview_of_none (none : arena.nodeText? file id = none) :
    arena.preview file id = Limits.noText := by
  simp only [preview, none]

/-- A text as long as a preview may be is shown as it is. -/
theorem preview_of_short {text : String} (reads : arena.nodeText? file id = some text)
    (short : text.length ≤ Limits.previewLength) : arena.preview file id = text := by
  rw [preview_of_text reads, List.take_of_length_le (String.length_toList ▸ short),
    String.ofList_toList]

/-- The placeholder is shorter than a preview may be, so no longer text is shown as it. -/
theorem preview_eq_noText_iff :
    arena.preview file id = Limits.noText ↔
      arena.nodeText? file id = none ∨ arena.nodeText? file id = some Limits.noText := by
  have short : Limits.noText.toList.length < Limits.previewLength := by decide
  cases reads : arena.nodeText? file id with
  | none => simp only [preview_of_none reads, true_or]
  | some text =>
    simp only [reduceCtorEq, false_or, Option.some.injEq]
    constructor
    · intro shown
      rw [preview_of_text reads] at shown
      have taken : text.toList.take Limits.previewLength = Limits.noText.toList := by
        rw [← shown, String.toList_ofList]
      have count := congrArg List.length taken
      rw [List.length_take] at count
      rw [List.take_of_length_le (by omega)] at taken
      exact String.toList_injective taken
    · rintro rfl
      exact preview_of_short reads (String.length_toList ▸ Nat.le_of_lt short)

/-- A node has a text exactly if the source file and the node are there and the range of the node is
a part of the file's text between two boundaries, and then the bytes of the one are the bytes of the
range in the other. The preview shows the first hundred characters, which are all if there are no
more, and which come out when the bytes are cut where the next character starts; it shows the
placeholder exactly for a node without text and for the text that is the placeholder. -/
theorem preview_whole (arena : Arena) (file id : NodeId) :
    ((∃ text, arena.nodeText? file id = some text) ↔
      ∃ source header, arena.sourceFile? file = some source ∧ arena.header? id = some header ∧
        header.Covers source.text) ∧
    (∀ text source header, arena.nodeText? file id = some text →
      arena.sourceFile? file = some source → arena.header? id = some header →
      text.toByteArray =
        source.text.toByteArray.extract header.start.toNat header.stop.toNat) ∧
    (arena.preview file id = Limits.noText ↔
      arena.nodeText? file id = none ∨ arena.nodeText? file id = some Limits.noText) ∧
    ∀ text, arena.nodeText? file id = some text →
      (arena.preview file id).toList = text.toList.take (min 100 text.length) ∧
      (∃ rest, text = arena.preview file id ++ rest) ∧
      (text.length ≤ 100 → arena.preview file id = text) ∧
      Text.shorten? text 100 = some (arena.preview file id) := by
  refine ⟨⟨?_, ?_⟩, ?_, preview_eq_noText_iff, ?_⟩
  · rintro ⟨text, reads⟩
    obtain ⟨source, header, atFile, found⟩ := exists_of_nodeText? reads
    rcases nodeText?_cases atFile found with ⟨_, _, covers, _⟩ | ⟨none, _⟩
    · exact ⟨source, header, atFile, found, covers⟩
    · rw [reads] at none
      cases none
  · rintro ⟨source, header, atFile, found, covers⟩
    rcases nodeText?_cases atFile found with ⟨text, reads, _⟩ | ⟨_, uncovered⟩
    · exact ⟨text, reads⟩
    · exact absurd covers uncovered
  · intro text source header reads atFile found
    rcases nodeText?_cases atFile found with ⟨_, again, _, bytes⟩ | ⟨none, _⟩
    · cases reads.symm.trans again
      exact bytes
    · rw [reads] at none
      cases none
  · intro text reads
    have shown : arena.preview file id = String.ofList (text.toList.take 100) :=
      preview_of_text reads
    refine ⟨?_, ⟨String.ofList (text.toList.drop 100), ?_⟩, preview_of_short reads, ?_⟩
    · rw [shown, String.toList_ofList, ← String.length_toList, ← List.take_eq_take_min]
    · rw [shown, ← String.ofList_append, List.take_append_drop, String.ofList_toList]
    · rw [shown]
      exact Text.shorten?_eq text 100

/-- A file with a character of two bytes, a node that covers it, and one that starts inside it. -/
def accented : Arena :=
  { empty with
    nodes :=
      #[⟨Construct.sourceFile.kind, 0, 0, 4, 0⟩,
        ⟨Token.identifier.kind, 0, 1, 3, Header.noPlace⟩,
        ⟨Token.identifier.kind, 0, 2, 4, Header.noPlace⟩]
    origins := .replicate 3 .absent
    sourceFiles := #[⟨"a.ts", "aé;", []⟩] }

/-- One node of the example has the character for its text, and the other one has none. -/
theorem preview_whole_accented :
    let text := accented.nodeText? (.ofPosition 0)
    (text (.ofPosition 1) = some "é" ∧
      ("é" : String).toByteArray = ("aé;" : String).toByteArray.extract 1 3 ∧
      Text.shorten? "é" 100 = some (accented.preview (.ofPosition 0) (.ofPosition 1))) ∧
    text (.ofPosition 2) = none ∧
      ¬ Header.Covers ⟨Token.identifier.kind, 0, 2, 4, Header.noPlace⟩ "aé;" := by
  intro text
  have atFile : accented.sourceFile? (.ofPosition 0) = some ⟨"a.ts", "aé;", []⟩ := by
    decide +kernel
  have whole : accented.header? (.ofPosition 1) =
      some ⟨Token.identifier.kind, 0, 1, 3, Header.noPlace⟩ := by decide
  have part : accented.header? (.ofPosition 2) =
      some ⟨Token.identifier.kind, 0, 2, 4, Header.noPlace⟩ := by decide
  have reads : accented.nodeText? (.ofPosition 0) (.ofPosition 1) = some "é" := by decide +kernel
  have cut : accented.nodeText? (.ofPosition 0) (.ofPosition 2) = none := by decide +kernel
  obtain ⟨_, bytes, _, shown⟩ := accented.preview_whole (.ofPosition 0) (.ofPosition 1)
  obtain ⟨there, _, _, _⟩ := accented.preview_whole (.ofPosition 0) (.ofPosition 2)
  obtain ⟨_, _, _, shortened⟩ := shown "é" reads
  have range := bytes _ _ _ reads atFile whole
  simp only [UInt32.reduceToNat] at range
  refine ⟨⟨reads, range, shortened⟩, cut, fun covers => ?_⟩
  obtain ⟨_, again⟩ := there.mpr ⟨_, _, atFile, part, covers⟩
  rw [cut] at again
  cases again

end Arena

end EnumStamp
