import EnumStamp.Proofs.Arena.Lineage

set_option autoImplicit false

namespace EnumStamp

/-- What the payload of a node says of its children. -/
inductive ChildFields where
  | sourceFile (statements : List NodeId)
  | enumeration (decl : EnumDecl)
  | enumMember (member : EnumMember)
  | computedName (expression : NodeId)
  | moduleDecl (decl : ModuleDecl)
  | doc (tags : List NodeId)
  | composite (children : List NodeId)
  deriving DecidableEq

def ChildFields.category : ChildFields → Category
  | .sourceFile _ => .sourceFile
  | .enumeration _ => .enumeration
  | .enumMember _ => .enumMember
  | .computedName _ => .computedName
  | .moduleDecl _ => .moduleDecl
  | .doc _ => .doc
  | .composite _ => .composite

namespace Payload

/-- The child fields of a payload; identifiers and literals have none. -/
def childFields? : Payload → Option ChildFields
  | .identifier _ => none
  | .literal _ => none
  | .sourceFile file => some (.sourceFile file.statements)
  | .enumeration decl => some (.enumeration decl)
  | .enumMember member => some (.enumMember member)
  | .computedName expression => some (.computedName expression)
  | .moduleDecl decl => some (.moduleDecl decl)
  | .doc comment => some (.doc comment.tags)
  | .composite children => some (.composite children)

def texts : Payload → List String
  | .identifier text => [text]
  | .literal text => [text]
  | .sourceFile file => [file.name, file.text]
  | .doc comment => [comment.comment]
  | _ => []

/-- The payload with other child fields, if it is of their category. -/
def withFields? : Payload → ChildFields → Option Payload
  | .sourceFile file, .sourceFile statements => some (.sourceFile { file with statements })
  | .enumeration _, .enumeration decl => some (.enumeration decl)
  | .enumMember _, .enumMember member => some (.enumMember member)
  | .computedName _, .computedName expression => some (.computedName expression)
  | .moduleDecl _, .moduleDecl decl => some (.moduleDecl decl)
  | .doc comment, .doc tags => some (.doc { comment with tags })
  | .composite _, .composite children => some (.composite children)
  | _, _ => none

variable {payload other : Payload} {fields : ChildFields}

theorem category_of_childFields? (holds : payload.childFields? = some fields) :
    payload.category = fields.category := by
  cases payload <;> cases holds <;> rfl

/-- Child fields and texts are all there is in a payload that has child fields. -/
theorem eq_of_childFields? (holds : payload.childFields? = some fields)
    (same : other.childFields? = some fields) (texts : payload.texts = other.texts) :
    payload = other := by
  rw [← holds] at same
  cases payload <;> cases other <;>
    simp only [childFields?, reduceCtorEq, Option.some.injEq, ChildFields.sourceFile.injEq,
      ChildFields.enumeration.injEq, ChildFields.enumMember.injEq, ChildFields.computedName.injEq,
      ChildFields.moduleDecl.injEq, ChildFields.doc.injEq, ChildFields.composite.injEq] at holds same
  case sourceFile.sourceFile file other =>
    obtain ⟨name, text, statements⟩ := file
    obtain ⟨_, _, _⟩ := other
    cases same
    cases texts
    rfl
  case doc.doc comment other =>
    obtain ⟨comment, tags⟩ := comment
    obtain ⟨_, _⟩ := other
    cases same
    cases texts
    rfl
  all_goals rw [same]

/-- A payload of the category gets the fields and keeps its texts. -/
theorem exists_withFields? (category : payload.category = fields.category) :
    ∃ changed, payload.withFields? fields = some changed ∧
      changed.childFields? = some fields ∧ changed.texts = payload.texts := by
  cases payload <;> cases fields <;>
    simp only [Payload.category, ChildFields.category, reduceCtorEq] at category
  all_goals exact ⟨_, rfl, rfl, rfl⟩

theorem withFields?_of_ne (category : payload.category ≠ fields.category) :
    payload.withFields? fields = none := by
  cases payload <;> cases fields <;>
    simp only [Payload.category, ChildFields.category, ne_eq, not_true_eq_false] at category
  all_goals rfl

end Payload

namespace Arena

/-- The update of the category of some child fields, which gives these to a node. -/
def amend (arena : Arena) (id : NodeId) : ChildFields → Arena × NodeId
  | .sourceFile statements => arena.updateSourceFile id statements
  | .enumeration decl => arena.updateEnum id decl
  | .enumMember member => arena.updateEnumMember id member
  | .computedName expression => arena.updateComputedName id expression
  | .moduleDecl decl => arena.updateModule id decl
  | .doc tags => arena.updateDoc id tags
  | .composite children => arena.updateComposite id children

theorem amend_eq_update (arena : Arena) (id : NodeId) (fields : ChildFields) :
    arena.amend id fields = arena.update id fun payload => payload.withFields? fields := by
  cases fields <;>
    simp only [amend, updateSourceFile, updateEnum, updateEnumMember, updateComputedName,
      updateModule, updateDoc, updateComposite]
  all_goals
    congr 1
    funext payload
    cases payload <;> rfl

/-- Whether a header is of a category and has its payload in the pool of it. -/
def HasData (arena : Arena) (header : Header) (category : Category) : Prop :=
  header.hasPlace = true ∧ header.kind.category = category ∧
    header.place.toNat < arena.poolSize category

theorem hasData_iff {arena : Arena} {header : Header} {category : Category} :
    arena.HasData header category ↔
      ∃ payload, arena.payloadAt? header = some payload ∧ payload.category = category := by
  constructor
  · rintro ⟨placed, rfl, inside⟩
    obtain ⟨payload, stored⟩ :=
      Option.isSome_iff_exists.mp ((pooled?_isSome_iff arena _ _).mpr inside)
    have found : arena.payloadAt? header = some payload := by
      rw [payloadAt?, if_pos placed, stored]
    exact ⟨payload, found, (category_of_payloadAt? found).symm⟩
  · rintro ⟨payload, found, rfl⟩
    have category := category_of_payloadAt? found
    unfold payloadAt? at found
    split at found
    · rename_i placed
      have inside := (pooled?_isSome_iff arena _ _).mp (Option.isSome_iff_exists.mpr ⟨_, found⟩)
      exact ⟨placed, category, category ▸ inside⟩
    · cases found

/-- Why an amendment has nothing to do. -/
inductive Idle (arena : Arena) (id : NodeId) (fields : ChildFields) : Prop where
  | missing (none : ¬ arena.Has id)
  /-- The node is of another category, or its payload is not in the pool. -/
  | bare {header : Header} (found : arena.header? id = some header)
      (noData : ¬ arena.HasData header fields.category)
  | own {payload : Payload} (stored : arena.payload? id = some payload)
      (holds : payload.childFields? = some fields)

/-- What is to be done for a node with a payload of the category and with other fields. -/
structure Pending (arena : Arena) (id : NodeId) (fields : ChildFields) (header : Header)
    (payload changed : Payload) : Prop where
  found : arena.header? id = some header
  stored : arena.payloadAt? header = some payload
  suits : payload.category = fields.category
  other : payload.childFields? ≠ some fields
  holds : changed.childFields? = some fields
  texts : changed.texts = payload.texts

/-- An amendment has nothing to do, or it makes a copy. -/
theorem amend_cases (arena : Arena) (id : NodeId) (fields : ChildFields) :
    arena.Idle id fields ∧ arena.amend id fields = (arena, id) ∨
      ∃ header payload changed, arena.Pending id fields header payload changed ∧
        arena.amend id fields = arena.appendWith header changed id := by
  rw [amend_eq_update]
  cases found : arena.header? id with
  | none =>
    have missing : ¬ arena.Has id := by simp [Has, found]
    exact .inl ⟨.missing missing, by simp only [update, found]⟩
  | some header =>
    cases stored : arena.payloadAt? header with
    | none =>
      have noData : ¬ arena.HasData header fields.category := by
        rw [hasData_iff, stored]
        rintro ⟨_, none, _⟩
        cases none
      exact .inl ⟨.bare found noData, by simp only [update, found, stored]⟩
    | some payload =>
      by_cases suits : payload.category = fields.category
      · obtain ⟨changed, edits, holds, texts⟩ := Payload.exists_withFields? suits
        by_cases own : payload.childFields? = some fields
        · have same : changed = payload := Payload.eq_of_childFields? holds own texts
          have atId : arena.payload? id = some payload := (payload?_of_header? found).trans stored
          refine .inl ⟨.own atId own, ?_⟩
          rw [update_eq found stored edits, if_pos same]
        · have differs : changed ≠ payload := by
            rintro rfl
            exact own holds
          refine .inr ⟨header, payload, changed, ⟨found, stored, suits, own, holds, texts⟩, ?_⟩
          rw [update_eq found stored edits, if_neg differs]
      · have noData : ¬ arena.HasData header fields.category := by
          rw [hasData_iff, stored]
          rintro ⟨_, ⟨⟩, same⟩
          exact suits same
        have declines := Payload.withFields?_of_ne suits
        exact .inl ⟨.bare found noData, by simp only [update, found, stored, declines]⟩

theorem Pending.not_idle {arena : Arena} {id : NodeId} {fields : ChildFields} {header : Header}
    {payload changed : Payload} (pending : arena.Pending id fields header payload changed) :
    ¬ arena.Idle id fields := by
  intro idle
  cases idle with
  | missing none => exact none (has_of_header pending.found)
  | bare again noData =>
    cases pending.found.symm.trans again
    exact noData (hasData_iff.mpr ⟨payload, pending.stored, pending.suits⟩)
  | own stored holds =>
    rw [payload?_of_header? pending.found, pending.stored] at stored
    cases stored
    exact pending.other holds

theorem amend_of_idle {arena : Arena} {id : NodeId} {fields : ChildFields}
    (idle : arena.Idle id fields) : arena.amend id fields = (arena, id) := by
  rcases arena.amend_cases id fields with ⟨_, same⟩ | ⟨header, payload, changed, pending, _⟩
  · exact same
  · exact absurd idle pending.not_idle

def pool (arena : Arena) : Category → List Payload
  | .token => []
  | .identifier => arena.identifiers.toList.map .identifier
  | .literal => arena.literals.toList.map .literal
  | .sourceFile => arena.sourceFiles.toList.map .sourceFile
  | .enumeration => arena.enums.toList.map .enumeration
  | .enumMember => arena.enumMembers.toList.map .enumMember
  | .computedName => arena.computedNames.toList.map .computedName
  | .moduleDecl => arena.modules.toList.map .moduleDecl
  | .doc => arena.docs.toList.map .doc
  | .composite => arena.composites.toList.map .composite

theorem pool_appendWith (arena : Arena) (header : Header) (payload : Payload) (origin : NodeId)
    (category : Category) :
    (arena.appendWith header payload origin).1.pool category =
      arena.pool category ++ if category = payload.category then [payload] else [] := by
  cases payload <;> cases category <;> simp [appendWith, append, store, pool, Payload.category]

/-- All that an amendment leaves behind that had something to do: a node at the end, with the header
of the old one but for the place, its origin, and a payload with the new fields and the old texts.
No pool but that of the fields has grown. -/
structure Amends (before : Arena) (id : NodeId) (fields : ChildFields) (after : Arena)
    (result : NodeId) : Prop where
  position : result.position = before.size
  nodes : ∃ header copy, before.header? id = some header ∧ copy.unplaced = header.unplaced ∧
    after.nodes = before.nodes.push copy
  origins : after.origins = before.origins.push id
  pool : ∃ payload changed, before.payload? id = some payload ∧
    changed.childFields? = some fields ∧ changed.texts = payload.texts ∧
    after.pool fields.category = before.pool fields.category ++ [changed] ∧
    after.payload? result = some changed
  others : ∀ category, category ≠ fields.category → after.pool category = before.pool category
  origin : after.origin result = id

theorem Pending.amends {arena : Arena} (paired : arena.origins.size = arena.nodes.size)
    (fits : arena.Fits) {id : NodeId} {fields : ChildFields} {header : Header}
    {payload changed : Payload} (pending : arena.Pending id fields header payload changed) :
    arena.Amends id fields (arena.appendWith header changed id).1
      (arena.appendWith header changed id).2 := by
  have category : changed.category = fields.category :=
    Payload.category_of_childFields? pending.holds
  have suits : header.kind.category = changed.category := by
    rw [category_of_payloadAt? pending.stored, pending.suits, category]
  have atId : arena.payload? id = some payload :=
    (payload?_of_header? pending.found).trans pending.stored
  have atCopy : (arena.appendWith header changed id).1.payload?
      (arena.appendWith header changed id).2 = some changed :=
    (payload?_of_header? (header?_appendWith fits)).trans (payloadAt?_placedHeader fits id suits)
  let copy := arena.placedHeader header changed
  refine ⟨position_appendWith fits, ⟨header, copy, pending.found, rfl, nodes_appendWith⟩,
    origins_appendWith, ⟨payload, changed, atId, pending.holds, pending.texts, ?_, atCopy⟩, ?_,
    origin_appendWith paired fits⟩
  · rw [pool_appendWith, if_pos category.symm]
  · intro other differs
    rw [pool_appendWith, if_neg (category ▸ differs), List.append_nil]

/-- The law of the seven updates. One that finds no node, no payload of its category or its own
fields answers with the node and leaves the arena as it is, and no other does. Any other makes one
copy of the node and changes nothing else. Doing the same to the answer changes nothing. -/
theorem amend_uniform {arena : Arena} (paired : arena.origins.size = arena.nodes.size)
    (fits : arena.Fits) (id : NodeId) (fields : ChildFields) :
    (arena.amend id fields = (arena, id) ↔ arena.Idle id fields) ∧
    (¬ arena.Idle id fields →
      arena.Amends id fields (arena.amend id fields).1 (arena.amend id fields).2) ∧
    (arena.amend id fields).1.amend (arena.amend id fields).2 fields = arena.amend id fields := by
  rcases arena.amend_cases id fields with ⟨idle, same⟩ | ⟨header, payload, changed, pending, copied⟩
  · refine ⟨⟨fun _ => idle, fun _ => same⟩, fun busy => absurd idle busy, ?_⟩
    rw [same]
    exact same
  · have amends := pending.amends paired fits
    rw [copied]
    refine ⟨⟨fun same => ?_, fun idle => absurd idle pending.not_idle⟩, fun _ => amends, ?_⟩
    · have size := size_appendWith arena header changed id
      rw [same] at size
      exact absurd size (Nat.ne_of_lt (Nat.lt_succ_self arena.size))
    · obtain ⟨_, last, _, holds, _, _, stored⟩ := amends.pool
      exact amend_of_idle (.own stored holds)

/-- A member of the example gets an initializer; the name of the enum is no member and gets none. -/
theorem amend_uniform_colors :
    colors.origins.size = colors.nodes.size ∧ colors.Fits ∧
      let fields : ChildFields := .enumMember ⟨.ofPosition 2, .ofPosition 4⟩
      let amended := colors.amend (.ofPosition 3) fields
      (amended.2.position = 7 ∧ amended.1.origin amended.2 = .ofPosition 3 ∧
        (amended.1.payload? amended.2).bind Payload.childFields? = some fields ∧
        amended.1.pool .enumeration = colors.pool .enumeration ∧
        amended.1.amend amended.2 fields = amended) ∧
      colors.amend (.ofPosition 1) fields = (colors, .ofPosition 1) := by
  have paired : colors.origins.size = colors.nodes.size := by decide
  have fits : colors.Fits := by decide
  let fields : ChildFields := .enumMember ⟨.ofPosition 2, .ofPosition 4⟩
  obtain ⟨idle, amends, again⟩ := amend_uniform paired fits (.ofPosition 3) fields
  have busy : ¬ colors.Idle (.ofPosition 3) fields := by
    rw [← idle]
    decide
  obtain ⟨idleName, _, _⟩ := amend_uniform paired fits (.ofPosition 1) fields
  have noMember : ¬ colors.HasData ⟨Token.identifier.kind, 0, 11, 16, 0⟩ .enumMember := by
    rintro ⟨_, category, _⟩
    cases category
  have copied := amends busy
  obtain ⟨_, changed, _, holds, _, _, stored⟩ := copied.pool
  refine ⟨paired, fits, ⟨copied.position, copied.origin, ?_, copied.others _ (by decide), again⟩,
    idleName.mpr (.bare (by decide) noMember)⟩
  exact Option.bind_eq_some_iff.mpr ⟨changed, stored, holds⟩

end Arena

end EnumStamp
