import EnumStamp.Proofs.Arena.Children
import EnumStamp.Proofs.Arena.Ownership

set_option autoImplicit false

namespace EnumStamp

namespace Payload

/-- The lists among the slots; a modifier list may be missing. -/
def lists : Payload → List (Option (List NodeId))
  | .identifier _ => []
  | .literal _ => []
  | .sourceFile file => [some file.statements]
  | .enumeration decl => [decl.modifiers, some decl.members]
  | .enumMember _ => []
  | .computedName _ => []
  | .moduleDecl decl => [decl.modifiers]
  | .doc comment => [some comment.tags]
  | .composite children => [some children]

/-- What a payload is after its children were replaced, one for one. -/
structure Refilled (payload : Payload) (children : List NodeId) (changed : Payload) : Prop where
  /-- All that is no slot stays: texts, names, comments, and whether there is a modifier list. -/
  shape : changed.shape = payload.shape
  /-- Each list is as long as before, and no list is gained or lost. -/
  lists : changed.lists.map (Option.map List.length) = payload.lists.map (Option.map List.length)
  slots : changed.slots.length = payload.slots.length
  empty : ∀ place : Nat, payload.slots[place]? = some .absent → changed.slots[place]? = some .absent
  /-- A slot that holds a node gets the child whose number is that of the nodes before the slot. -/
  filled : ∀ (place : Nat) (slot : NodeId), payload.slots[place]? = some slot →
    slot.isPresent = true →
      ∃ child, changed.slots[place]? = some child ∧
        children[(payload.slots.take place).countP NodeId.isPresent]? = some child

theorem fillPresent_cons_of_absent (slots replacements : List NodeId) :
    fillPresent (.absent :: slots) replacements = .absent :: fillPresent slots replacements := by
  cases replacements with
  | nil => rw [Arena.fillPresent_nil, Arena.fillPresent_nil]
  | cons replacement replacements => rfl

theorem fillPresent_cons_of_present {slot : NodeId} (present : slot.isPresent = true)
    (slots : List NodeId) (replacement : NodeId) (replacements : List NodeId) :
    fillPresent (slot :: slots) (replacement :: replacements) =
      replacement :: fillPresent slots replacements := by
  have held : slot.isAbsent = false := by simpa [NodeId.isPresent] using present
  simp only [fillPresent, held, Bool.false_eq_true, if_false]

/-- Absent slots stay absent. -/
theorem getElem?_fillPresent_of_absent {slots replacements : List NodeId} {place : Nat}
    (empty : slots[place]? = some .absent) :
    (fillPresent slots replacements)[place]? = some .absent := by
  induction slots generalizing replacements place with
  | nil => cases empty
  | cons slot slots ih =>
    cases place with
    | zero =>
      cases empty
      rw [fillPresent_cons_of_absent]
      rfl
    | succ place =>
      by_cases present : slot.isPresent = true
      · cases replacements with
        | nil => rwa [Arena.fillPresent_nil]
        | cons replacement replacements =>
          rw [fillPresent_cons_of_present present]
          exact ih empty
      · have absent : slot = .absent :=
          Decidable.not_not.mp fun filled => present ((NodeId.isPresent_iff slot).mpr filled)
        rw [absent, fillPresent_cons_of_absent]
        exact ih empty

/-- The slots that hold a node get the replacements in turn. -/
theorem getElem?_fillPresent_of_present {slots replacements : List NodeId} {place : Nat}
    (count : replacements.length = slots.countP NodeId.isPresent) {slot : NodeId}
    (found : slots[place]? = some slot) (present : slot.isPresent = true) :
    ∃ child, (fillPresent slots replacements)[place]? = some child ∧
      replacements[(slots.take place).countP NodeId.isPresent]? = some child := by
  induction slots generalizing replacements place with
  | nil => cases found
  | cons first slots ih =>
    by_cases filled : first.isPresent = true
    · rw [List.countP_cons_of_pos filled] at count
      cases replacements with
      | nil => cases count
      | cons replacement replacements =>
        rw [fillPresent_cons_of_present filled]
        cases place with
        | zero => exact ⟨replacement, rfl, rfl⟩
        | succ place =>
          rw [List.take_succ_cons, List.countP_cons_of_pos filled]
          exact ih (Nat.succ.inj count) found
    · rw [List.countP_cons_of_neg filled] at count
      have absent : first = .absent :=
        Decidable.not_not.mp fun held => filled ((NodeId.isPresent_iff first).mpr held)
      cases place with
      | zero =>
        cases found
        exact absurd present filled
      | succ place =>
        rw [List.take_succ_cons, List.countP_cons_of_neg filled, absent,
          fillPresent_cons_of_absent]
        exact ih count found

/-- Payloads of one shape with equally many slots have lists of the same lengths. -/
theorem lengths_lists {payload changed : Payload} (shape : changed.shape = payload.shape)
    (slots : changed.slots.length = payload.slots.length) :
    changed.lists.map (Option.map List.length) = payload.lists.map (Option.map List.length) := by
  cases payload <;> cases changed <;> simp only [Payload.shape, reduceCtorEq] at shape
  case enumeration.enumeration decl other =>
    obtain ⟨modifiers, name, members⟩ := decl
    obtain ⟨others, _, rest⟩ := other
    have lengths : others.map List.length = modifiers.map List.length := by
      injection shape
    cases modifiers <;> cases others <;> simp [Payload.slots, Payload.lists] at lengths slots ⊢
    · exact slots
    · exact ⟨lengths, by omega⟩
  case moduleDecl.moduleDecl decl other =>
    have lengths : other.modifiers.map List.length = decl.modifiers.map List.length := by
      injection shape
    simp only [Payload.lists, List.map_cons, List.map_nil, lengths]
  case sourceFile.sourceFile | doc.doc | composite.composite =>
    exact congrArg (fun count => [some count]) slots
  all_goals rfl

theorem refilled_withChildren (payload : Payload) {children : List NodeId}
    (count : children.length = payload.children.length) :
    payload.Refilled children (payload.withChildren children) := by
  have filled := length_fillPresent payload.slots children
  have contents : (payload.withChildren children).slots = fillPresent payload.slots children :=
    payload.slots_withSlots _ filled
  have shape : (payload.withChildren children).shape = payload.shape :=
    payload.shape_withSlots _ filled
  have slots : (payload.withChildren children).slots.length = payload.slots.length := by
    rw [contents, filled]
  refine ⟨shape, lengths_lists shape slots, slots, ?_, ?_⟩
  · intro place empty
    rw [contents]
    exact getElem?_fillPresent_of_absent empty
  · intro place slot found present
    rw [contents]
    rw [Payload.children, ← List.countP_eq_length_filter] at count
    exact getElem?_fillPresent_of_present count found present

end Payload

namespace Arena

/-- What is read of a node, and of what takes its place, after it was given other children. -/
structure Refills (arena : Arena) (id : NodeId) (children : List NodeId) (after : Arena)
    (result : NodeId) : Prop where
  present : after.children result = children.filter NodeId.isPresent
  /-- All of the header stays but for the place of the payload. -/
  header : ∀ header, arena.header? id = some header → ∃ copy, after.header? result = some copy ∧
    copy.kind = header.kind ∧ copy.flags = header.flags ∧ copy.start = header.start ∧
    copy.stop = header.stop
  payload : ∀ payload, arena.payload? id = some payload → ∃ changed,
    after.payload? result = some changed ∧ payload.Refilled children changed
  /-- A node without payload has nothing to change. -/
  bare : arena.payload? id = none → after = arena ∧ result = id

/-- One node has been added, and one payload in the pool of a category. -/
structure GrowsBy (before : Arena) (category : Category) (after : Arena) : Prop where
  grown : before.Extends after
  nodes : after.nodes.size = before.nodes.size + 1
  origins : after.origins.size = before.origins.size + 1
  pools : ∀ other, after.poolSize other = before.poolSize other + if other = category then 1 else 0

theorem growsBy_appendWith (arena : Arena) (header : Header) (payload : Payload)
    (origin : NodeId) :
    arena.GrowsBy payload.category (arena.appendWith header payload origin).1 where
  grown := extends_appendWith arena header payload origin
  nodes := size_appendWith arena header payload origin
  origins := by rw [origins_appendWith, Array.size_push]
  pools := fun other => (poolSize_append other).trans (poolSize_store other)

/-- A node that keeps its children still reads as it did. -/
theorem refills_same (arena : Arena) (id : NodeId) :
    arena.Refills id (arena.children id) arena id where
  present := by
    rw [List.filter_eq_self.mpr fun child => isPresent_of_mem_children]
  header := fun header found => ⟨header, found, rfl, rfl, rfl, rfl⟩
  payload := by
    intro payload found
    rw [children_of_payload found]
    have refilled := payload.refilled_withChildren rfl
    rw [payload.withChildren_children] at refilled
    exact ⟨payload, found, refilled⟩
  bare := fun _ => ⟨rfl, rfl⟩

/-- So does the copy of a node that is given others. -/
theorem refills_appendWith {arena : Arena} (fits : arena.Fits) {id : NodeId} {header : Header}
    {payload : Payload} {children : List NodeId} (found : arena.header? id = some header)
    (stored : arena.payloadAt? header = some payload)
    (count : children.length = payload.children.length) :
    arena.Refills id children (arena.appendWith header (payload.withChildren children) id).1
      (arena.appendWith header (payload.withChildren children) id).2 := by
  have suits : header.kind.category = (payload.withChildren children).category :=
    (category_of_payloadAt? stored).trans (payload.category_withChildren children).symm
  let copied := arena.appendWith header (payload.withChildren children) id
  have atCopy : copied.1.header? copied.2 =
      some (arena.placedHeader header (payload.withChildren children)) := header?_appendWith fits
  have contents := (payload?_of_header? atCopy).trans (payloadAt?_placedHeader fits id suits)
  have atId : arena.payload? id = some payload := (payload?_of_header? found).trans stored
  refine ⟨?_, ?_, ?_, ?_⟩
  · rw [children_of_payload contents]
    exact children_withChildren payload count
  · intro other again
    cases found.symm.trans again
    exact ⟨_, atCopy, rfl, rfl, rfl, rfl⟩
  · intro other again
    cases atId.symm.trans again
    exact ⟨_, contents, payload.refilled_withChildren count⟩
  · intro none
    rw [atId] at none
    cases none

/-- The laws of the lens. A node that is given its own children, or more or fewer than it has, stays
as it is. Given as many, it is replaced by a node that has them in the places of its own and is the
same otherwise; and if they are others, just this node and its payload are new. -/
theorem updateChildren_lens {arena : Arena} (fits : arena.Fits) (id : NodeId)
    (children : List NodeId) :
    arena.updateChildren id (arena.children id) = (arena, id) ∧
    (children.length ≠ (arena.children id).length →
      arena.updateChildren id children = (arena, id)) ∧
    (children.length = (arena.children id).length →
      arena.Refills id children (arena.updateChildren id children).1
        (arena.updateChildren id children).2) ∧
    (children.length = (arena.children id).length → children ≠ arena.children id →
      ∃ header, arena.header? id = some header ∧
        arena.GrowsBy header.kind.category (arena.updateChildren id children).1) := by
  refine ⟨arena.updateChildren_children id, ?_, ?_, ?_⟩
  · intro other
    rw [updateChildren]
    exact if_pos (.inr fun same => other same.symm)
  · intro count
    by_cases own : children = arena.children id
    · rw [own, updateChildren_children]
      exact arena.refills_same id
    · obtain ⟨header, payload, found, stored, same, copied⟩ :=
        updateChildren_eq_appendWith count own
      rw [copied]
      exact refills_appendWith fits found stored same
  · intro count differs
    obtain ⟨header, payload, found, stored, _, copied⟩ :=
      updateChildren_eq_appendWith count differs
    have category : header.kind.category = (payload.withChildren children).category :=
      (category_of_payloadAt? stored).trans (payload.category_withChildren children).symm
    refine ⟨header, found, ?_⟩
    rw [copied, category]
    exact arena.growsBy_appendWith header _ id

/-- The declaration of the example has a modifier, a name and two members. With the first member in
the place of the name, no node in its own place and the other member twice, three children are
left. -/
theorem updateChildren_lens_colors :
    Arena.colors.Fits ∧
      let children : List NodeId := [.ofPosition 0, .ofPosition 3, .absent, .ofPosition 5]
      let updated := Arena.colors.updateChildren (.ofPosition 6) children
      updated.1.children updated.2 = [.ofPosition 0, .ofPosition 3, .ofPosition 5] ∧
        updated.1.poolSize .enumeration = 2 := by
  have fits : Arena.colors.Fits := by decide
  obtain ⟨_, _, refills, grows⟩ := updateChildren_lens fits (.ofPosition 6)
    [.ofPosition 0, .ofPosition 3, .absent, .ofPosition 5]
  obtain ⟨header, found, grown⟩ := grows (by decide) (by decide)
  have isEnum : header.kind.category = .enumeration := by
    have same : Arena.colors.header? (.ofPosition 6) =
        some ⟨Construct.enumDeclaration.kind, 0, 0, 32, 0⟩ := by decide
    cases found.symm.trans same
    rfl
  refine ⟨fits, (refills (by decide)).present.trans (by decide), ?_⟩
  rw [grown.pools, isEnum]
  decide

end Arena

end EnumStamp
