import EnumStamp.Proofs.Tree.Basic

set_option autoImplicit false

namespace EnumStamp.Arena

/-- An update that changes something makes a copy. -/
theorem update_of_ne {arena : Arena} {id : NodeId} {header : Header} {payload edited : Payload}
    {edit : Payload → Option Payload} (found : arena.header? id = some header)
    (stored : arena.payloadAt? header = some payload) (edits : edit payload = some edited)
    (differs : edited ≠ payload) : arena.update id edit = arena.appendWith header edited id := by
  rw [update_eq found stored edits, if_neg differs]

/-- After an update there is a node of the old kind with the new payload. -/
theorem stored_update {arena : Arena} {id : NodeId} {header : Header} {payload edited : Payload}
    {edit : Payload → Option Payload} (fits : (arena.update id edit).1.Fits)
    (found : arena.header? id = some header) (stored : arena.payloadAt? header = some payload)
    (edits : edit payload = some edited) (same : edited.category = payload.category) :
    ∃ copy, (arena.update id edit).1.header? (arena.update id edit).2 = some copy ∧
      copy.kind = header.kind ∧ (arena.update id edit).1.payloadAt? copy = some edited := by
  rw [update_eq found stored edits] at fits ⊢
  by_cases unchanged : edited = payload
  · rw [if_pos unchanged, unchanged]
    exact ⟨header, found, rfl, stored⟩
  · rw [if_neg unchanged] at fits ⊢
    have room := fits.of_extends (extends_appendWith arena header edited id)
    have suits : header.kind.category = edited.category := by
      rw [same, category_of_payloadAt? stored]
    exact ⟨_, header?_appendWith room, rfl, payloadAt?_placedHeader room id suits⟩

/-- The slots that hold a node after as many replacements as children are the replacements that are
nodes. -/
theorem filter_fillPresent {slots replacements : List NodeId}
    (count : replacements.length = (slots.filter NodeId.isPresent).length) :
    (Payload.fillPresent slots replacements).filter NodeId.isPresent =
      replacements.filter NodeId.isPresent := by
  induction slots generalizing replacements with
  | nil =>
    cases List.eq_nil_of_length_eq_zero count
    rfl
  | cons slot slots ih =>
    by_cases filled : slot.isPresent = true
    · rw [List.filter_cons_of_pos filled, List.length_cons] at count
      cases replacements with
      | nil => cases count
      | cons replacement replacements =>
        have held : slot.isAbsent = false := by simpa [NodeId.isPresent] using filled
        simp only [Payload.fillPresent, held, Bool.false_eq_true, if_false]
        rw [List.filter_cons, List.filter_cons, ih (Nat.succ.inj count)]
    · rw [List.filter_cons_of_neg filled] at count
      have empty : slot.isAbsent = true := by simpa [NodeId.isPresent] using filled
      cases replacements with
      | nil =>
        rw [fillPresent_nil, List.filter_cons_of_neg filled]
        exact List.eq_nil_of_length_eq_zero count.symm
      | cons replacement replacements =>
        simp only [Payload.fillPresent, empty, if_true]
        rw [List.filter_cons_of_neg filled, ih count]

theorem children_withChildren (payload : Payload) {replacements : List NodeId}
    (count : replacements.length = payload.children.length) :
    (payload.withChildren replacements).children = replacements.filter NodeId.isPresent := by
  rw [Payload.children, Payload.withChildren,
    payload.slots_withSlots _ (Payload.length_fillPresent payload.slots replacements)]
  exact filter_fillPresent count

/-- A payload that is given other children is another one, also if some of them are absent. -/
theorem withChildren_ne (payload : Payload) {replacements : List NodeId}
    (count : replacements.length = payload.children.length)
    (differs : replacements ≠ payload.children) : payload.withChildren replacements ≠ payload := by
  intro unchanged
  have contents := children_withChildren payload count
  rw [unchanged] at contents
  have all : (replacements.filter NodeId.isPresent).length = replacements.length := by
    rw [← contents, count]
  rw [List.filter_eq_self.mpr (List.length_filter_eq_length_iff.mp all)] at contents
  exact differs contents.symm

/-- Giving a node as many children as it has, but not the same, makes a copy of it. -/
theorem updateChildren_eq_appendWith {arena : Arena} {id : NodeId} {replacements : List NodeId}
    (count : replacements.length = (arena.children id).length)
    (differs : replacements ≠ arena.children id) :
    ∃ header payload, arena.header? id = some header ∧ arena.payloadAt? header = some payload ∧
      replacements.length = payload.children.length ∧
      arena.updateChildren id replacements =
        arena.appendWith header (payload.withChildren replacements) id := by
  have has : arena.Has id := by
    refine Classical.byContradiction fun missing => ?_
    rw [children_eq_nil_of_not_has missing] at count differs
    exact differs (List.eq_nil_of_length_eq_zero count)
  obtain ⟨header, found⟩ := has.header
  have same := children_of_header found
  have updates : arena.updateChildren id replacements =
      arena.update id fun payload => some (payload.withChildren replacements) := by
    rw [updateChildren]
    refine if_neg ?_
    rintro (own | other)
    · exact differs own.symm
    · exact other count.symm
  cases stored : arena.payloadAt? header with
  | none =>
    rw [same, childrenAt, stored] at count differs
    exact absurd (List.eq_nil_of_length_eq_zero count) differs
  | some payload =>
    rw [same, childrenAt, stored] at count differs
    exact ⟨header, payload, found, stored, count,
      updates.trans (update_of_ne found stored rfl (withChildren_ne payload count differs))⟩

/-- A node that is given as many children as it has, but not the same, is copied with them. -/
theorem updateChildren_of_ne {arena : Arena} {id : NodeId} {replacements : List NodeId}
    (count : replacements.length = (arena.children id).length)
    (present : ∀ replacement ∈ replacements, replacement.isPresent = true)
    (differs : replacements ≠ arena.children id)
    (fits : (arena.updateChildren id replacements).1.Fits) :
    (arena.updateChildren id replacements).1.size = arena.size + 1 ∧
      (arena.updateChildren id replacements).2.position = arena.size ∧
      (arena.updateChildren id replacements).1.Has (arena.updateChildren id replacements).2 ∧
      (arena.updateChildren id replacements).1.children
        (arena.updateChildren id replacements).2 = replacements := by
  obtain ⟨header, payload, _, stored, same, copied⟩ := updateChildren_eq_appendWith count differs
  rw [copied] at fits ⊢
  have room := fits.of_extends (extends_appendWith arena header _ id)
  have suits : header.kind.category = (payload.withChildren replacements).category :=
    (category_of_payloadAt? stored).trans (payload.category_withChildren replacements).symm
  refine ⟨size_appendWith .., position_appendWith room, has_appendWith room, ?_⟩
  rw [children_of_header (header?_appendWith room), childrenAt,
    payloadAt?_placedHeader room id suits]
  exact (children_withChildren payload same).trans (List.filter_eq_self.mpr present)

/-- A node that is given as many children as it has has them afterwards. -/
theorem children_updateChildren {arena : Arena} {id : NodeId} {replacements : List NodeId}
    (count : replacements.length = (arena.children id).length)
    (present : ∀ replacement ∈ replacements, replacement.isPresent = true)
    (fits : (arena.updateChildren id replacements).1.Fits) :
    (arena.updateChildren id replacements).1.children
      (arena.updateChildren id replacements).2 = replacements := by
  by_cases own : replacements = arena.children id
  · rw [own, updateChildren_children]
  · exact (updateChildren_of_ne count present own fits).2.2.2

end EnumStamp.Arena
