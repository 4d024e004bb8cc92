import EnumStamp.Proofs.Tree.Equivalence

/-!
Slots: what similarity says of the single slots of two nodes. The children of a node are compared as
one list, in which the fields of its payload follow one another, so similar nodes can have divided
their children differently. Main statements: payloads that divide equally many children in the same
way fill all their fields alike (`fillings_of_division`), and similar nodes correspond slot for slot
exactly if they divide their children in the same way (`similar_slots`).
-/

set_option autoImplicit false

namespace EnumStamp

namespace Payload

/-- The slots of a payload, field by field; a modifier list may be missing. -/
def fields : Payload → List (Option (List NodeId))
  | .identifier _ => []
  | .literal _ => []
  | .sourceFile file => [some file.statements]
  | .enumeration decl => [decl.modifiers, some [decl.name], some decl.members]
  | .enumMember member => [some [member.name], some [member.initializer]]
  | .computedName expression => [some [expression]]
  | .moduleDecl decl => [decl.modifiers, some [decl.name], some [decl.body]]
  | .doc comment => [some comment.tags]
  | .composite children => [some children]

def held (field : Option (List NodeId)) : List NodeId :=
  (field.getD []).filter NodeId.isPresent

/-- The number of nodes that a field holds, if the field is not missing. -/
def filling (field : Option (List NodeId)) : Option Nat :=
  field.map fun slots => (slots.filter NodeId.isPresent).length

/-- How the children of a payload are divided among its fields. What is left for the last field is
not counted. -/
def division (payload : Payload) : List (Option Nat) :=
  (payload.fields.map filling).dropLast

theorem slots_eq_fields (payload : Payload) :
    payload.slots = payload.fields.flatMap fun field => field.getD [] := by
  cases payload <;> simp [slots, fields]

theorem children_eq_held (payload : Payload) : payload.children = payload.fields.flatMap held := by
  rw [children, slots_eq_fields, List.filter_flatMap]
  rfl

theorem length_held (field : Option (List NodeId)) :
    (held field).length = (filling field).getD 0 := by
  cases field <;> rfl

theorem isSome_filling (field : Option (List NodeId)) :
    (filling field).isSome = field.isSome :=
  Option.isSome_map

theorem filling_some (slots : List NodeId) :
    filling (some slots) = some (slots.filter NodeId.isPresent).length := rfl

/-- The last field gets what is left, so it is filled alike where the others are. -/
theorem fillings_of_division {payload other : Payload}
    (category : payload.category = other.category)
    (count : payload.children.length = other.children.length)
    (division : payload.division = other.division) :
    payload.fields.map filling = other.fields.map filling := by
  rw [children_eq_held, children_eq_held] at count
  unfold Payload.division at division
  cases payload <;> cases other <;> simp only [Payload.category, reduceCtorEq] at category
  all_goals
    simp only [fields, List.map_cons, List.map_nil, List.dropLast_cons_cons,
      List.dropLast_singleton, List.cons.injEq, and_true, List.flatMap_cons, List.flatMap_nil,
      List.append_nil, List.length_append, length_held, filling_some, Option.getD_some,
      Option.some.injEq] at division count ⊢
  case sourceFile.sourceFile | computedName.computedName | doc.doc | composite.composite =>
    exact count
  -- With several fields, the last length is what is left of the count.
  case enumMember.enumMember => exact ⟨division, by omega⟩
  case enumeration.enumeration | moduleDecl.moduleDecl =>
    obtain ⟨modifiers, name⟩ := division
    rw [modifiers] at count
    exact ⟨modifiers, name, by omega⟩

/-- A payload without children has nothing in any field. -/
theorem held_of_children_nil {payload : Payload} (none : payload.children = []) :
    ∀ field ∈ payload.fields, held field = [] := by
  rw [children_eq_held] at none
  exact List.flatMap_eq_nil_iff.mp none

/-- Payloads of one category have equally many fields. -/
theorem length_fields {payload other : Payload} (category : payload.category = other.category) :
    payload.fields.length = other.fields.length := by
  cases payload <;> cases other <;> simp only [Payload.category, reduceCtorEq] at category
  all_goals rfl

theorem division_of_single {payload : Payload} (single : payload.fields.length ≤ 1) :
    payload.division = [] := by
  apply List.eq_nil_of_length_eq_zero
  rw [division, List.length_dropLast, List.length_map]
  omega

/-- A field and its counterpart: either both are missing or neither is, and what they hold is
related one for one. -/
def Corresponds (relation : NodeId → NodeId → Prop) (field counterpart : Option (List NodeId)) :
    Prop :=
  field.isSome = counterpart.isSome ∧ List.Forall₂ relation (held field) (held counterpart)

section Corresponds

variable {relation : NodeId → NodeId → Prop}

theorem filling_eq {field counterpart : Option (List NodeId)}
    (same : Corresponds relation field counterpart) : filling field = filling counterpart := by
  obtain ⟨there, paired⟩ := same
  have count := paired.length_eq
  rw [length_held, length_held] at count
  cases field <;> cases counterpart <;> simp [filling] at there count ⊢
  exact count

theorem corresponds_of_filling {field counterpart : Option (List NodeId)}
    (same : filling field = filling counterpart)
    (paired : List.Forall₂ relation (held field) (held counterpart)) :
    Corresponds relation field counterpart := by
  refine ⟨?_, paired⟩
  rw [← isSome_filling, same, isSome_filling]

/-- Fields that are filled alike correspond, if all that they hold is related one for one. -/
theorem forall₂_corresponds {fields counterparts : List (Option (List NodeId))}
    (fillings : fields.map filling = counterparts.map filling)
    (paired : List.Forall₂ relation (fields.flatMap held) (counterparts.flatMap held)) :
    List.Forall₂ (Corresponds relation) fields counterparts := by
  induction fields generalizing counterparts with
  | nil =>
    rw [List.map_eq_nil_iff.mp fillings.symm]
    exact .nil
  | cons field fields ih =>
    cases counterparts with
    | nil => cases fillings
    | cons counterpart counterparts =>
      obtain ⟨here, others⟩ := List.cons.inj fillings
      have count : (held field).length = (held counterpart).length := by
        rw [length_held, length_held, here]
      rw [List.flatMap_cons, List.flatMap_cons] at paired
      -- Fields of one length end at the same place of the two lists.
      have first := List.forall₂_take (held field).length paired
      have rest := List.forall₂_drop (held field).length paired
      rw [List.take_left, count, List.take_left] at first
      rw [List.drop_left, count, List.drop_left] at rest
      exact .cons (corresponds_of_filling here first) (ih others rest)

end Corresponds

end Payload

namespace Arena

/-- The fields of two payloads of one category correspond, and the nodes that they hold are
similar. -/
def SlotForSlot (arena : Arena) (payload other : Payload) : Prop :=
  payload.category = other.category ∧
    List.Forall₂ (Payload.Corresponds arena.Similar) payload.fields other.fields

theorem category_of_payload? {arena : Arena} {id : NodeId} {payload : Payload}
    (stored : arena.payload? id = some payload) :
    ∃ kind, arena.kind? id = some kind ∧ kind.category = payload.category := by
  obtain ⟨header, found, atHeader⟩ := Option.bind_eq_some_iff.mp stored
  exact ⟨header.kind, by rw [kind?, found, Option.map_some], category_of_payloadAt? atHeader⟩

section Similar

variable {arena : Arena} (sound : arena.WellFormed) {left right : NodeId}
  (similar : arena.Similar left right)

include sound similar

theorem Similar.category_eq {payload other : Payload} (stored : arena.payload? left = some payload)
    (storedOther : arena.payload? right = some other) : payload.category = other.category := by
  obtain ⟨kind, found, suits⟩ := category_of_payload? stored
  obtain ⟨kindOther, foundOther, suitsOther⟩ := category_of_payload? storedOther
  have kinds := ((similar_iff sound (has_of_kind found) (has_of_kind foundOther)).mp similar).1
  rw [found, foundOther, Option.some.injEq] at kinds
  rw [← suits, ← suitsOther, kinds]

/-- Similar nodes correspond slot for slot just if they divide their children in the same way. -/
theorem Similar.slotForSlot_iff {payload other : Payload}
    (stored : arena.payload? left = some payload) (storedOther : arena.payload? right = some other) :
    arena.SlotForSlot payload other ↔ payload.division = other.division := by
  have category := similar.category_eq sound stored storedOther
  obtain ⟨_, found, _⟩ := category_of_payload? stored
  obtain ⟨_, foundOther, _⟩ := category_of_payload? storedOther
  obtain ⟨_, _, paired⟩ :=
    (similar_iff sound (has_of_kind found) (has_of_kind foundOther)).mp similar
  rw [children_of_payload stored, children_of_payload storedOther] at paired
  constructor
  · rintro ⟨_, fields⟩
    have fillings : payload.fields.map Payload.filling = other.fields.map Payload.filling :=
      map_eq_map_iff_forall₂.mpr (fields.imp fun _ _ => Payload.filling_eq)
    rw [Payload.division, Payload.division, fillings]
  · intro division
    have fillings := Payload.fillings_of_division category paired.length_eq division
    rw [Payload.children_eq_held, Payload.children_eq_held] at paired
    exact ⟨category, Payload.forall₂_corresponds fillings paired⟩

theorem Similar.slotForSlot_of_single {payload other : Payload}
    (stored : arena.payload? left = some payload) (storedOther : arena.payload? right = some other)
    (single : payload.fields.length ≤ 1) : arena.SlotForSlot payload other := by
  have same := Payload.length_fields (similar.category_eq sound stored storedOther)
  rw [similar.slotForSlot_iff sound stored storedOther, Payload.division_of_single single,
    Payload.division_of_single (same ▸ single)]

/-- What is similar to a node without a payload has nothing in any field. -/
theorem Similar.held_eq_nil {other : Payload} (has : arena.Has left)
    (bare : arena.payload? left = none) (storedOther : arena.payload? right = some other) :
    ∀ field ∈ other.fields, Payload.held field = [] := by
  obtain ⟨_, foundOther, _⟩ := category_of_payload? storedOther
  obtain ⟨_, _, paired⟩ := (similar_iff sound has (has_of_kind foundOther)).mp similar
  have leaf : arena.children left = [] := by simp only [children, bare]
  rw [leaf, children_of_payload storedOther, List.forall₂_nil_left_iff] at paired
  exact Payload.held_of_children_nil paired

end Similar

/-- Of similar nodes, kinds, leaves and all children together are alike. If both have payloads, they
correspond slot for slot just if they divide their children in the same way, as they always do if
there is but one field to divide them among. If only one has a payload, nothing is in its slots. -/
theorem similar_slots {arena : Arena} (sound : arena.WellFormed) {left right : NodeId}
    (has : arena.Has left) (hasOther : arena.Has right) :
    (arena.Similar left right ↔
      arena.kind? left = arena.kind? right ∧ arena.leaf left = arena.leaf right ∧
        List.Forall₂ arena.Similar (arena.children left) (arena.children right)) ∧
    (∀ payload other, arena.payload? left = some payload → arena.payload? right = some other →
      arena.Similar left right →
        (arena.SlotForSlot payload other ↔ payload.division = other.division) ∧
        (payload.fields.length ≤ 1 → arena.SlotForSlot payload other)) ∧
    (∀ payload, arena.payload? left = some payload → arena.payload? right = none →
      arena.Similar left right → ∀ field ∈ payload.fields, Payload.held field = []) ∧
    ∀ other, arena.payload? left = none → arena.payload? right = some other →
      arena.Similar left right → ∀ field ∈ other.fields, Payload.held field = [] := by
  refine ⟨similar_iff sound has hasOther, ?_, ?_, ?_⟩
  · intro payload other stored storedOther similar
    exact ⟨similar.slotForSlot_iff sound stored storedOther,
      similar.slotForSlot_of_single sound stored storedOther⟩
  · intro payload stored bare similar
    exact ((similar_equivalence sound).symm similar).held_eq_nil sound hasOther bare stored
  · intro other bare storedOther similar
    exact similar.held_eq_nil sound has bare storedOther

/-- Two modules with one name, without a modifier list and with an empty one, and two members, one
that has the name for its name and one that has it for its initializer. The last two nodes are a
module without a payload and one whose slots are empty. -/
def loose : Arena :=
  { empty with
    nodes :=
      #[⟨Token.identifier.kind, 0, 0, 1, 0⟩,
        ⟨Construct.moduleDeclaration.kind, 0, 0, 1, 0⟩,
        ⟨Construct.moduleDeclaration.kind, 0, 0, 1, 1⟩,
        ⟨Construct.enumMember.kind, 0, 0, 1, 0⟩,
        ⟨Construct.enumMember.kind, 0, 0, 1, 1⟩,
        ⟨Construct.moduleDeclaration.kind, 0, 0, 1, Header.noPlace⟩,
        ⟨Construct.moduleDeclaration.kind, 0, 0, 1, 2⟩]
    origins := .replicate 7 .absent
    identifiers := #["N"]
    enumMembers := #[⟨.ofPosition 0, .absent⟩, ⟨.absent, .ofPosition 0⟩]
    modules :=
      #[⟨none, .ofPosition 0, .absent⟩, ⟨some [], .ofPosition 0, .absent⟩,
        ⟨some [], .absent, .absent⟩] }

/-- The members of the example have the same child in different slots. The members of the other one
have theirs in the same slot. The last module is similar to the one without a payload. -/
theorem similar_slots_loose :
    (loose.WellFormed ∧
      loose.payload? (.ofPosition 3) = some (.enumMember ⟨.ofPosition 0, .absent⟩) ∧
      loose.payload? (.ofPosition 4) = some (.enumMember ⟨.absent, .ofPosition 0⟩) ∧
      loose.Similar (.ofPosition 3) (.ofPosition 4) ∧
      ¬ loose.SlotForSlot (.enumMember ⟨.ofPosition 0, .absent⟩)
        (.enumMember ⟨.absent, .ofPosition 0⟩) ∧
      twins.SlotForSlot (.enumMember ⟨.ofPosition 0, .absent⟩)
        (.enumMember ⟨.ofPosition 2, .absent⟩)) ∧
    loose.payload? (.ofPosition 5) = none ∧ loose.Similar (.ofPosition 5) (.ofPosition 6) ∧
      ∀ field ∈ [some [], some [.absent], some [.absent]], Payload.held field = [] := by
  have sound : loose.WellFormed := by decide
  have named : loose.payload? (.ofPosition 3) =
      some (.enumMember ⟨.ofPosition 0, .absent⟩) := by decide
  have valued : loose.payload? (.ofPosition 4) =
      some (.enumMember ⟨.absent, .ofPosition 0⟩) := by decide
  have member : loose.Has (.ofPosition 3) := has_iff.mpr (by decide)
  have another : loose.Has (.ofPosition 4) := has_iff.mpr (by decide)
  obtain ⟨alike, divided, _⟩ := similar_slots sound member another
  have similar : loose.Similar (.ofPosition 3) (.ofPosition 4) := by
    rw [alike]
    decide +kernel
  have soundTwins : twins.WellFormed := by decide
  have one : twins.Has (.ofPosition 1) := has_iff.mpr (by decide)
  have two : twins.Has (.ofPosition 3) := has_iff.mpr (by decide)
  obtain ⟨_, dividedTwins, _⟩ := similar_slots soundTwins one two
  have similarTwins : twins.Similar (.ofPosition 1) (.ofPosition 3) := by decide +kernel
  have bare : loose.payload? (.ofPosition 5) = none := by decide
  have hasBare : loose.Has (.ofPosition 5) := has_iff.mpr (by decide)
  have hasEmpty : loose.Has (.ofPosition 6) := has_iff.mpr (by decide)
  obtain ⟨_, _, _, nothing⟩ := similar_slots sound hasBare hasEmpty
  have similarEmpty : loose.Similar (.ofPosition 5) (.ofPosition 6) := by decide +kernel
  refine ⟨⟨sound, named, valued, similar, ?_, ?_⟩, bare, similarEmpty,
    nothing (.moduleDecl ⟨some [], .absent, .absent⟩) bare (by decide) similarEmpty⟩
  · rw [(divided _ _ named valued similar).1]
    decide
  · rw [(dividedTwins _ _ (by decide) (by decide) similarTwins).1]
    decide

/-- There are similar nodes that do not correspond slot for slot: two modules of which only one has
a modifier list. -/
theorem similar_of_other_slots :
    ¬ ∀ arena : Arena, arena.WellFormed → ∀ left right payload other,
      arena.payload? left = some payload → arena.payload? right = some other →
        arena.Similar left right → arena.SlotForSlot payload other := by
  intro claim
  have similar : loose.Similar (.ofPosition 1) (.ofPosition 2) := by decide +kernel
  obtain ⟨_, fields⟩ := claim loose (by decide) (.ofPosition 1) (.ofPosition 2)
    (.moduleDecl ⟨none, .ofPosition 0, .absent⟩) (.moduleDecl ⟨some [], .ofPosition 0, .absent⟩)
    (by decide) (by decide) similar
  obtain ⟨⟨there, _⟩, _⟩ := List.forall₂_cons.mp fields
  exact absurd there (by decide)

end Arena

end EnumStamp
