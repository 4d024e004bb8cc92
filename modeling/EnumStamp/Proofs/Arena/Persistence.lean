import Mathlib.Data.List.Basic
import EnumStamp.Arena.Similar
import EnumStamp.Proofs.Arena.Copies

/-!
Persistence: what is asked about the nodes of an arena has the same answer in every extension, as
long as the references between those nodes lead nowhere else. They may run in circles. Main
statement: `Extends.keeps`.
-/

set_option autoImplicit false

namespace EnumStamp.Arena

/-- Every reference of the arena leads to one of its entries. -/
structure Closed (arena : Arena) : Prop where
  paired : arena.origins.size = arena.nodes.size
  placed : ∀ header ∈ arena.nodes, arena.isPlaced header = true
  children : ∀ id, ∀ child ∈ arena.children id, arena.Has child
  origins : ∀ id, (arena.origin id).isPresent = true → arena.Has (arena.origin id)

/-- What is known about the node `id` of the first arena is also true of it in the second. -/
structure Keeps (before after : Arena) (id : NodeId) : Prop where
  header? : after.header? id = before.header? id
  kind? : after.kind? id = before.kind? id
  payload? : after.payload? id = before.payload? id
  identifierText? : after.identifierText? id = before.identifierText? id
  literalText? : after.literalText? id = before.literalText? id
  sourceFile? : after.sourceFile? id = before.sourceFile? id
  enumDecl? : after.enumDecl? id = before.enumDecl? id
  enumMember? : after.enumMember? id = before.enumMember? id
  children : after.children id = before.children id
  origin : after.origin id = before.origin id
  followOrigins : ∀ steps, after.followOrigins steps id = before.followOrigins steps id
  parsedNode? : ∀ parsed, before.parsedNode? id = some parsed → after.parsedNode? id = some parsed
  declModifiers : after.declModifiers id = before.declModifiers id
  isConstEnum : after.isConstEnum id = before.isConstEnum id
  enumName? : after.enumName? id = before.enumName? id
  memberName? : after.memberName? id = before.memberName? id
  nodeText? : ∀ file, before.Has file → after.nodeText? file id = before.nodeText? file id
  preview : ∀ file, before.Has file → after.preview file id = before.preview file id
  /-- A comparison with another node takes the same steps, whether it comes to an end or not. -/
  compare : ∀ other, before.Has other → ∀ steps,
    after.compare steps [(id, other)] = before.compare steps [(id, other)]

theorem WellFormed.closed {arena : Arena} (sound : arena.WellFormed) : arena.Closed where
  paired := sound.paired
  placed := sound.placed
  children := fun _ _ member => sound.child_has member
  origins := by
    intro id present
    unfold origin at present ⊢
    split at present
    · cases present
    · rename_i filled
      rw [if_neg filled]
      cases stored : arena.origins[id.position]? with
      | none =>
        rw [stored] at present
        cases present
      | some source =>
        rw [stored, Option.getD_some] at present
        obtain ⟨inside, same⟩ := Array.getElem?_eq_some_iff.mp stored
        have lower := sound.derived id.position inside (same ▸ present)
        rw [same] at lower
        have paired := sound.paired
        rw [Option.getD_some, has_iff, size]
        exact ⟨present, by omega⟩

theorem Closed.holds_slot {arena : Arena} (closed : arena.Closed) {id slot : NodeId}
    {payload : Payload} (stored : arena.payload? id = some payload)
    (member : slot ∈ payload.slots) : arena.Holds slot := by
  by_cases present : slot.isPresent = true
  · left
    apply closed.children id
    rw [children_of_payload stored]
    exact List.mem_filter.mpr ⟨member, present⟩
  · right
    exact Decidable.not_not.mp fun filled => present ((NodeId.isPresent_iff slot).mpr filled)

theorem followOrigins_mono {arena : Arena} {few many : Nat} (more : few ≤ many)
    {id parsed : NodeId} (found : arena.followOrigins few id = some parsed) :
    arena.followOrigins many id = some parsed := by
  induction few generalizing many id with
  | zero => cases found
  | succ few ih =>
    cases many with
    | zero => omega
    | succ many =>
      simp only [followOrigins] at found ⊢
      split
      · rename_i last
        rwa [if_pos last] at found
      · rename_i further
        rw [if_neg further] at found
        exact ih (by omega) found

namespace Extends

variable {before after : Arena} {id : NodeId}

theorem header?_of_holds (grown : before.Extends after) (holds : before.Holds id) :
    after.header? id = before.header? id := by
  rcases holds with has | rfl
  · obtain ⟨header, found⟩ := has.header
    rw [found, grown.header? found]
  · rfl

theorem kind?_of_holds (grown : before.Extends after) (holds : before.Holds id) :
    after.kind? id = before.kind? id := by
  rw [Arena.kind?, Arena.kind?, grown.header?_of_holds holds]

theorem payload?_of_holds (grown : before.Extends after) (closed : before.Closed)
    (holds : before.Holds id) : after.payload? id = before.payload? id := by
  rcases holds with has | rfl
  · obtain ⟨header, found⟩ := has.header
    obtain ⟨_, stored⟩ := header?_eq_some_iff.mp found
    rw [payload?_of_header? found, payload?_of_header? (grown.header? found),
      grown.payloadAt?_eq (closed.placed header (Array.mem_of_getElem? stored))]
  · rfl

theorem children_of_holds (grown : before.Extends after) (closed : before.Closed)
    (holds : before.Holds id) : after.children id = before.children id := by
  rw [Arena.children, Arena.children, grown.payload?_of_holds closed holds]

theorem identifierText?_of_holds (grown : before.Extends after) (closed : before.Closed)
    (holds : before.Holds id) : after.identifierText? id = before.identifierText? id := by
  rw [Arena.identifierText?, Arena.identifierText?, grown.payload?_of_holds closed holds]

theorem origin_eq (grown : before.Extends after) (inside : id.position < before.origins.size) :
    after.origin id = before.origin id := by
  have stored := Array.getElem?_eq_getElem inside
  rw [Arena.origin, Arena.origin, stored, getElem?_of_prefix grown.origins stored]

/-- Old nodes whose origins are old nodes have the same origins in every extension, all the way. -/
theorem followOrigins_eq (grown : before.Extends after)
    (paired : before.origins.size = before.nodes.size)
    (known : ∀ id, (before.origin id).isPresent = true → before.Has (before.origin id))
    (has : before.Has id) (steps : Nat) :
    after.followOrigins steps id = before.followOrigins steps id := by
  induction steps generalizing id with
  | zero => rfl
  | succ steps ih =>
    have inside : id.position < before.origins.size := paired ▸ (has_iff.mp has).2
    simp only [Arena.followOrigins, grown.origin_eq inside]
    split
    · rfl
    · rename_i further
      exact ih (known id (by simpa [NodeId.isPresent] using further))

theorem parsedNode?_eq (grown : before.Extends after)
    (paired : before.origins.size = before.nodes.size)
    (known : ∀ id, (before.origin id).isPresent = true → before.Has (before.origin id))
    (has : before.Has id) {parsed : NodeId} (found : before.parsedNode? id = some parsed) :
    after.parsedNode? id = some parsed := by
  have more : before.origins.size ≤ after.origins.size := grown.origins.length_le
  rw [Arena.parsedNode?, ← grown.followOrigins_eq paired known has] at found
  exact followOrigins_mono (Nat.add_le_add_right more 1) found

/-- The modifiers of a list of old nodes are the same. -/
theorem modifiers_eq (grown : before.Extends after) {list : Option (List NodeId)}
    (held : ∀ member ∈ list.getD [], before.Holds member) :
    after.modifiers list = before.modifiers list := by
  rw [Arena.modifiers, Arena.modifiers]
  apply List.filterMap_congr
  intro member among
  rw [grown.kind?_of_holds (held member among)]

theorem declModifiers_eq (grown : before.Extends after) (closed : before.Closed)
    (has : before.Has id) : after.declModifiers id = before.declModifiers id := by
  rw [Arena.declModifiers, Arena.declModifiers, grown.payload?_of_holds closed (.inl has)]
  cases stored : before.payload? id with
  | none => rfl
  | some payload =>
    have held : ∀ slot ∈ payload.slots, before.Holds slot :=
      fun _ member => closed.holds_slot stored member
    cases payload with
    | enumeration decl =>
      exact grown.modifiers_eq fun slot member => held slot (List.mem_append_left _ member)
    | moduleDecl decl =>
      exact grown.modifiers_eq fun slot member => held slot (List.mem_append_left _ member)
    | _ => rfl

theorem enumName?_eq (grown : before.Extends after) (closed : before.Closed)
    (has : before.Has id) : after.enumName? id = before.enumName? id := by
  rw [Arena.enumName?, Arena.enumName?, Arena.enumDecl?, Arena.enumDecl?,
    grown.payload?_of_holds closed (.inl has)]
  cases stored : before.payload? id with
  | none => rfl
  | some payload =>
    cases payload with
    | enumeration decl =>
      exact grown.identifierText?_of_holds closed
        (closed.holds_slot stored (List.mem_append_right _ (List.mem_cons_self ..)))
    | _ => rfl

theorem memberName?_eq (grown : before.Extends after) (closed : before.Closed)
    (has : before.Has id) : after.memberName? id = before.memberName? id := by
  rw [Arena.memberName?, Arena.memberName?, Arena.enumMember?, Arena.enumMember?,
    grown.payload?_of_holds closed (.inl has)]
  cases stored : before.payload? id with
  | none => rfl
  | some payload =>
    cases payload with
    | enumMember member =>
      have name : before.Holds member.name := closed.holds_slot stored (List.mem_cons_self ..)
      simp only [Option.bind_eq_bind, Option.bind_some, grown.kind?_of_holds name,
        grown.identifierText?_of_holds closed name]
    | _ => rfl

theorem memberName?_of_holds (grown : before.Extends after)
    (closed : before.Closed) (holds : before.Holds id) :
    after.memberName? id = before.memberName? id := by
  rcases holds with has | rfl
  · exact grown.memberName?_eq closed has
  · rfl

theorem nodeText?_eq (grown : before.Extends after) (closed : before.Closed) {file : NodeId}
    (hasFile : before.Has file) (has : before.Has id) :
    after.nodeText? file id = before.nodeText? file id := by
  rw [Arena.nodeText?, Arena.nodeText?, Arena.sourceFile?, Arena.sourceFile?,
    grown.payload?_of_holds closed (.inl hasFile), grown.header?_of_holds (.inl has)]

theorem agree_eq (grown : before.Extends after) (closed : before.Closed) {other : NodeId}
    (has : before.Has id) (hasOther : before.Has other) :
    after.agree id other = before.agree id other := by
  simp only [Arena.agree, Arena.leaf, grown.kind? has, grown.kind? hasOther,
    grown.payload?_of_holds closed (.inl has), grown.payload?_of_holds closed (.inl hasOther),
    grown.children_of_holds closed (.inl has), grown.children_of_holds closed (.inl hasOther)]

/-- Comparing old nodes takes the same steps: only old nodes ever wait. -/
theorem compare_eq (grown : before.Extends after) (closed : before.Closed)
    {pending : List (NodeId × NodeId)}
    (inside : ∀ pair ∈ pending, before.Has pair.1 ∧ before.Has pair.2) (steps : Nat) :
    after.compare steps pending = before.compare steps pending := by
  induction steps generalizing pending with
  | zero => cases pending <;> rfl
  | succ steps ih =>
    cases pending with
    | nil => rfl
    | cons pair pending =>
      obtain ⟨left, right⟩ := pair
      obtain ⟨⟨hasLeft, hasRight⟩, later⟩ := List.forall_mem_cons.mp inside
      simp only [Arena.compare, grown.agree_eq closed hasLeft hasRight,
        grown.children_of_holds closed (.inl hasLeft),
        grown.children_of_holds closed (.inl hasRight)]
      rw [ih later, ih]
      intro pair member
      rcases List.mem_append.mp member with new | old
      · have among := List.of_mem_zip (List.mem_reverse.mp new)
        exact ⟨closed.children left _ among.1, closed.children right _ among.2⟩
      · exact later pair old

/-- Nothing that is known about a node changes when the arena is extended. -/
theorem keeps (grown : before.Extends after) (closed : before.Closed) (has : before.Has id) :
    before.Keeps after id := by
  have payload := grown.payload?_of_holds closed (.inl has)
  exact {
    header? := grown.header?_of_holds (.inl has)
    kind? := grown.kind? has
    payload? := payload
    identifierText? := grown.identifierText?_of_holds closed (.inl has)
    literalText? := by rw [Arena.literalText?, Arena.literalText?, payload]
    sourceFile? := by rw [Arena.sourceFile?, Arena.sourceFile?, payload]
    enumDecl? := by rw [Arena.enumDecl?, Arena.enumDecl?, payload]
    enumMember? := by rw [Arena.enumMember?, Arena.enumMember?, payload]
    children := grown.children_of_holds closed (.inl has)
    origin := grown.origin_eq (closed.paired ▸ (has_iff.mp has).2)
    followOrigins := grown.followOrigins_eq closed.paired closed.origins has
    parsedNode? := fun _ => grown.parsedNode?_eq closed.paired closed.origins has
    declModifiers := grown.declModifiers_eq closed has
    isConstEnum := by
      rw [Arena.isConstEnum, Arena.isConstEnum, grown.kind? has, grown.declModifiers_eq closed has]
    enumName? := grown.enumName?_eq closed has
    memberName? := grown.memberName?_eq closed has
    nodeText? := fun _ hasFile => grown.nodeText?_eq closed hasFile has
    preview := fun file hasFile => by
      rw [Arena.preview, Arena.preview, grown.nodeText?_eq closed hasFile has]
    compare := fun other hasOther => grown.compare_eq closed (by simpa using ⟨has, hasOther⟩) }

end Extends

/-- The second arena has all vectors of the first as initial parts of its own, reads the same
modifiers off lists of old nodes, and answers what is asked about old nodes as the first did, if
that one is closed. -/
structure Persists (before after : Arena) : Prop where
  grown : before.Extends after
  modifiers : ∀ list : Option (List NodeId), (∀ id ∈ list.getD [], before.Holds id) →
    after.modifiers list = before.modifiers list
  keeps : before.Closed → ∀ id, before.Has id → before.Keeps after id

theorem Persists.of_extends {before after : Arena} (grown : before.Extends after) :
    before.Persists after where
  grown := grown
  modifiers := fun _ held => grown.modifiers_eq held
  keeps := fun closed _ has => grown.keeps closed has

end EnumStamp.Arena
