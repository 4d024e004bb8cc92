import EnumStamp.Proofs.Arena.Ownership
import EnumStamp.Proofs.Arena.Persistence

/-!
Lineage: where nodes come from. A copy names the node that it was made from as its origin, and
origins lead back to a node of the parser, whatever the children of the nodes are. Main statements:
operations keep what is known about origins, with any arguments (`Lineage.of_edits`); following them
comes to an end at a node with the same kind, flags and range (`Lineage.parses`); and what an update
answers with leads to the same node as what was to be changed
(`Lineage.succeeds_apply`, `Lineage.parsedNode?_of_succeeds`).
-/

set_option autoImplicit false

namespace EnumStamp

/-- A header apart from the place of its payload: the kind, the flags and the range. -/
def Header.unplaced (header : Header) : Header :=
  { header with place := noPlace }

namespace Arena

/-- The origin of a node comes before it and has its kind, flags and range. -/
structure Derives (arena : Arena) (id origin : NodeId) : Prop where
  has : arena.Has origin
  lower : origin.position < id.position
  unplaced : (arena.header? origin).map Header.unplaced = (arena.header? id).map Header.unplaced

/-- Every node has an entry in the side table, and every origin there is the origin of its node. -/
structure Lineage (arena : Arena) : Prop where
  paired : arena.origins.size = arena.nodes.size
  derives : ∀ id, (arena.origin id).isPresent = true → arena.Derives id (arena.origin id)

theorem lineage_empty : empty.Lineage where
  paired := rfl
  derives := by
    intro id present
    have none : empty.origin id = .absent := by
      unfold origin
      split
      · rfl
      · rfl
    rw [none] at present
    cases present

/-- What is known of an origin is so in every extension. -/
theorem Derives.extends {before after : Arena} {id origin : NodeId}
    (derives : before.Derives id origin) (grown : before.Extends after) :
    after.Derives id origin := by
  obtain ⟨source, atSource⟩ := derives.has.header
  have unplaced := derives.unplaced
  rw [atSource] at unplaced
  cases found : before.header? id with
  | none =>
    rw [found] at unplaced
    cases unplaced
  | some header =>
    refine ⟨grown.has derives.has, derives.lower, ?_⟩
    rw [grown.header? atSource, grown.header? found, unplaced, found]

section Push

variable {arena after : Arena} {header : Header} {origin : NodeId}

/-- A node and its origin are added: only the new node can have an origin that was not there. -/
theorem origin_of_push (origins : after.origins = arena.origins.push origin) (id : NodeId) :
    after.origin id = arena.origin id ∨
      (id.isAbsent = false ∧ id.position = arena.origins.size ∧ after.origin id = origin) := by
  unfold Arena.origin
  cases empty : id.isAbsent with
  | true => exact .inl rfl
  | false =>
    rw [origins, Array.getElem?_push]
    by_cases last : id.position = arena.origins.size
    · rw [if_pos last]
      exact .inr ⟨rfl, last, rfl⟩
    · rw [if_neg last]
      exact .inl rfl

/-- A node is added that has no origin, or one with its kind, flags and range. -/
theorem Lineage.of_push (lineage : arena.Lineage) (grown : arena.Extends after)
    (nodes : after.nodes = arena.nodes.push header)
    (origins : after.origins = arena.origins.push origin)
    (alike : origin.isPresent = true → ∃ source, arena.header? origin = some source ∧
      source.unplaced = header.unplaced) : after.Lineage where
  paired := by rw [nodes, origins, Array.size_push, Array.size_push, lineage.paired]
  derives := by
    intro id present
    rcases origin_of_push origins id with same | ⟨filled, last, new⟩
    · rw [same] at present ⊢
      exact (lineage.derives id present).extends grown
    · rw [new] at present ⊢
      obtain ⟨source, atSource, unplaced⟩ := alike present
      have has := has_of_header atSource
      have lower := (has_iff.mp has).2
      have atId : after.header? id = some header := by
        rw [header?_eq_some_iff, nodes, last, lineage.paired]
        exact ⟨filled, Array.getElem?_push_size⟩
      refine ⟨grown.has has, ?_, ?_⟩
      · rw [last, lineage.paired]
        exact lower
      · rw [grown.header? atSource, atId, Option.map_some, Option.map_some, unplaced]

end Push

/-- An operation keeps the lineage, also if kinds do not suit, and if children are missing or come
later. -/
theorem Lineage.apply {arena : Arena} (lineage : arena.Lineage) (op : Operation) :
    (op.apply arena).1.Lineage := by
  have outcome := op.outcome arena
  generalize op.apply arena = result at outcome ⊢
  cases outcome with
  | same => exact lineage
  | bare => exact lineage.of_push (extends_append ..) rfl rfl fun present => nomatch present
  | added =>
    exact lineage.of_push (extends_appendWith ..) nodes_appendWith origins_appendWith
      fun present => nomatch present
  | @copied header _ _ found =>
    exact lineage.of_push (extends_appendWith ..) nodes_appendWith origins_appendWith
      fun _ => ⟨header, found, rfl⟩

theorem Lineage.of_edits {first last : Arena} (lineage : first.Lineage)
    (edits : first.Edits last) : last.Lineage := by
  induction edits with
  | refl => exact lineage
  | tail _ made ih =>
    obtain ⟨op, rfl⟩ := made
    exact ih.apply op

/-- A node of the parser that another was made from in the end, maybe itself. It does not come later
and has the kind, the flags and the range of the other. -/
structure Founds (arena : Arena) (parsed id : NodeId) : Prop where
  le : parsed.position ≤ id.position
  unplaced : (arena.header? parsed).map Header.unplaced = (arena.header? id).map Header.unplaced
  root : arena.origin parsed = .absent

theorem followOrigins_of_root {arena : Arena} {id : NodeId} (root : arena.origin id = .absent)
    (steps : Nat) : arena.followOrigins (steps + 1) id = some id := by
  rw [followOrigins, root]
  rfl

theorem followOrigins_of_origin {arena : Arena} {id : NodeId}
    (present : (arena.origin id).isPresent = true) (steps : Nat) :
    arena.followOrigins (steps + 1) id = arena.followOrigins steps (arena.origin id) := by
  rw [followOrigins]
  exact if_neg (by simpa [NodeId.isPresent] using present)

/-- Only nodes in the side table have origins. -/
theorem position_lt_of_origin {arena : Arena} {id : NodeId}
    (present : (arena.origin id).isPresent = true) : id.position < arena.origins.size := by
  unfold Arena.origin at present
  split at present
  · cases present
  · by_contra outside
    rw [Array.getElem?_eq_none (Nat.le_of_not_lt outside)] at present
    cases present

theorem founds_self {arena : Arena} {id : NodeId} (root : arena.origin id = .absent) :
    arena.Founds id id :=
  ⟨Nat.le_refl _, rfl, root⟩

/-- What founds the origin of a node founds the node. -/
theorem Derives.founds {arena : Arena} {parsed id origin : NodeId}
    (derives : arena.Derives id origin) (founds : arena.Founds parsed origin) :
    arena.Founds parsed id where
  le := Nat.le_of_lt (Nat.lt_of_le_of_lt founds.le derives.lower)
  unplaced := founds.unplaced.trans derives.unplaced
  root := founds.root

/-- A node has an origin or none. -/
theorem origin_cases (arena : Arena) (id : NodeId) :
    arena.origin id = .absent ∨ (arena.origin id).isPresent = true := by
  rw [NodeId.isPresent_iff]
  exact Decidable.em _

namespace Lineage

variable {arena : Arena} (lineage : arena.Lineage)

include lineage

/-- As many steps as a node has before it are enough, and one for the node itself. -/
theorem exists_followOrigins {steps : Nat} {id : NodeId}
    (enough : (arena.origin id).isPresent = true → id.position < steps) :
    ∃ parsed, arena.followOrigins (steps + 1) id = some parsed ∧ arena.Founds parsed id := by
  induction steps generalizing id with
  | zero =>
    rcases arena.origin_cases id with root | present
    · exact ⟨id, followOrigins_of_root root 0, founds_self root⟩
    · exact absurd (enough present) (Nat.not_lt_zero _)
  | succ steps ih =>
    rcases arena.origin_cases id with root | present
    · exact ⟨id, followOrigins_of_root root _, founds_self root⟩
    · have derives := lineage.derives id present
      have fewer : (arena.origin id).position < steps :=
        Nat.lt_of_lt_of_le derives.lower (Nat.le_of_lt_succ (enough present))
      obtain ⟨parsed, followed, founds⟩ := ih fun _ => fewer
      exact ⟨parsed, (followOrigins_of_origin present _).trans followed, derives.founds founds⟩

/-- Following origins comes to an end at every node. -/
theorem parses (id : NodeId) :
    ∃ parsed, arena.parsedNode? id = some parsed ∧ arena.Founds parsed id :=
  lineage.exists_followOrigins position_lt_of_origin

/-- A node leads to where its origin leads. -/
theorem parsedNode?_origin {id : NodeId} (present : (arena.origin id).isPresent = true) :
    arena.parsedNode? id = arena.parsedNode? (arena.origin id) := by
  have lower := (lineage.derives id present).lower
  have inside := position_lt_of_origin present
  obtain ⟨parsed, followed, _⟩ := lineage.exists_followOrigins fun _ => lower
  obtain ⟨same, found, _⟩ := lineage.parses (arena.origin id)
  have often := followOrigins_mono (Nat.le_succ_of_le inside) followed
  obtain rfl : same = parsed := Option.some.inj (found.symm.trans often)
  rw [found, parsedNode?, followOrigins_of_origin present]
  exact followOrigins_mono inside followed

/-- Old nodes lead to the same nodes in every extension. -/
theorem parsedNode?_extends {after : Arena} (grown : arena.Extends after) {id : NodeId}
    (has : arena.Has id) : after.parsedNode? id = arena.parsedNode? id := by
  obtain ⟨parsed, found, _⟩ := lineage.parses id
  rw [found]
  exact grown.parsedNode?_eq lineage.paired (fun id present => (lineage.derives id present).has)
    has found

end Lineage

/-- A node without origin leads to itself. -/
theorem Founds.parsedNode?_eq {arena : Arena} {parsed id : NodeId}
    (founds : arena.Founds parsed id) : arena.parsedNode? parsed = some parsed :=
  followOrigins_of_root founds.root _

/-- What takes the place of a node is the node itself or was made from it. -/
def Succeeds (arena : Arena) (result id : NodeId) : Prop :=
  result = id ∨ (id.isPresent = true ∧ arena.origin result = id)

theorem Succeeds.refl (arena : Arena) (id : NodeId) : arena.Succeeds id id :=
  .inl rfl

theorem Succeeds.extends {before after : Arena} {result id : NodeId}
    (succeeds : before.Succeeds result id) (grown : before.Extends after) :
    after.Succeeds result id := by
  rcases succeeds with same | ⟨present, origin⟩
  · exact .inl same
  · have inside : result.position < before.origins.size := position_lt_of_origin (origin ▸ present)
    exact .inr ⟨present, (grown.origin_eq inside).trans origin⟩

/-- What takes the place of a node leads to where the node leads. -/
theorem Lineage.parsedNode?_of_succeeds {arena : Arena} (lineage : arena.Lineage)
    {result id : NodeId} (succeeds : arena.Succeeds result id) :
    arena.parsedNode? result = arena.parsedNode? id := by
  rcases succeeds with same | ⟨present, origin⟩
  · rw [same]
  · rw [lineage.parsedNode?_origin (origin ▸ present), origin]

section Update

variable {arena : Arena} (paired : arena.origins.size = arena.nodes.size) (fits : arena.Fits)

include paired fits

theorem succeeds_update (id : NodeId) (edit : Payload → Option Payload) :
    (arena.update id edit).1.Succeeds (arena.update id edit).2 id := by
  unfold update
  split
  · exact .refl arena id
  · rename_i header found
    split
    · exact .refl arena id
    · split
      · exact .refl arena id
      · split
        · exact .refl arena id
        · exact .inr ⟨(has_iff.mp (has_of_header found)).1, origin_appendWith paired fits⟩

theorem succeeds_updateChildren (id : NodeId) (children : List NodeId) :
    (arena.updateChildren id children).1.Succeeds (arena.updateChildren id children).2 id := by
  unfold updateChildren
  dsimp only
  split
  · exact .refl arena id
  · exact succeeds_update paired fits id _

end Update

end Arena

/-- Whether the operation is to change a node. -/
def Operation.Updates : Operation → Prop
  | .updateSourceFile .. | .updateEnum .. | .updateEnumMember .. | .updateComputedName ..
  | .updateModule .. | .updateDoc .. | .updateComposite .. | .updateChildren .. => True
  | _ => False

/-- An update answers with the node that was to be changed, or with a copy of it. -/
theorem Arena.Lineage.succeeds_apply {arena : Arena} (lineage : arena.Lineage) (op : Operation)
    (updates : op.Updates) (fits : (op.apply arena).1.Fits) :
    (op.apply arena).1.Succeeds (op.apply arena).2 op.target := by
  have room := fits.of_extends (extends_apply op arena)
  cases op with
  | updateChildren id children => exact succeeds_updateChildren lineage.paired room id children
  | updateSourceFile | updateEnum | updateEnumMember | updateComputedName | updateModule
  | updateDoc | updateComposite => exact succeeds_update lineage.paired room _ _
  | _ => exact updates.elim

end EnumStamp
