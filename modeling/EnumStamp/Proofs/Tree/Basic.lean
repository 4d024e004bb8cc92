import Mathlib.Logic.Relation
import EnumStamp.Proofs.Arena.Copies

/-!
Trees: what an arena says below a node, without the handles. A slot of a tree holds a tree, or it is
empty. Main statements: in a well-formed arena the tree of a node is put together from the trees of
its slots (`tree_eq`), it is the same in every extension (`Extends.tree_eq`), and a changed copy of
a node has the tree that the change says (`offers_update`, `offers_updateChildren`).
-/

set_option autoImplicit false

namespace EnumStamp

/-- What a payload is apart from its slots. -/
inductive Shape where
  | bare
  | identifier (text : String)
  | literal (text : String)
  | sourceFile (name text : String)
  /-- So many of the slots are modifiers, if there is a modifier list. -/
  | enumeration (modifiers : Option Nat)
  | enumMember
  | computedName
  /-- So many of the slots are modifiers, if there is a modifier list. -/
  | moduleDecl (modifiers : Option Nat)
  | doc (comment : String)
  | composite
  deriving DecidableEq

/-- What a node is apart from its slots. -/
structure Label where
  kind : Kind
  flags : UInt16
  start : UInt32
  stop : UInt32
  shape : Shape
  deriving DecidableEq

/-- A node with what is below it. -/
inductive Tree where
  | hole
  /-- The place of a node that is not there. -/
  | missing
  | node (label : Label) (slots : List Tree)

def Payload.shape : Payload → Shape
  | .identifier text => .identifier text
  | .literal text => .literal text
  | .sourceFile file => .sourceFile file.name file.text
  | .enumeration decl => .enumeration (decl.modifiers.map List.length)
  | .enumMember _ => .enumMember
  | .computedName _ => .computedName
  | .moduleDecl decl => .moduleDecl (decl.modifiers.map List.length)
  | .doc comment => .doc comment.comment
  | .composite _ => .composite

def Header.label (header : Header) (payload : Option Payload) : Label :=
  { kind := header.kind
    flags := header.flags
    start := header.start
    stop := header.stop
    shape := (payload.map Payload.shape).getD .bare }

namespace Arena

def slotsAt (arena : Arena) (header : Header) : List NodeId :=
  ((arena.payloadAt? header).map Payload.slots).getD []

/-- The tree below a node. Only slots with earlier nodes are followed, as they all are in a
well-formed arena. -/
def tree (arena : Arena) (id : NodeId) : Tree :=
  match arena.header? id with
  | none => if id.isAbsent then .hole else .missing
  | some header =>
    .node (header.label (arena.payloadAt? header)) ((arena.slotsAt header).map fun slot =>
      if _lower : slot.position < id.position then arena.tree slot
      else if slot.isAbsent then .hole else .missing)
termination_by id.position

theorem tree_of_not_has {arena : Arena} {id : NodeId} (missing : ¬ arena.Has id) :
    arena.tree id = if id.isAbsent then .hole else .missing := by
  have none : arena.header? id = none := by simpa [Has] using missing
  rw [tree, none]

theorem tree_absent (arena : Arena) : arena.tree .absent = .hole :=
  tree_of_not_has arena.not_has_absent

theorem slotsAt_of_payload {arena : Arena} {header : Header} {payload : Payload}
    (found : arena.payloadAt? header = some payload) : arena.slotsAt header = payload.slots := by
  rw [slotsAt, found]
  rfl

/-- A slot of a well-formed arena is absent or holds a node that comes before. -/
theorem WellFormed.slot_cases {arena : Arena} (sound : arena.WellFormed) {id slot : NodeId}
    {header : Header} (found : arena.header? id = some header)
    (member : slot ∈ arena.slotsAt header) :
    slot = .absent ∨ (arena.Has slot ∧ slot.position < id.position) := by
  cases stored : arena.payloadAt? header with
  | none =>
    rw [slotsAt, stored] at member
    cases member
  | some payload =>
    rw [slotsAt_of_payload stored] at member
    have atId : arena.payload? id = some payload := (payload?_of_header? found).trans stored
    by_cases present : slot.isPresent = true
    · have child : slot ∈ arena.children id := by
        rw [children_of_payload atId]
        exact List.mem_filter.mpr ⟨member, present⟩
      exact .inr ⟨sound.child_has child, sound.child_lt child⟩
    · left
      exact Decidable.not_not.mp fun filled => present ((NodeId.isPresent_iff slot).mpr filled)

/-- The tree of a node in a well-formed arena. -/
theorem tree_eq {arena : Arena} (sound : arena.WellFormed) {id : NodeId} {header : Header}
    (found : arena.header? id = some header) :
    arena.tree id =
      .node (header.label (arena.payloadAt? header))
        ((arena.slotsAt header).map arena.tree) := by
  rw [tree, found]
  dsimp only
  congr 1
  apply List.map_congr_left
  intro slot member
  rcases sound.slot_cases found member with rfl | ⟨_, lower⟩
  · rw [tree_absent]
    split
    · rfl
    · rfl
  · rw [dif_pos lower]

/-- No path from child to child leads back to where it began. -/
theorem WellFormed.acyclic {arena : Arena} (sound : arena.WellFormed) (id : NodeId) :
    ¬ Relation.TransGen (fun parent child => child ∈ arena.children parent) id id := by
  have descends : ∀ {last}, Relation.TransGen (fun parent child => child ∈ arena.children parent)
      id last → last.position < id.position := by
    intro last path
    induction path with
    | single step => exact sound.child_lt step
    | tail _ step ih => exact Nat.lt_trans (sound.child_lt step) ih
  exact fun circle => Nat.lt_irrefl _ (descends circle)

/-- The tree of a node in a well-formed arena is the same in every extension. -/
theorem Extends.tree_eq {before after : Arena} (grown : before.Extends after)
    (sound : before.WellFormed) {id : NodeId} (has : before.Has id) :
    after.tree id = before.tree id := by
  induction position : id.position using Nat.strongRecOn generalizing id with
  | ind position ih =>
    obtain ⟨header, found⟩ := has.header
    have same : after.payloadAt? header = before.payloadAt? header := by
      have payloads := grown.payload?_eq sound has
      rwa [payload?_of_header? found, payload?_of_header? (grown.header? found)] at payloads
    have slots : after.slotsAt header = before.slotsAt header := by
      rw [slotsAt, same, slotsAt]
    rw [Arena.tree_eq sound found, tree, grown.header? found]
    dsimp only
    rw [same, slots]
    congr 1
    apply List.map_congr_left
    intro slot member
    rcases sound.slot_cases found member with rfl | ⟨present, lower⟩
    · rw [tree_absent, tree_absent]
      split
      · rfl
      · rfl
    · rw [dif_pos lower]
      exact ih slot.position (by omega) present rfl

theorem Extends.tree_slot {before after : Arena} (grown : before.Extends after)
    (sound : before.WellFormed) {slot : NodeId} (holds : before.Holds slot) :
    after.tree slot = before.tree slot := by
  rcases holds with has | rfl
  · exact grown.tree_eq sound has
  · rw [tree_absent, tree_absent]

/-- Whatever is read off the trees of slots is the same in every extension. -/
theorem Extends.map_tree {α : Type} {before after : Arena} (grown : before.Extends after)
    (sound : before.WellFormed) (reads : Tree → α) {slots : List NodeId}
    (held : ∀ slot ∈ slots, before.Holds slot) :
    slots.map (fun slot => reads (after.tree slot)) =
      slots.map fun slot => reads (before.tree slot) := by
  apply List.map_congr_left
  intro slot member
  rw [grown.tree_slot sound (held slot member)]

/-- What is known of a node that was added, or of one that took its place. -/
structure Offers (arena : Arena) (id : NodeId) (tree : Tree) : Prop where
  sound : arena.WellFormed
  has : arena.Has id
  reads : arena.tree id = tree

theorem label_placedHeader (arena : Arena) (header : Header) (payload : Payload)
    (content : Option Payload) :
    (arena.placedHeader header payload).label content = header.label content := rfl

/-- The tree of a new node. -/
theorem offers_appendWith {arena : Arena} {header : Header} {payload : Payload} {origin : NodeId}
    (sound : arena.WellFormed) (fits : (arena.appendWith header payload origin).1.Fits)
    (suits : header.kind.category = payload.category)
    (slots : ∀ slot ∈ payload.slots, arena.Holds slot) (source : arena.Holds origin) :
    (arena.appendWith header payload origin).1.Offers (arena.appendWith header payload origin).2
      (.node (header.label (some payload)) (payload.slots.map arena.tree)) := by
  have grown := extends_appendWith arena header payload origin
  have room := fits.of_extends grown
  have stored := payloadAt?_placedHeader room origin suits
  have after := wellFormed_appendWith sound room suits slots source
  refine ⟨after, has_appendWith room, ?_⟩
  rw [tree_eq after (header?_appendWith room), stored, slotsAt_of_payload stored,
    label_placedHeader]
  congr 1
  exact grown.map_tree sound (fun tree => tree) slots

theorem category_of_payloadAt? {arena : Arena} {header : Header} {payload : Payload}
    (found : arena.payloadAt? header = some payload) :
    header.kind.category = payload.category := by
  unfold payloadAt? at found
  split at found
  · exact (category_of_pooled? found).symm
  · cases found

theorem update_eq {arena : Arena} {id : NodeId} {header : Header} {payload edited : Payload}
    {edit : Payload → Option Payload} (found : arena.header? id = some header)
    (stored : arena.payloadAt? header = some payload) (edits : edit payload = some edited) :
    arena.update id edit =
      if edited = payload then (arena, id) else arena.appendWith header edited id := by
  simp only [update, found, stored, edits]

/-- The tree of a changed copy, which is the node itself if nothing changes. -/
theorem offers_update {arena : Arena} (sound : arena.WellFormed) {id : NodeId} {header : Header}
    {payload edited : Payload} {edit : Payload → Option Payload}
    (fits : (arena.update id edit).1.Fits) (found : arena.header? id = some header)
    (stored : arena.payloadAt? header = some payload) (edits : edit payload = some edited)
    (same : edited.category = payload.category)
    (slots : ∀ slot ∈ edited.slots, arena.Holds slot) :
    (arena.update id edit).1.Offers (arena.update id edit).2
      (.node (header.label (some edited)) (edited.slots.map arena.tree)) := by
  rw [update_eq found stored edits] at fits ⊢
  by_cases unchanged : edited = payload
  · subst unchanged
    rw [if_pos rfl]
    refine ⟨sound, has_of_header found, ?_⟩
    rw [tree_eq sound found, stored, slotsAt_of_payload stored]
  · rw [if_neg unchanged] at fits ⊢
    have suits : header.kind.category = edited.category := by
      rw [same, category_of_payloadAt? stored]
    exact offers_appendWith sound fits suits slots (.inl (has_of_header found))

/-- The tree of a new string literal. -/
theorem offers_createString {arena : Arena} (sound : arena.WellFormed) (text : String)
    (fits : (arena.createString text).1.Fits) :
    (arena.createString text).1.Offers (arena.createString text).2
      (.node ⟨Token.stringLiteral.kind, 0, Header.noPosition, Header.noPosition, .literal text⟩
        []) :=
  offers_appendWith sound fits rfl (fun _ member => by cases member) (.inr rfl)

end Arena

theorem length_splitModifiers {modifiers others : Option (List NodeId)}
    {contents rest : List NodeId}
    (enough : (modifiers.getD []).length ≤ contents.length)
    (split : Payload.splitModifiers modifiers contents = (others, rest)) :
    others.map List.length = modifiers.map List.length := by
  cases modifiers with
  | none =>
    cases (Prod.mk.inj split).1
    rfl
  | some list =>
    cases (Prod.mk.inj split).1
    have kept : (contents.take list.length).length = list.length := List.length_take_of_le enough
    simp only [Option.map_some, kept]

/-- Other slots leave the shape of a payload as it is. -/
theorem Payload.shape_withSlots (payload : Payload) (contents : List NodeId)
    (fits : contents.length = payload.slots.length) :
    (payload.withSlots contents).shape = payload.shape := by
  cases payload with
  | enumeration decl =>
    have enough : (decl.modifiers.getD []).length ≤ contents.length := by
      rw [fits, slots, List.length_append]
      omega
    simp only [withSlots]
    split
    · rename_i split
      simp only [shape, length_splitModifiers enough split]
    · rfl
  | moduleDecl decl =>
    have enough : (decl.modifiers.getD []).length ≤ contents.length := by
      rw [fits, slots, List.length_append]
      omega
    simp only [withSlots]
    split
    · rename_i split
      simp only [shape, length_splitModifiers enough split]
    · rfl
  | enumMember member =>
    simp only [withSlots]
    split <;> rfl
  | computedName expression =>
    simp only [withSlots]
    split <;> rfl
  | _ => rfl

namespace Arena

theorem mem_fillPresent {slots replacements : List NodeId} {slot : NodeId}
    (member : slot ∈ Payload.fillPresent slots replacements) :
    slot ∈ replacements ∨ slot ∈ slots := by
  induction slots generalizing replacements with
  | nil => cases member
  | cons first slots ih =>
    cases replacements with
    | nil => exact .inr member
    | cons replacement replacements =>
      simp only [Payload.fillPresent] at member
      split at member
      · rcases List.mem_cons.mp member with rfl | rest
        · exact .inr (List.mem_cons_self ..)
        · exact (ih rest).imp id (List.mem_cons_of_mem _)
      · rcases List.mem_cons.mp member with rfl | rest
        · exact .inl (List.mem_cons_self ..)
        · exact (ih rest).imp (List.mem_cons_of_mem _) (List.mem_cons_of_mem _)

theorem holds_of_mem_fillPresent {arena : Arena} {slots replacements : List NodeId}
    (held : ∀ slot ∈ slots, arena.Holds slot)
    (has : ∀ replacement ∈ replacements, arena.Holds replacement) {slot : NodeId}
    (member : slot ∈ Payload.fillPresent slots replacements) : arena.Holds slot := by
  rcases mem_fillPresent member with given | kept
  · exact has slot given
  · exact held slot kept

theorem fillPresent_nil (slots : List NodeId) : Payload.fillPresent slots [] = slots := by
  cases slots <;> rfl

/-- Where the replacements read as they should, and absent slots do, all slots do. -/
theorem map_fillPresent {α : Type} {reads want : NodeId → α} {slots replacements : List NodeId}
    (empty : reads .absent = want .absent)
    (filled : replacements.map reads = (slots.filter NodeId.isPresent).map want) :
    (Payload.fillPresent slots replacements).map reads = slots.map want := by
  induction slots generalizing replacements with
  | nil => rfl
  | cons slot slots ih =>
    by_cases present : slot.isPresent = true
    · rw [List.filter_cons_of_pos present, List.map_cons] at filled
      cases replacements with
      | nil => cases filled
      | cons replacement replacements =>
        obtain ⟨first, others⟩ := List.cons.inj filled
        have held : slot.isAbsent = false := by simpa [NodeId.isPresent] using present
        simp only [Payload.fillPresent, held, Bool.false_eq_true, if_false, List.map_cons, first,
          ih others]
    · rw [List.filter_cons_of_neg present] at filled
      have absent : slot.isAbsent = true := by simpa [NodeId.isPresent] using present
      have hole : reads slot = want slot := by
        rw [(NodeId.isAbsent_iff slot).mp absent, empty]
      cases replacements with
      | nil =>
        have others := ih filled
        rw [fillPresent_nil] at others ⊢
        rw [List.map_cons, List.map_cons, hole, others]
      | cons replacement replacements =>
        simp only [Payload.fillPresent, absent, if_true, List.map_cons, hole, ih filled]

theorem slotsAt_holds {arena : Arena} (sound : arena.WellFormed) {id : NodeId} {header : Header}
    (found : arena.header? id = some header) : ∀ slot ∈ arena.slotsAt header, arena.Holds slot := by
  intro slot member
  rcases sound.slot_cases found member with absent | ⟨has, _⟩
  · exact .inr absent
  · exact .inl has

theorem slots_hold {arena : Arena} (sound : arena.WellFormed) {id : NodeId} {header : Header}
    {payload : Payload} (found : arena.header? id = some header)
    (stored : arena.payloadAt? header = some payload) :
    ∀ slot ∈ payload.slots, arena.Holds slot := by
  rw [← slotsAt_of_payload stored]
  exact slotsAt_holds sound found

theorem children_eq_filter {arena : Arena} {id : NodeId} {header : Header}
    (found : arena.header? id = some header) :
    arena.children id = (arena.slotsAt header).filter NodeId.isPresent := by
  rw [children_of_header found, childrenAt, slotsAt]
  cases arena.payloadAt? header <;> rfl

/-- A node that is given replacements for its children has their trees in the place of theirs. -/
theorem offers_updateChildren {arena : Arena} (sound : arena.WellFormed) {id : NodeId}
    {header : Header} (found : arena.header? id = some header) {replacements : List NodeId}
    (count : replacements.length = (arena.children id).length)
    (has : ∀ replacement ∈ replacements, arena.Holds replacement)
    (fits : (arena.updateChildren id replacements).1.Fits) :
    (arena.updateChildren id replacements).1.Offers (arena.updateChildren id replacements).2
      (.node (header.label (arena.payloadAt? header))
        ((Payload.fillPresent (arena.slotsAt header) replacements).map arena.tree)) := by
  by_cases own : arena.children id = replacements
  · rw [← own, updateChildren_children, children_eq_filter found, Payload.fillPresent_filter,
      ← tree_eq sound found]
    exact ⟨sound, has_of_header found, rfl⟩
  · have updates : arena.updateChildren id replacements =
        arena.update id fun payload => some (payload.withChildren replacements) := by
      rw [updateChildren]
      apply if_neg
      rintro (same | differs)
      · exact own same
      · exact differs count.symm
    rw [updates] at fits ⊢
    cases stored : arena.payloadAt? header with
    | none =>
      have noChildren : arena.children id = [] := by
        rw [children_of_header found, childrenAt, stored]
      rw [noChildren] at count own
      exact absurd (List.eq_nil_of_length_eq_zero count).symm own
    | some payload =>
      have slots := slotsAt_of_payload stored
      have held := slotsAt_holds sound found
      rw [slots] at held ⊢
      have filled := Payload.length_fillPresent payload.slots replacements
      have contents := payload.slots_withSlots _ filled
      have shape := payload.shape_withSlots _ filled
      have offers := offers_update sound fits found stored rfl
        (payload.category_withChildren replacements) (by
          intro slot member
          rw [Payload.withChildren, contents] at member
          exact holds_of_mem_fillPresent held has member)
      rw [Payload.withChildren, contents] at offers
      rw [Header.label, Option.map_some, shape] at offers
      exact offers

end Arena

end EnumStamp
