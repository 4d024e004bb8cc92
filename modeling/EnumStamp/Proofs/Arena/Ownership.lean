import Mathlib.Logic.ExistsUnique
import EnumStamp.Proofs.Arena.Operation

set_option autoImplicit false

namespace EnumStamp.Arena

/-- Whether a header refers to the pool of a category. -/
def usesPool (category : Category) (header : Header) : Bool :=
  header.hasPlace && decide (header.kind.category = category)

/-- The places of a pool in the order of the nodes that refer to them. -/
def places (arena : Arena) (category : Category) : List Nat :=
  (arena.nodes.toList.filter (usesPool category)).map fun header => header.place.toNat

/-- An arena that has dealt out the places of its pools one by one. -/
def Dealt (arena : Arena) : Prop :=
  ∀ category, arena.places category = List.range (arena.poolSize category)

/-- Whether the node at a position has the payload at a place of the pool of a category. -/
def Owns (arena : Arena) (position : Nat) (category : Category) (place : Nat) : Prop :=
  ∃ header, arena.nodes[position]? = some header ∧ usesPool category header = true ∧
    header.place.toNat = place

theorem dealt_empty : empty.Dealt := by
  intro category
  cases category <;> rfl

section Append

variable {arena : Arena} {header : Header} {payload : Payload} {origin : NodeId}

theorem places_append (category : Category) :
    (arena.append header origin).1.places category =
      arena.places category ++
        ([header].filter (usesPool category)).map fun header => header.place.toNat := by
  rw [places, append, Array.toList_push, List.filter_append, List.map_append]
  rfl

theorem header?_append (fits : arena.Fits) :
    (arena.append header origin).1.header? (arena.append header origin).2 = some header := by
  have position : (arena.append header origin).2.position = arena.nodes.size :=
    NodeId.position_ofPosition (Nat.lt_of_lt_pred fits.nodes)
  have present : (arena.append header origin).2.isPresent = true :=
    NodeId.isPresent_ofPosition fits.nodes
  rw [header?_eq_some_iff, position]
  exact ⟨by simpa [NodeId.isPresent] using present, Array.getElem?_push_size⟩

theorem has_append (fits : arena.Fits) :
    (arena.append header origin).1.Has (arena.append header origin).2 :=
  has_of_header (header?_append fits)

theorem poolSize_append (category : Category) :
    (arena.append header origin).1.poolSize category = arena.poolSize category := by
  cases category <;> rfl

theorem poolSize_store (category : Category) :
    (arena.store payload).poolSize category =
      arena.poolSize category + if category = payload.category then 1 else 0 := by
  cases payload <;> cases category <;> simp [store, poolSize, Payload.category]

/-- An arena stays well-formed when a node without payload is added whose origin is in it. -/
theorem wellFormed_append (sound : arena.WellFormed) (noPlace : header.hasPlace = false)
    (source : arena.Holds origin) : (arena.append header origin).1.WellFormed := by
  apply (extends_append arena header origin).wellFormed_of_push sound rfl rfl _ _ source
  · simp only [isPlaced, noPlace, Bool.not_false, Bool.true_or]
  · intro child member
    simp [childrenAt, payloadAt?, noPlace] at member

theorem Dealt.append (dealt : arena.Dealt) (noPlace : header.hasPlace = false) :
    (arena.append header origin).1.Dealt := by
  intro category
  have outside : usesPool category header = false := by
    rw [usesPool, noPlace, Bool.false_and]
  rw [places_append, poolSize_append, dealt, List.filter_cons_of_neg (by simp [outside])]
  exact List.append_nil _

/-- A new payload goes to the end of its pool, and its node gets the place there. -/
theorem Dealt.appendWith (dealt : arena.Dealt) (fits : arena.Fits)
    (suits : header.kind.category = payload.category) :
    (arena.appendWith header payload origin).1.Dealt := by
  intro category
  have pools : (arena.appendWith header payload origin).1.poolSize category =
      arena.poolSize category + if category = payload.category then 1 else 0 :=
    (poolSize_append category).trans (poolSize_store category)
  have stored : (arena.store payload).places category = arena.places category := by
    cases payload <;> rfl
  have places : (arena.appendWith header payload origin).1.places category =
      arena.places category ++ ([arena.placedHeader header payload].filter
        (usesPool category)).map fun header => header.place.toNat := by
    rw [← stored]
    exact places_append category
  have uses : usesPool category (arena.placedHeader header payload) =
      decide (payload.category = category) := by
    rw [usesPool, hasPlace_placedHeader fits, Bool.true_and, ← suits]
    rfl
  rw [places, pools, dealt]
  by_cases same : category = payload.category
  · subst same
    rw [List.filter_cons_of_pos (by simp [uses]), if_pos rfl, List.range_succ]
    simp only [List.filter_nil, List.map_cons, List.map_nil, place_placedHeader fits]
  · have other : usesPool category (arena.placedHeader header payload) = false := by
      rw [uses, decide_eq_false_iff_not]
      exact fun again => same again.symm
    rw [List.filter_cons_of_neg (by simp [other]), if_neg same]
    exact List.append_nil _

end Append

/-- An operation deals out the next place, whatever children it is given. -/
theorem Dealt.apply {arena : Arena} (dealt : arena.Dealt) {op : Operation} (suited : op.Suited)
    (fits : (op.apply arena).1.Fits) : (op.apply arena).1.Dealt := by
  have room := fits.of_extends (extends_apply op arena)
  have outcome := op.outcome arena
  generalize op.apply arena = result at outcome ⊢
  cases outcome with
  | same => exact dealt
  | bare noPlace => exact dealt.append noPlace
  | added suits => exact dealt.appendWith room (suits suited)
  | copied _ stored alike =>
    exact dealt.appendWith room ((category_of_payloadAt? stored).trans alike.symm)

/-- An operation with proper arguments keeps the arena well-formed, and answers with a node of it,
or with the node that it was to change. -/
theorem WellFormed.apply {arena : Arena} (sound : arena.WellFormed) {op : Operation}
    (proper : op.Proper arena) (fits : (op.apply arena).1.Fits) :
    (op.apply arena).1.WellFormed ∧
      ((op.apply arena).2 = op.target ∨ (op.apply arena).1.Has (op.apply arena).2) := by
  have room := fits.of_extends (extends_apply op arena)
  have outcome := op.outcome arena
  generalize op.apply arena = result at outcome ⊢
  cases outcome with
  | same => exact ⟨sound, .inl rfl⟩
  | bare noPlace => exact ⟨wellFormed_append sound noPlace (.inr rfl), .inr (has_append room)⟩
  | added suits within =>
    exact ⟨wellFormed_appendWith sound room (suits proper.1)
      (fun slot member => proper.2 slot (within slot member)) (.inr rfl),
      .inr (has_appendWith room)⟩
  | copied found stored alike within =>
    have suits := (category_of_payloadAt? stored).trans alike.symm
    refine ⟨wellFormed_appendWith sound room suits ?_ (.inl (has_of_header found)),
      .inr (has_appendWith room)⟩
    intro slot member
    rcases within slot member with given | kept
    · exact proper.2 slot given
    · exact slots_hold sound found stored slot kept

/-- Lists in which the entries of a kind are numbered in order have one entry for each number. -/
theorem existsUnique_of_numbered {α : Type} {entries : List α} {chosen : α → Bool}
    {number : α → Nat} {count : Nat}
    (numbered : (entries.filter chosen).map number = List.range count) {place : Nat}
    (inside : place < count) :
    ∃! position : Nat, ∃ entry, entries[position]? = some entry ∧ chosen entry = true ∧
      number entry = place := by
  have apart : entries.Pairwise fun first second =>
      chosen first = true → chosen second = true → number first ≠ number second := by
    have distinct : ((entries.filter chosen).map number).Nodup := numbered ▸ List.nodup_range
    rw [List.Nodup, List.pairwise_map, List.pairwise_filter] at distinct
    exact distinct.imp fun differ first second => differ first second
  have present : place ∈ (entries.filter chosen).map number :=
    numbered ▸ List.mem_range.mpr inside
  obtain ⟨entry, member, number⟩ := List.mem_map.mp present
  obtain ⟨among, isChosen⟩ := List.mem_filter.mp member
  obtain ⟨position, found⟩ := List.mem_iff_getElem?.mp among
  refine ⟨position, ⟨entry, found, isChosen, number⟩, ?_⟩
  rintro other ⟨second, again, alsoChosen, same⟩
  rw [List.pairwise_iff_getElem] at apart
  obtain ⟨bound, atPosition⟩ := List.getElem?_eq_some_iff.mp found
  obtain ⟨otherBound, atOther⟩ := List.getElem?_eq_some_iff.mp again
  rcases Nat.lt_trichotomy other position with before | equal | behind
  · refine absurd ?_ (apart other position otherBound bound before ?_ ?_)
    · rw [atOther, atPosition, same, number]
    · rw [atOther, alsoChosen]
    · rw [atPosition, isChosen]
  · exact equal
  · refine absurd ?_ (apart position other bound otherBound behind ?_ ?_)
    · rw [atOther, atPosition, same, number]
    · rw [atPosition, isChosen]
    · rw [atOther, alsoChosen]

/-- Every payload has one owner. -/
theorem Dealt.existsUnique_owns {arena : Arena} (dealt : arena.Dealt) {category : Category}
    {place : Nat} (inside : place < arena.poolSize category) :
    ∃! position, arena.Owns position category place := by
  have unique := existsUnique_of_numbered (dealt category) inside
  simpa only [Owns, Array.getElem?_toList] using unique

/-- A pool is as long as the number of nodes that have something in it. -/
theorem Dealt.poolSize_eq {arena : Arena} (dealt : arena.Dealt) (category : Category) :
    arena.poolSize category = arena.nodes.countP (usesPool category) := by
  have length := congrArg List.length (dealt category)
  rw [List.length_range, places, List.length_map] at length
  rw [← length, ← List.countP_eq_length_filter, Array.countP_toList]

/-- Operations make of an arena and the handles `given` another arena and the handles `gained`.
Unless the arena outgrows the handles, they deal out places one by one; and they keep the arena
well-formed and what was gained in it, if what was given was in it before. -/
structure Builds (before : Arena) (given : List NodeId) (after : Arena) (gained : List NodeId) :
    Prop where
  edits : before.Edits after
  dealt : after.Fits → before.Dealt → after.Dealt
  sound : after.Fits → before.WellFormed → (∀ id ∈ given, before.Holds id) →
    after.WellFormed ∧ ∀ id ∈ gained, after.Holds id

namespace Builds

variable {first second third : Arena} {given gained needed more : List NodeId}

theorem refl (arena : Arena) (given : List NodeId) : arena.Builds given arena given where
  edits := Edits.refl arena
  dealt := fun _ dealt => dealt
  sound := fun _ sound held => ⟨sound, held⟩

/-- What was gained early may be used later, and is still there in the end. -/
theorem trans (early : first.Builds given second gained) (late : second.Builds needed third more)
    (known : ∀ id ∈ needed, id ∈ gained ∨ id = .absent) :
    first.Builds given third (more ++ gained) where
  edits := early.edits.trans late.edits
  dealt := by
    intro fits dealt
    exact late.dealt fits (early.dealt (fits.of_extends late.edits.extends) dealt)
  sound := by
    intro fits sound held
    obtain ⟨between, gains⟩ := early.sound (fits.of_extends late.edits.extends) sound held
    obtain ⟨after, gainsMore⟩ := late.sound fits between fun id member => by
      rcases known id member with known | absent
      · exact gains id known
      · exact .inr absent
    refine ⟨after, fun id member => ?_⟩
    rcases List.mem_append.mp member with new | old
    · exact gainsMore id new
    · exact (gains id old).extends late.edits.extends

theorem fewer (builds : first.Builds given second gained)
    (known : ∀ id ∈ more, id ∈ gained ∨ id = .absent) : first.Builds given second more where
  edits := builds.edits
  dealt := builds.dealt
  sound := by
    intro fits sound held
    obtain ⟨after, gains⟩ := builds.sound fits sound held
    refine ⟨after, fun id member => ?_⟩
    rcases known id member with known | absent
    · exact gains id known
    · exact .inr absent

theorem apply (op : Operation) (suited : op.Suited) (arena : Arena) :
    arena.Builds (op.target :: op.slots) (op.apply arena).1 [(op.apply arena).2] where
  edits := Edits.apply op arena
  dealt := fun fits dealt => dealt.apply suited fits
  sound := by
    intro fits sound held
    obtain ⟨target, slots⟩ := List.forall_mem_cons.mp held
    obtain ⟨after, answer⟩ := sound.apply ⟨suited, slots⟩ fits
    refine ⟨after, fun id member => ?_⟩
    rw [List.mem_singleton.mp member]
    rcases answer with same | has
    · rw [same]
      exact target.extends (extends_apply op arena)
    · exact .inl has

/-- One more operation, whose arguments are among the handles so far. -/
theorem edit (early : first.Builds given second gained) (op : Operation) (suited : op.Suited)
    (known : ∀ id ∈ op.target :: op.slots, id ∈ gained ∨ id = .absent) :
    first.Builds given (op.apply second).1 ((op.apply second).2 :: gained) :=
  early.trans (apply op suited second) known

/-- Something else is built for which no handle is needed. -/
theorem next (early : first.Builds given second gained) (late : second.Builds [] third more) :
    first.Builds given third (more ++ gained) :=
  early.trans late fun _ member => nomatch member

/-- A node is added whose children are among the handles so far. -/
theorem add (early : first.Builds given second gained) (op : Operation)
    (adds : op.target = .absent) (suited : op.Suited)
    (known : ∀ slot ∈ op.slots, slot ∈ gained ∨ slot = .absent) :
    first.Builds given (op.apply second).1 ((op.apply second).2 :: gained) := by
  apply early.edit op suited
  rw [adds]
  exact List.forall_mem_cons.mpr ⟨.inr rfl, known⟩

theorem last {id : NodeId} (builds : first.Builds given second (id :: gained)) :
    first.Builds given second [id] :=
  builds.fewer fun _ member => .inl (List.mem_cons.mpr (.inl (List.mem_singleton.mp member)))

/-- Handles that are not needed are still there afterwards. -/
theorem frame (builds : first.Builds given second gained) (kept : List NodeId) :
    first.Builds (given ++ kept) second (gained ++ kept) where
  edits := builds.edits
  dealt := builds.dealt
  sound := by
    intro fits sound held
    obtain ⟨after, gains⟩ :=
      builds.sound fits sound fun id member => held id (List.mem_append_left _ member)
    refine ⟨after, fun id member => ?_⟩
    rcases List.mem_append.mp member with new | old
    · exact gains id new
    · exact (held id (List.mem_append_right _ old)).extends builds.edits.extends

/-- Nodes are built one after another, each from handles of its own. -/
theorem cons {result : NodeId} {results : List NodeId}
    (head : first.Builds given second [result]) (tail : second.Builds needed third results) :
    first.Builds (given ++ needed) third (result :: results) := by
  refine ((head.frame needed).trans tail fun _ later =>
    .inl (List.mem_append_right _ later)).fewer fun id member => .inl ?_
  rcases List.mem_cons.mp member with rfl | later
  · exact List.mem_append_right _ (List.mem_append_left _ (List.mem_singleton_self _))
  · exact List.mem_append_left _ later

/-- A node can be used together with its slots. -/
theorem contents {arena : Arena} {id : NodeId} {header : Header} {payload : Payload}
    (found : arena.header? id = some header) (stored : arena.payloadAt? header = some payload)
    (given : List NodeId) : arena.Builds given arena (id :: payload.slots) where
  edits := Edits.refl arena
  dealt := fun _ dealt => dealt
  sound := by
    intro _ sound _
    have held := slots_hold sound found stored
    exact ⟨sound, List.forall_mem_cons.mpr ⟨.inl (has_of_header found), held⟩⟩

/-- So can the children of a node. -/
theorem children (arena : Arena) (id : NodeId) (given : List NodeId) :
    arena.Builds given arena (arena.children id) where
  edits := Edits.refl arena
  dealt := fun _ dealt => dealt
  sound := fun _ sound _ => ⟨sound, fun _ member => .inl (sound.child_has member)⟩

end Builds

end EnumStamp.Arena
