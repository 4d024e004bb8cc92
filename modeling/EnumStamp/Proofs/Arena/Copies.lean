import EnumStamp.Proofs.Arena.Extends

set_option autoImplicit false

namespace EnumStamp.Arena

theorem Extends.poolSize_le {before after : Arena} (grown : before.Extends after)
    (category : Category) : before.poolSize category ≤ after.poolSize category := by
  cases category with
  | token => exact Nat.le_refl 0
  | identifier => exact grown.identifiers.length_le
  | literal => exact grown.literals.length_le
  | sourceFile => exact grown.sourceFiles.length_le
  | enumeration => exact grown.enums.length_le
  | enumMember => exact grown.enumMembers.length_le
  | computedName => exact grown.computedNames.length_le
  | moduleDecl => exact grown.modules.length_le
  | doc => exact grown.docs.length_le
  | composite => exact grown.composites.length_le

/-- What fits in the end did so before. -/
theorem Fits.of_extends {before after : Arena} (fits : after.Fits) (grown : before.Extends after) :
    before.Fits where
  nodes := Nat.lt_of_le_of_lt grown.size_le fits.nodes
  pools := fun category => Nat.lt_of_le_of_lt (grown.poolSize_le category) (fits.pools category)

theorem Extends.isPlaced {before after : Arena} (grown : before.Extends after) {header : Header}
    (placed : before.isPlaced header = true) : after.isPlaced header = true := by
  simp only [Arena.isPlaced, Bool.or_eq_true, Bool.not_eq_true', decide_eq_true_eq] at placed ⊢
  have larger := grown.poolSize_le header.kind.category
  rcases placed with bare | inPool
  · exact .inl bare
  · exact .inr (by omega)

theorem Extends.childrenAt_eq {before after : Arena} (grown : before.Extends after)
    {header : Header} (placed : before.isPlaced header = true) :
    after.childrenAt header = before.childrenAt header := by
  rw [childrenAt, childrenAt, grown.payloadAt?_eq placed]

/-- A slot of an arena is absent or holds one of its nodes. -/
def Holds (arena : Arena) (slot : NodeId) : Prop :=
  arena.Has slot ∨ slot = .absent

theorem Holds.position_lt {arena : Arena} {slot : NodeId} (holds : arena.Holds slot)
    (present : slot.isPresent = true) : slot.position < arena.size := by
  rcases holds with has | rfl
  · exact (has_iff.mp has).2
  · cases present

theorem Holds.extends {before after : Arena} {slot : NodeId} (holds : before.Holds slot)
    (grown : before.Extends after) : after.Holds slot :=
  holds.imp grown.has id

section AppendWith

variable {arena : Arena} {header : Header} {payload : Payload} {origin : NodeId}

def placedHeader (arena : Arena) (header : Header) (payload : Payload) : Header :=
  { header with place := .ofNat (arena.poolSize payload.category) }

theorem nodes_appendWith :
    (arena.appendWith header payload origin).1.nodes =
      arena.nodes.push (arena.placedHeader header payload) := by
  cases payload <;> rfl

theorem origins_appendWith :
    (arena.appendWith header payload origin).1.origins = arena.origins.push origin := by
  cases payload <;> rfl

theorem pooled?_appendWith (category : Category) (place : Nat) :
    (arena.appendWith header payload origin).1.pooled? category place =
      (arena.store payload).pooled? category place := by
  cases category <;> rfl

theorem place_placedHeader (fits : arena.Fits) (header : Header) (payload : Payload) :
    (arena.placedHeader header payload).place.toNat = arena.poolSize payload.category := by
  have small := fits.pools payload.category
  have inRange : arena.poolSize payload.category < UInt32.size :=
    Nat.lt_of_lt_of_le small (by decide)
  exact UInt32.toNat_ofNat_of_lt' inRange

theorem hasPlace_placedHeader (fits : arena.Fits) :
    (arena.placedHeader header payload).hasPlace = true := by
  have small := fits.pools payload.category
  simp only [Header.hasPlace, bne_iff_ne]
  intro same
  have place := place_placedHeader fits header payload
  rw [same] at place
  have top : Header.noPlace.toNat = UInt32.size - 1 := rfl
  omega

/-- The payload of a new node is the one it was added with. -/
theorem payloadAt?_placedHeader (fits : arena.Fits) (origin : NodeId)
    (suits : header.kind.category = payload.category) :
    (arena.appendWith header payload origin).1.payloadAt? (arena.placedHeader header payload) =
      some payload := by
  rw [payloadAt?, if_pos (hasPlace_placedHeader fits), pooled?_appendWith, pooled?_store,
    place_placedHeader fits header payload]
  exact if_pos ⟨suits, congrArg arena.poolSize suits.symm⟩

theorem position_appendWith (fits : arena.Fits) :
    (arena.appendWith header payload origin).2.position = arena.size := by
  have small := fits.nodes
  have id : (arena.appendWith header payload origin).2 = .ofPosition arena.size :=
    congrArg NodeId.ofPosition (size_store arena payload)
  rw [id, NodeId.position_ofPosition (by omega)]

theorem header?_appendWith (fits : arena.Fits) :
    (arena.appendWith header payload origin).1.header? (arena.appendWith header payload origin).2 =
      some (arena.placedHeader header payload) := by
  rw [header?_eq_some_iff, position_appendWith fits, nodes_appendWith]
  constructor
  · have present := NodeId.isPresent_ofPosition fits.nodes
    have id : (arena.appendWith header payload origin).2 = .ofPosition arena.size :=
      congrArg NodeId.ofPosition (size_store arena payload)
    rw [id]
    simpa [NodeId.isPresent] using present
  · exact Array.getElem?_push_size

theorem has_appendWith (fits : arena.Fits) :
    (arena.appendWith header payload origin).1.Has (arena.appendWith header payload origin).2 :=
  has_of_header (header?_appendWith fits)

/-- The origin of a new node is the one it was added with. -/
theorem origin_appendWith (paired : arena.origins.size = arena.nodes.size) (fits : arena.Fits) :
    (arena.appendWith header payload origin).1.origin
      (arena.appendWith header payload origin).2 = origin := by
  have present : (arena.appendWith header payload origin).2.isAbsent = false :=
    (header?_eq_some_iff.mp (header?_appendWith fits)).1
  have place : (arena.appendWith header payload origin).2.position = arena.origins.size :=
    (position_appendWith fits).trans paired.symm
  rw [Arena.origin, present, if_neg Bool.false_ne_true, origins_appendWith, place,
    Array.getElem?_push_size, Option.getD_some]

/-- The new node is in its pool and comes after its slots. -/
theorem childrenAt_placedHeader (fits : arena.Fits)
    (suits : header.kind.category = payload.category)
    (slots : ∀ slot ∈ payload.slots, arena.Holds slot) {child : NodeId}
    (member : child ∈ (arena.appendWith header payload origin).1.childrenAt
      (arena.placedHeader header payload)) : child.position < arena.size := by
  rw [childrenAt, payloadAt?_placedHeader fits origin suits] at member
  obtain ⟨isSlot, present⟩ := List.mem_filter.mp member
  exact (slots child isSlot).position_lt present

/-- An arena stays well-formed when it gets one node whose children and origin are in it. -/
theorem Extends.wellFormed_of_push {after : Arena} (grown : arena.Extends after)
    (sound : arena.WellFormed) (nodes : after.nodes = arena.nodes.push header)
    (origins : after.origins = arena.origins.push origin)
    (placed : after.isPlaced header = true)
    (lower : ∀ child ∈ after.childrenAt header, child.position < arena.size)
    (source : arena.Holds origin) : after.WellFormed := by
  constructor
  · rw [nodes, origins, Array.size_push, Array.size_push, sound.paired]
  · intro other member
    rw [nodes, Array.mem_push] at member
    rcases member with old | rfl
    · exact grown.isPlaced (sound.placed other old)
    · exact placed
  · intro position inside child member
    simp only [nodes, Array.size_push] at inside
    simp only [nodes, Array.getElem_push] at member
    split at member
    · rename_i old
      rw [grown.childrenAt_eq (sound.placed _ (Array.getElem_mem old))] at member
      exact sound.ordered position old child member
    · have below := lower child member
      simp only [size] at below
      omega
  · intro position inside present
    simp only [origins, Array.size_push] at inside
    simp only [origins, Array.getElem_push] at present ⊢
    split at present
    · rename_i old
      rw [dif_pos old]
      exact sound.derived position old present
    · rename_i last
      rw [dif_neg last]
      have below := source.position_lt present
      have paired := sound.paired
      simp only [size] at below
      omega

/-- An arena stays well-formed when a node is added whose slots and origin are in it. -/
theorem wellFormed_appendWith (sound : arena.WellFormed) (fits : arena.Fits)
    (suits : header.kind.category = payload.category)
    (slots : ∀ slot ∈ payload.slots, arena.Holds slot) (source : arena.Holds origin) :
    (arena.appendWith header payload origin).1.WellFormed := by
  apply (extends_appendWith arena header payload origin).wellFormed_of_push sound nodes_appendWith
    origins_appendWith _ (fun child => childrenAt_placedHeader fits suits slots) source
  have stored := payloadAt?_placedHeader fits origin suits
  rw [payloadAt?, if_pos (hasPlace_placedHeader fits)] at stored
  have inPool := (pooled?_isSome_iff _ _ _).mp (Option.isSome_iff_exists.mpr ⟨_, stored⟩)
  simp only [Arena.isPlaced, Bool.or_eq_true, decide_eq_true_eq]
  exact .inr inPool

end AppendWith

end EnumStamp.Arena
