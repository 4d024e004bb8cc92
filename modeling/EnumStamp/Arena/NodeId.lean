set_option autoImplicit false

namespace EnumStamp

/-- A handle of a node in some arena; the node need not exist. -/
structure NodeId where
  raw : UInt32
  deriving DecidableEq

namespace NodeId

/-- The id that marks a slot without a node. -/
def absent : NodeId := ⟨0xFFFFFFFF⟩

instance : Inhabited NodeId := ⟨absent⟩

def isAbsent (id : NodeId) : Bool :=
  id == absent

/-- Whether the id refers to a node, which may still be missing from the arena at hand. -/
def isPresent (id : NodeId) : Bool :=
  !id.isAbsent

def ofPosition (position : Nat) : NodeId :=
  ⟨.ofNat position⟩

def position (id : NodeId) : Nat :=
  id.raw.toNat

@[simp] theorem isAbsent_absent : absent.isAbsent = true := rfl

theorem isAbsent_iff (id : NodeId) : id.isAbsent = true ↔ id = absent := by
  simp only [isAbsent, beq_iff_eq]

theorem isPresent_iff (id : NodeId) : id.isPresent = true ↔ id ≠ absent := by
  simp only [isPresent, isAbsent, Bool.not_eq_true', beq_eq_false_iff_ne]

theorem position_ofPosition {position : Nat} (small : position < UInt32.size) :
    (ofPosition position).position = position :=
  UInt32.toNat_ofNat_of_lt' small

theorem ofPosition_position (id : NodeId) : ofPosition id.position = id := by
  simp only [ofPosition, position, UInt32.ofNat_toNat]

theorem isPresent_ofPosition {position : Nat} (small : position < UInt32.size - 1) :
    (ofPosition position).isPresent = true := by
  rw [isPresent_iff]
  intro same
  have value := congrArg NodeId.position same
  rw [position_ofPosition (by omega)] at value
  have top : absent.position = UInt32.size - 1 := rfl
  omega

end NodeId

end EnumStamp
