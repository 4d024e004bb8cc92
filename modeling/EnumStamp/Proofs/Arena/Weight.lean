import EnumStamp.Proofs.Arena.WellFormed

set_option autoImplicit false

namespace EnumStamp.Arena

/-- The number of node occurrences of the tree below a node, the node included. -/
def weight (arena : Arena) (id : NodeId) : Nat :=
  arena.extentFrom (arena.extents arena.size) id

def weights (arena : Arena) (ids : List NodeId) : Nat :=
  (ids.map arena.weight).foldr (· + ·) 0

@[simp] theorem weights_cons (arena : Arena) (id : NodeId) (ids : List NodeId) :
    arena.weights (id :: ids) = arena.weight id + arena.weights ids := rfl

theorem size_extents (arena : Arena) (count : Nat) : (arena.extents count).size = count := by
  induction count with
  | zero => rfl
  | succ count ih => rw [extents_succ, Array.size_push, ih]

/-- An entry of the table depends only on the entries before it. -/
theorem getElem?_extents (arena : Arena) {position count : Nat} (inside : position < count) :
    (arena.extents count)[position]? =
      some (arena.extentFrom (arena.extents position) (.ofPosition position)) := by
  induction count with
  | zero => omega
  | succ count ih =>
    rw [extents_succ, Array.getElem?_push, size_extents]
    by_cases last : position = count
    · rw [if_pos last, last]
    · rw [if_neg last]
      exact ih (by omega)

theorem extentFrom_congr (arena : Arena) {first second : Nat} {id : NodeId}
    (below : ∀ child ∈ arena.children id, child.position < first ∧ child.position < second) :
    arena.extentFrom (arena.extents first) id = arena.extentFrom (arena.extents second) id := by
  unfold extentFrom
  congr 2
  apply List.map_congr_left
  intro child member
  have bounds := below child member
  rw [getElem?_extents arena bounds.1, getElem?_extents arena bounds.2]

theorem weight_eq {arena : Arena} (sound : arena.WellFormed) (id : NodeId) :
    arena.weight id = 1 + arena.weights (arena.children id) := by
  rw [weight, extentFrom, weights]
  congr 2
  apply List.map_congr_left
  intro child member
  have inside : child.position < arena.size := (has_iff.mp (sound.child_has member)).2
  rw [getElem?_extents arena inside, Option.getD_some, NodeId.ofPosition_position, weight]
  apply extentFrom_congr
  intro grandchild deeper
  have lower := sound.child_lt deeper
  omega

theorem weight_pos (arena : Arena) (id : NodeId) : 0 < arena.weight id := by
  unfold weight extentFrom
  omega

theorem occurrenceBound_eq {arena : Arena} (sound : arena.WellFormed) (id : NodeId) :
    arena.occurrenceBound id = arena.weight id := by
  rw [occurrenceBound, if_pos sound.isSettled, weight]

end EnumStamp.Arena
