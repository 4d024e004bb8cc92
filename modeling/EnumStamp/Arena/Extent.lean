import EnumStamp.Arena.Basic

/-!
Extents: how many node occurrences a tree has when its shared nodes are counted once for each way to
them. In a settled arena, where children come before their parents, extents are sums over the
children, and they bound every walk.
-/

set_option autoImplicit false

namespace EnumStamp.Arena

/-- Whether the payload that a header refers to is in its pool. -/
def isPlaced (arena : Arena) (header : Header) : Bool :=
  !header.hasPlace || header.place.toNat < arena.poolSize header.kind.category

/-- Whether every payload is in its pool and all children come before their parents. -/
def isSettled (arena : Arena) : Bool :=
  arena.nodes.all arena.isPlaced &&
    arena.size.all fun position _ =>
      (arena.children (.ofPosition position)).all fun child => child.position < position

/-- The extent of a node that is not yet in the table: its own occurrence and those below its
children, where a child outside the table counts as one. -/
def extentFrom (arena : Arena) (table : Array Nat) (id : NodeId) : Nat :=
  1 + ((arena.children id).map fun child => table[child.position]?.getD 1).foldr (· + ·) 0

def extents (arena : Arena) (count : Nat) : Array Nat :=
  count.fold
    (fun position _ table => table.push (arena.extentFrom table (.ofPosition position))) #[]

theorem extents_succ (arena : Arena) (count : Nat) :
    arena.extents (count + 1) =
      (arena.extents count).push
        (arena.extentFrom (arena.extents count) (.ofPosition count)) := by
  simp only [extents, Nat.fold_succ]

/-- A bound for walks over arenas that are not settled, of which no bound is known in advance. -/
def unsettledBound : Nat := 1 <<< 62

/-- A bound for the occurrences that a walk from `id` meets. -/
def occurrenceBound (arena : Arena) (id : NodeId) : Nat :=
  if arena.isSettled then arena.extentFrom (arena.extents arena.size) id else unsettledBound

end EnumStamp.Arena
