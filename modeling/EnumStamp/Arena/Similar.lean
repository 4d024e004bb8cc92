import EnumStamp.Arena.Extent

set_option autoImplicit false

namespace EnumStamp.Arena

/-- What similar nodes have to agree on besides their kinds and children. -/
inductive Leaf where
  | nothing
  | text (value : String)
  | modifierList (present : Bool)
  deriving DecidableEq

/-- The leaf of a node: its text, or for an enum whether it has a modifier list. -/
def leaf (arena : Arena) (id : NodeId) : Leaf :=
  match arena.payload? id with
  | some (.identifier text) => .text text
  | some (.literal text) => .text text
  | some (.doc comment) => .text comment.comment
  | some (.enumeration decl) => .modifierList decl.modifiers.isSome
  | _ => .nothing

/-- Whether two nodes exist and agree on kind, leaf and number of children. -/
def agree (arena : Arena) (left right : NodeId) : Bool :=
  match arena.kind? left, arena.kind? right with
  | some kind, some other =>
    kind == other && arena.leaf left == arena.leaf right &&
      (arena.children left).length == (arena.children right).length
  | _, _ => false

/-- Compares the waiting pairs in at most `steps` steps. -/
def compare (arena : Arena) : (steps : Nat) → (pending : List (NodeId × NodeId)) → Option Bool
  | _, [] => some true
  | 0, _ :: _ => none
  | steps + 1, (left, right) :: pending =>
    if left = right then arena.compare steps pending
    else if arena.agree left right then
      let pairs := (arena.children left).zip (arena.children right)
      arena.compare steps (pairs.reverse ++ pending)
    else some false

/-- Whether two trees are alike. There is no answer for trees without end. -/
def similar? (arena : Arena) (left right : NodeId) : Option Bool :=
  arena.compare (arena.occurrenceBound left) [(left, right)]

end EnumStamp.Arena
