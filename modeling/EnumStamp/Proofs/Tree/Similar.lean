import Mathlib.Algebra.GroupWithZero.Nat
import Mathlib.Data.List.Forall2
import EnumStamp.Arena.Similar
import EnumStamp.Proofs.Arena.Weight
import EnumStamp.Proofs.Tree.Basic

set_option autoImplicit false

namespace EnumStamp

/-- What a comparison sees of a tree. -/
inductive Outline where
  /-- A node that is not there, which is like itself only. -/
  | missing (id : NodeId)
  | node (kind : Kind) (leaf : Arena.Leaf) (children : List Outline)

def Shape.leaf : Shape → Arena.Leaf
  | .identifier text => .text text
  | .literal text => .text text
  | .doc comment => .text comment
  | .enumeration modifiers => .modifierList modifiers.isSome
  | _ => .nothing

def Tree.isHole : Tree → Bool
  | .hole => true
  | _ => false

theorem map_eq_map_iff_forall₂ {α β γ : Type} {read : α → γ} {view : β → γ} {first : List α}
    {second : List β} :
    first.map read = second.map view ↔
      List.Forall₂ (fun one other => read one = view other) first second := by
  rw [← List.forall₂_eq_eq_eq, List.forall₂_map_left_iff, List.forall₂_map_right_iff]

namespace Arena

/-- The outline of the tree below a node. Only children that come before their parent are followed,
as they all do in a well-formed arena. -/
def outline (arena : Arena) (id : NodeId) : Outline :=
  match arena.kind? id with
  | none => .missing id
  | some kind =>
    .node kind (arena.leaf id) ((arena.children id).map fun child =>
      if _lower : child.position < id.position then arena.outline child else .missing child)
termination_by id.position

variable {arena : Arena}

theorem outline_of_missing {id : NodeId} (absent : arena.kind? id = none) :
    arena.outline id = .missing id := by
  rw [outline, absent]

theorem outline_of_kind (sound : arena.WellFormed) {id : NodeId} {kind : Kind}
    (found : arena.kind? id = some kind) :
    arena.outline id = .node kind (arena.leaf id) ((arena.children id).map arena.outline) := by
  rw [outline, found]
  dsimp only
  congr 1
  apply List.map_congr_left
  intro child member
  exact dif_pos (sound.child_lt member)

/-- Two nodes are alike if they agree and their children are alike. -/
theorem outline_eq_iff (sound : arena.WellFormed) {left right : NodeId} (differ : left ≠ right) :
    arena.outline left = arena.outline right ↔
      arena.agree left right = true ∧
        ∀ pair ∈ (arena.children left).zip (arena.children right),
          arena.outline pair.1 = arena.outline pair.2 := by
  unfold agree
  cases atLeft : arena.kind? left with
  | none =>
    rw [outline_of_missing atLeft]
    cases atRight : arena.kind? right with
    | none =>
      rw [outline_of_missing atRight]
      simp [differ]
    | some kind =>
      rw [outline_of_kind sound atRight]
      simp
  | some kind =>
    rw [outline_of_kind sound atLeft]
    cases atRight : arena.kind? right with
    | none =>
      rw [outline_of_missing atRight]
      simp
    | some other =>
      rw [outline_of_kind sound atRight, Outline.node.injEq, map_eq_map_iff_forall₂,
        List.forall₂_iff_zip]
      simp only [Bool.and_eq_true, beq_iff_eq, Prod.forall, and_assoc]

theorem length_children_of_agree {left right : NodeId} (agreed : arena.agree left right = true) :
    (arena.children left).length = (arena.children right).length := by
  unfold agree at agreed
  split at agreed
  · simp only [Bool.and_eq_true, beq_iff_eq] at agreed
    omega
  · cases agreed

theorem weights_eq_sum (arena : Arena) (ids : List NodeId) :
    arena.weights ids = (ids.map arena.weight).sum := rfl

/-- Pairs that are put in front of the others in reverse order add the weights of their left
sides. -/
theorem weights_pushed {lefts rights : List NodeId} (lengths : lefts.length = rights.length)
    (pending : List (NodeId × NodeId)) :
    arena.weights (((lefts.zip rights).reverse ++ pending).map Prod.fst) =
      arena.weights lefts + arena.weights (pending.map Prod.fst) := by
  rw [List.map_append, List.map_reverse, List.map_fst_zip (Nat.le_of_eq lengths)]
  simp only [weights_eq_sum]
  rw [List.map_append, List.map_reverse, List.sum_append, List.sum_reverse]

/-- As many steps as the left trees have occurrences are enough for a comparison, which finds out
whether all pairs are alike. -/
theorem compare_eq (sound : arena.WellFormed) (steps : Nat) (pending : List (NodeId × NodeId))
    (enough : arena.weights (pending.map Prod.fst) ≤ steps) :
    ∃ answer, arena.compare steps pending = some answer ∧
      (answer = true ↔ ∀ pair ∈ pending, arena.outline pair.1 = arena.outline pair.2) := by
  induction steps generalizing pending with
  | zero =>
    cases pending with
    | nil => exact ⟨true, rfl, by simp⟩
    | cons pair pending =>
      have positive := arena.weight_pos pair.1
      rw [List.map_cons, weights_cons] at enough
      omega
  | succ steps ih =>
    cases pending with
    | nil => exact ⟨true, rfl, by simp⟩
    | cons pair pending =>
      obtain ⟨left, right⟩ := pair
      have room : arena.weight left + arena.weights (pending.map Prod.fst) ≤ steps + 1 := enough
      have positive := arena.weight_pos left
      unfold compare
      by_cases same : left = right
      · obtain ⟨answer, compared, alike⟩ := ih pending (by omega)
        rw [if_pos same]
        refine ⟨answer, compared, alike.trans ?_⟩
        rw [List.forall_mem_cons]
        exact (and_iff_right (congrArg arena.outline same)).symm
      · have isAlike := outline_eq_iff sound same
        rw [if_neg same]
        cases agreed : arena.agree left right with
        | false =>
          refine ⟨false, rfl, ?_⟩
          rw [List.forall_mem_cons, isAlike, agreed]
          simp
        | true =>
          let pairs := (arena.children left).zip (arena.children right)
          have weight := weight_eq sound left
          have less : arena.weights ((pairs.reverse ++ pending).map Prod.fst) ≤ steps := by
            rw [weights_pushed (length_children_of_agree agreed)]
            omega
          obtain ⟨answer, compared, alike⟩ := ih (pairs.reverse ++ pending) less
          refine ⟨answer, compared, alike.trans ?_⟩
          rw [List.forall_mem_append, List.forall_mem_cons, isAlike, agreed]
          simp only [List.mem_reverse, true_and]
          exact Iff.rfl

/-- Two nodes of a well-formed arena are similar just if their outlines are the same. -/
theorem similar?_eq (sound : arena.WellFormed) (left right : NodeId) :
    ∃ answer, arena.similar? left right = some answer ∧
      (answer = true ↔ arena.outline left = arena.outline right) := by
  have enough : arena.weights ([(left, right)].map Prod.fst) ≤ arena.occurrenceBound left := by
    rw [occurrenceBound_eq sound]
    exact Nat.le_refl _
  obtain ⟨answer, compared, alike⟩ := compare_eq sound _ [(left, right)] enough
  exact ⟨answer, compared, by simpa using alike⟩

theorem similar?_of_outline_eq (sound : arena.WellFormed) {left right : NodeId}
    (same : arena.outline left = arena.outline right) :
    arena.similar? left right = some true := by
  obtain ⟨answer, compared, alike⟩ := similar?_eq sound left right
  rw [compared, alike.mpr same]

/-- A node's leaf is part of its label. -/
theorem leaf_eq {id : NodeId} {header : Header} (found : arena.header? id = some header) :
    arena.leaf id = (header.label (arena.payloadAt? header)).shape.leaf := by
  unfold leaf
  rw [payload?_of_header? found]
  cases arena.payloadAt? header with
  | none => rfl
  | some payload =>
    cases payload with
    | enumeration decl =>
      show Leaf.modifierList _ = Leaf.modifierList (decl.modifiers.map List.length).isSome
      rw [Option.isSome_map]
    | _ => rfl

/-- The trees of the children are those of the slots that are not empty. -/
theorem map_tree_children (sound : arena.WellFormed) {id : NodeId} {header : Header}
    (found : arena.header? id = some header) :
    (arena.children id).map arena.tree =
      ((arena.slotsAt header).map arena.tree).filter fun tree => !tree.isHole := by
  rw [children_eq_filter found, List.filter_map]
  congr 1
  apply List.filter_congr
  intro slot member
  rcases sound.slot_cases found member with rfl | ⟨has, _⟩
  · show NodeId.absent.isPresent = !(arena.tree .absent).isHole
    rw [tree_absent]
    rfl
  · obtain ⟨own, atSlot⟩ := has.header
    show slot.isPresent = !(arena.tree slot).isHole
    rw [tree_eq sound atSlot, (has_iff.mp has).1]
    rfl

/-- Nodes with one tree have one outline. -/
theorem outline_of_tree_eq (sound : arena.WellFormed) {left right : NodeId} (has : arena.Has left)
    (hasOther : arena.Has right) (same : arena.tree left = arena.tree right) :
    arena.outline left = arena.outline right := by
  induction position : left.position using Nat.strongRecOn generalizing left right with
  | ind position ih =>
    obtain ⟨header, found⟩ := has.header
    obtain ⟨other, atRight⟩ := hasOther.header
    have leftChildren := map_tree_children sound found
    have rightChildren := map_tree_children sound atRight
    rw [tree_eq sound found, tree_eq sound atRight, Tree.node.injEq] at same
    obtain ⟨label, slots⟩ := same
    have kind : header.kind = other.kind := congrArg Label.kind label
    have leaf : arena.leaf left = arena.leaf right := by
      rw [leaf_eq found, leaf_eq atRight, label]
    have trees : (arena.children left).map arena.tree = (arena.children right).map arena.tree := by
      rw [leftChildren, rightChildren, slots]
    have outlines : (arena.children left).map arena.outline =
        (arena.children right).map arena.outline := by
      rw [map_eq_map_iff_forall₂, List.forall₂_iff_zip] at trees ⊢
      refine ⟨trees.1, ?_⟩
      intro child replacement paired
      obtain ⟨isChild, isOther⟩ := List.of_mem_zip paired
      have lower := sound.child_lt isChild
      exact ih child.position (by omega) (sound.child_has isChild) (sound.child_has isOther)
        (trees.2 paired) rfl
    have atLeft : arena.kind? left = some header.kind := by
      rw [kind?, found, Option.map_some]
    have atOther : arena.kind? right = some other.kind := by
      rw [kind?, atRight, Option.map_some]
    rw [outline_of_kind sound atLeft, outline_of_kind sound atOther, kind, leaf, outlines]

/-- Nodes with one tree are similar. -/
theorem similar?_of_tree_eq (sound : arena.WellFormed) {left right : NodeId}
    (has : arena.Has left) (hasOther : arena.Has right)
    (same : arena.tree left = arena.tree right) : arena.similar? left right = some true :=
  similar?_of_outline_eq sound (outline_of_tree_eq sound has hasOther same)

end Arena

end EnumStamp
