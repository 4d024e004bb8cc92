import Mathlib.Algebra.GroupWithZero.Nat
import Mathlib.Data.List.Nodup
import EnumStamp.Arena.Declaration
import EnumStamp.Proofs.Arena.Persistence

set_option autoImplicit false

namespace EnumStamp.Arena

/-- The node that a path of child numbers leads to. -/
def nodeAt? (arena : Arena) : NodeId → List Nat → Option NodeId
  | id, [] => some id
  | id, index :: path => (arena.children id)[index]?.bind fun child => arena.nodeAt? child path

/-- Whether a walk goes on to the children of a node. -/
def isEntered (arena : Arena) (id : NodeId) : Bool :=
  (arena.kind? id).any fun kind => !kind.isDoc && kind != Construct.enumDeclaration.kind

/-- A path and the node at its end. -/
abbrev Occurrence := List Nat × NodeId

/-- An occurrence below a child with some number, seen from the parent. -/
def Occurrence.below (index : Nat) (occurrence : Occurrence) : Occurrence :=
  (index :: occurrence.1, occurrence.2)

/-- The occurrences that a walk meets from a node on, each before those below it. Only children that
come before their parent are followed, as they all do in a well-formed arena. -/
def occurrences (arena : Arena) (id : NodeId) : List Occurrence :=
  ([], id) ::
    if arena.isEntered id then
      (arena.children id).zipIdx.flatMap fun child =>
        if _lower : child.1.position < id.position then
          (arena.occurrences child.1).map (Occurrence.below child.2)
        else []
    else []
termination_by id.position

/-- How many of some enum members have a simple name. -/
def namedAmong (arena : Arena) (members : List NodeId) : Nat :=
  members.countP fun member => (arena.memberName? member).isSome

def namedMembers (arena : Arena) (id : NodeId) : Nat :=
  ((arena.enumDecl? id).map fun decl => arena.namedAmong decl.members).getD 0

/-- Whether the node is a const enum with a name, some member of which has a simple name. -/
def isEffective (arena : Arena) (id : NodeId) : Bool :=
  arena.isConstEnum id && (arena.enumName? id).isSome && decide (0 < arena.namedMembers id)

def isAffected (arena : Arena) (id : NodeId) : Bool :=
  (arena.occurrences id).any fun occurrence => arena.isEffective occurrence.2

def isAbove (arena : Arena) (id : NodeId) : Bool :=
  (arena.occurrences id).tail.any fun occurrence => arena.isEffective occurrence.2

/-- The nodes that stamping below a root adds: for each occurrence of an effective enum two for each
member with a simple name and the enum's copy, and a copy for each occurrence above one. -/
def growth (arena : Arena) (root : NodeId) : Nat :=
  (((arena.occurrences root).filter fun occurrence => arena.isEffective occurrence.2).map
      fun occurrence => 2 * arena.namedMembers occurrence.2 + 1).sum +
    (arena.occurrences root).countP fun occurrence => arena.isAbove occurrence.2

/-- The nodes that are added at an occurrence of a node itself. -/
def cost (arena : Arena) (id : NodeId) : Nat :=
  (if arena.isEffective id then 2 * arena.namedMembers id + 1 else 0) +
    if arena.isAbove id then 1 else 0

theorem growth_eq_sum_cost (arena : Arena) (root : NodeId) :
    arena.growth root =
      ((arena.occurrences root).map fun occurrence => arena.cost occurrence.2).sum := by
  unfold growth
  induction arena.occurrences root with
  | nil => rfl
  | cons occurrence occurrences ih =>
    rw [List.map_cons, List.sum_cons, ← ih, cost, List.filter_cons, List.countP_cons]
    split
    · rw [List.map_cons, List.sum_cons]
      omega
    · omega

theorem Extends.nodeAt?_eq {before after : Arena} (grown : before.Extends after)
    (sound : before.WellFormed) {id : NodeId} (has : before.Has id) (path : List Nat) :
    after.nodeAt? id path = before.nodeAt? id path := by
  induction path generalizing id with
  | nil => rfl
  | cons index path ih =>
    rw [nodeAt?, nodeAt?, grown.children_eq sound has]
    cases found : (before.children id)[index]? with
    | none => rfl
    | some child => exact ih (sound.child_has (List.mem_of_getElem? found))

theorem mem_occurrences_self (arena : Arena) (id : NodeId) : ([], id) ∈ arena.occurrences id := by
  rw [occurrences]
  exact List.mem_cons_self ..

theorem isEntered_iff {arena : Arena} {id : NodeId} :
    arena.isEntered id = true ↔ ∃ kind, arena.kind? id = some kind ∧ kind.isDoc = false ∧
      kind ≠ Construct.enumDeclaration.kind := by
  rw [isEntered]
  cases arena.kind? id with
  | none => simp
  | some kind => simp

theorem occurrences_of_not_entered {arena : Arena} {id : NodeId}
    (stays : arena.isEntered id = false) : arena.occurrences id = [([], id)] := by
  rw [occurrences, stays]
  rfl

theorem occurrences_of_entered {arena : Arena} (sound : arena.WellFormed) {id : NodeId}
    (entered : arena.isEntered id = true) :
    arena.occurrences id = ([], id) :: (arena.children id).zipIdx.flatMap fun child =>
      (arena.occurrences child.1).map (Occurrence.below child.2) := by
  rw [occurrences, if_pos entered]
  congr 1
  apply List.flatMap_congr
  intro child member
  have found := List.mem_zipIdx_iff_getElem?.mp member
  exact dif_pos (sound.child_lt (List.mem_of_getElem? found))

theorem mem_occurrences_nil {arena : Arena} {root other : NodeId} :
    ([], other) ∈ arena.occurrences root ↔ other = root := by
  rw [occurrences]
  constructor
  · intro member
    rcases List.mem_cons.mp member with same | deeper
    · exact (Prod.mk.inj same).2
    · split at deeper
      · obtain ⟨child, _, below⟩ := List.mem_flatMap.mp deeper
        split at below
        · obtain ⟨inner, _, same⟩ := List.mem_map.mp below
          cases (Prod.mk.inj same).1
        · cases below
      · cases deeper
  · rintro rfl
    exact List.mem_cons_self ..

theorem mem_occurrences_cons {arena : Arena} (sound : arena.WellFormed) {root other : NodeId}
    {index : Nat} {path : List Nat} :
    (index :: path, other) ∈ arena.occurrences root ↔ arena.isEntered root = true ∧
      ∃ child, (arena.children root)[index]? = some child ∧
        (path, other) ∈ arena.occurrences child := by
  by_cases entered : arena.isEntered root = true
  · rw [occurrences_of_entered sound entered]
    simp only [entered, true_and]
    constructor
    · intro member
      rcases List.mem_cons.mp member with same | deeper
      · cases (Prod.mk.inj same).1
      · obtain ⟨⟨child, number⟩, isChild, below⟩ := List.mem_flatMap.mp deeper
        obtain ⟨inner, among, same⟩ := List.mem_map.mp below
        cases same
        exact ⟨child, List.mem_zipIdx_iff_getElem?.mp isChild, among⟩
    · rintro ⟨child, isChild, among⟩
      refine List.mem_cons_of_mem _ (List.mem_flatMap.mpr ⟨(child, index), ?_, ?_⟩)
      · exact List.mem_zipIdx_iff_getElem?.mpr isChild
      · exact List.mem_map.mpr ⟨(path, other), among, rfl⟩
  · rw [occurrences_of_not_entered (Bool.not_eq_true _ ▸ entered)]
    simp [entered]

/-- A walk meets what a path leads to if it goes on from every node on the way. -/
theorem mem_occurrences_iff {arena : Arena} (sound : arena.WellFormed) {root other : NodeId}
    {path : List Nat} :
    (path, other) ∈ arena.occurrences root ↔ arena.nodeAt? root path = some other ∧
      ∀ early node, early <+: path → early ≠ path → arena.nodeAt? root early = some node →
        arena.isEntered node = true := by
  induction path generalizing root with
  | nil =>
    rw [mem_occurrences_nil, nodeAt?, Option.some.injEq, eq_comm]
    refine ⟨fun same => ⟨same, fun early _ part proper => ?_⟩, And.left⟩
    exact absurd (List.prefix_nil.mp part) proper
  | cons index path ih =>
    rw [mem_occurrences_cons sound]
    constructor
    · rintro ⟨entered, child, isChild, among⟩
      obtain ⟨found, onWay⟩ := ih.mp among
      refine ⟨by rw [nodeAt?, isChild, Option.bind_some, found], ?_⟩
      intro early node part proper atEarly
      cases early with
      | nil =>
        cases atEarly
        exact entered
      | cons first early =>
        obtain ⟨rfl, within⟩ := List.cons_prefix_cons.mp part
        rw [nodeAt?, isChild, Option.bind_some] at atEarly
        exact onWay early node within (fun same => proper (congrArg _ same)) atEarly
    · rintro ⟨found, onWay⟩
      obtain ⟨child, isChild, below⟩ := Option.bind_eq_some_iff.mp found
      refine ⟨onWay [] root (List.nil_prefix) (by simp) rfl, child, isChild, ih.mpr ⟨below, ?_⟩⟩
      intro early node part proper atEarly
      have within : index :: early <+: index :: path := List.cons_prefix_cons.mpr ⟨rfl, part⟩
      apply onWay (index :: early) node within (by simpa using proper)
      rw [nodeAt?, isChild, Option.bind_some, atEarly]

/-- No path is met twice. -/
theorem nodup_occurrences {arena : Arena} (sound : arena.WellFormed) (root : NodeId) :
    (arena.occurrences root).Nodup := by
  induction position : root.position using Nat.strongRecOn generalizing root with
  | ind position ih =>
    by_cases entered : arena.isEntered root = true
    · rw [occurrences_of_entered sound entered, List.nodup_cons, List.nodup_flatMap]
      refine ⟨?_, ?_, ?_⟩
      · intro member
        obtain ⟨child, _, below⟩ := List.mem_flatMap.mp member
        obtain ⟨inner, _, same⟩ := List.mem_map.mp below
        cases (Prod.mk.inj same).1
      · rintro ⟨child, index⟩ isChild
        have lower : child.position < root.position := sound.child_lt
          (List.mem_of_getElem? (List.mem_zipIdx_iff_getElem?.mp isChild))
        refine (ih child.position (by omega) child rfl).map ?_
        rintro ⟨first, node⟩ ⟨second, other⟩ same
        cases same
        rfl
      · have numbers : ((arena.children root).zipIdx.map Prod.snd).Nodup := by
          rw [List.zipIdx_map_snd]
          exact List.nodup_range'
        rw [List.Nodup, List.pairwise_map] at numbers
        refine numbers.imp fun apart => ?_
        intro occurrence first second
        obtain ⟨_, _, rfl⟩ := List.mem_map.mp first
        obtain ⟨_, _, same⟩ := List.mem_map.mp second
        exact apart (List.cons.inj (Prod.mk.inj same).1).1.symm
    · rw [occurrences_of_not_entered (Bool.not_eq_true _ ▸ entered)]
      exact List.nodup_singleton _

/-- Occurrences come in the order of their paths: a node before those below it, and what is below a
child before what is below the next one. -/
theorem sorted_occurrences {arena : Arena} (sound : arena.WellFormed) (root : NodeId) :
    (arena.occurrences root).Pairwise fun first second => first.1 < second.1 := by
  induction position : root.position using Nat.strongRecOn generalizing root with
  | ind position ih =>
    by_cases entered : arena.isEntered root = true
    · rw [occurrences_of_entered sound entered, List.pairwise_cons, List.pairwise_flatMap]
      refine ⟨?_, ?_, ?_⟩
      · intro occurrence member
        obtain ⟨child, _, below⟩ := List.mem_flatMap.mp member
        obtain ⟨inner, _, rfl⟩ := List.mem_map.mp below
        exact List.nil_lt_cons ..
      · rintro ⟨child, index⟩ isChild
        have lower : child.position < root.position := sound.child_lt
          (List.mem_of_getElem? (List.mem_zipIdx_iff_getElem?.mp isChild))
        rw [List.pairwise_map]
        refine (ih child.position (by omega) child rfl).imp ?_
        intro first second less
        exact List.cons_lt_cons_iff.mpr (.inr ⟨rfl, less⟩)
      · have numbers : ((arena.children root).zipIdx.map Prod.snd).Pairwise (· < ·) := by
          rw [List.zipIdx_map_snd]
          exact List.pairwise_lt_range'
        rw [List.pairwise_map] at numbers
        refine numbers.imp ?_
        intro early late less first isFirst second isSecond
        obtain ⟨_, _, rfl⟩ := List.mem_map.mp isFirst
        obtain ⟨_, _, rfl⟩ := List.mem_map.mp isSecond
        exact List.cons_lt_cons_iff.mpr (.inl less)
    · rw [occurrences_of_not_entered (Bool.not_eq_true _ ▸ entered)]
      exact List.pairwise_singleton ..

section NotEntered

variable {arena : Arena} {id : NodeId} (stays : arena.isEntered id = false)

include stays

theorem isAffected_of_not_entered : arena.isAffected id = arena.isEffective id := by
  rw [isAffected, occurrences_of_not_entered stays, List.any_cons, List.any_nil, Bool.or_false]

theorem growth_of_not_entered :
    arena.growth id = if arena.isEffective id then 2 * arena.namedMembers id + 1 else 0 := by
  have below : arena.isAbove id = false := by
    rw [isAbove, occurrences_of_not_entered stays]
    rfl
  rw [growth_eq_sum_cost, occurrences_of_not_entered stays, List.map_singleton,
    List.sum_singleton, cost, below]
  rfl

end NotEntered

/-- Only where there is a node an effective enum can occur. -/
theorem has_of_isAffected {arena : Arena} {id : NodeId} (affected : arena.isAffected id = true) :
    arena.Has id := by
  by_contra missing
  have noKind := kind?_eq_none_iff.mpr missing
  rw [isAffected_of_not_entered (by rw [isEntered, noKind]; rfl)] at affected
  simp [isEffective, isConstEnum, noKind] at affected

section Entered

variable {arena : Arena} {id : NodeId} (entered : arena.isEntered id = true)

include entered

theorem not_isEffective_of_entered : arena.isEffective id = false := by
  obtain ⟨kind, found, _, noEnum⟩ := isEntered_iff.mp entered
  have other : arena.isConstEnum id = false := by
    simp [isConstEnum, found, noEnum]
  rw [isEffective, other, Bool.false_and, Bool.false_and]

variable (sound : arena.WellFormed)

include sound

theorem isAbove_of_entered : arena.isAbove id = (arena.children id).any arena.isAffected := by
  rw [isAbove, occurrences_of_entered sound entered, List.tail_cons, List.any_flatMap]
  calc
    _ = (arena.children id).zipIdx.any fun child => arena.isAffected child.1 := by
      simp only [List.any_map, isAffected]
      rfl
    _ = ((arena.children id).zipIdx.map Prod.fst).any arena.isAffected := by
      rw [List.any_map]
      rfl
    _ = (arena.children id).any arena.isAffected := by
      rw [List.zipIdx_map_fst]

theorem isAffected_of_entered :
    arena.isAffected id = (arena.children id).any arena.isAffected := by
  rw [← isAbove_of_entered entered sound, isAffected, isAbove,
    occurrences_of_entered sound entered, List.any_cons, List.tail_cons,
    not_isEffective_of_entered entered, Bool.false_or]

theorem growth_of_entered :
    arena.growth id = (if (arena.children id).any arena.isAffected then 1 else 0) +
      ((arena.children id).map arena.growth).sum := by
  rw [growth_eq_sum_cost, occurrences_of_entered sound entered, List.map_cons, List.sum_cons, cost,
    not_isEffective_of_entered entered, isAbove_of_entered entered sound]
  congr 1
  · exact Nat.zero_add _
  · calc
      _ = ((arena.children id).zipIdx.map fun child => arena.growth child.1).sum := by
        rw [List.map_flatMap, List.flatMap, List.sum_flatten, List.map_map]
        simp only [growth_eq_sum_cost, Function.comp_def, List.map_map]
        rfl
      _ = (((arena.children id).zipIdx.map Prod.fst).map arena.growth).sum := by
        rw [List.map_map]
        rfl
      _ = ((arena.children id).map arena.growth).sum := by
        rw [List.zipIdx_map_fst]

end Entered

end EnumStamp.Arena
