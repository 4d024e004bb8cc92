import EnumStamp.Arena.Growth
import EnumStamp.Proofs.Arena.Weight
import EnumStamp.Sighting

set_option autoImplicit false

namespace EnumStamp

namespace Arena

/-- The nodes at and below a node, each as often as a path of children leads to it. Only children
that come before their parent are followed, as they all do in a well-formed arena. -/
def preorder (arena : Arena) (id : NodeId) : List NodeId :=
  match arena.header? id with
  | none => []
  | some _ =>
    id :: (arena.children id).flatMap fun child =>
      if _lower : child.position < id.position then arena.preorder child else []
termination_by id.position

theorem preorder_of_not_has {arena : Arena} {id : NodeId} (missing : ¬ arena.Has id) :
    arena.preorder id = [] := by
  have none : arena.header? id = none := by simpa [Has] using missing
  rw [preorder, none]

/-- In a well-formed arena a node is followed by what is at and below its children. -/
theorem preorder_of_has {arena : Arena} (sound : arena.WellFormed) {id : NodeId}
    (has : arena.Has id) :
    arena.preorder id = id :: (arena.children id).flatMap arena.preorder := by
  obtain ⟨header, found⟩ := has.header
  rw [preorder, found]
  have followed : (arena.children id).map (fun child =>
      if _lower : child.position < id.position then arena.preorder child else []) =
        (arena.children id).map arena.preorder :=
    List.map_congr_left fun child member => dif_pos (sound.child_lt member)
  exact congrArg (fun below => id :: List.flatten below) followed

theorem has_of_mem_preorder {arena : Arena} {id other : NodeId}
    (member : other ∈ arena.preorder id) : arena.Has other := by
  induction position : id.position using Nat.strongRecOn generalizing id with
  | ind position ih =>
    rw [preorder] at member
    split at member
    · cases member
    · rename_i header found
      rcases List.mem_cons.mp member with rfl | below
      · exact has_of_header found
      · obtain ⟨child, _, deeper⟩ := List.mem_flatMap.mp below
        split at deeper
        · rename_i lower
          exact ih child.position (by omega) deeper rfl
        · cases deeper

theorem weights_append (arena : Arena) (first second : List NodeId) :
    arena.weights (first ++ second) = arena.weights first + arena.weights second := by
  induction first with
  | nil => simp [weights]
  | cons id ids ih =>
    rw [List.cons_append, weights_cons, weights_cons, ih]
    omega

end Arena

namespace Sighting

theorem ofNode?_of_not_has {arena : Arena} {id : NodeId} (file : NodeId)
    (missing : ¬ arena.Has id) : ofNode? arena file id = none := by
  rw [ofNode?, Arena.kind?_eq_none_iff.mpr missing]
  rfl

/-- A node that is there is seen as itself. -/
theorem exists_ofNode? {arena : Arena} {id : NodeId} (file : NodeId) (has : arena.Has id) :
    ∃ kind, arena.kind? id = some kind ∧
      ofNode? arena file id = some ⟨id, kind.name, arena.preview file id⟩ := by
  obtain ⟨header, found⟩ := has.header
  have atKind : arena.kind? id = some header.kind := by
    rw [Arena.kind?, found]
    rfl
  refine ⟨header.kind, atKind, ?_⟩
  rw [ofNode?, atKind]
  rfl

def ofNodes (arena : Arena) (file : NodeId) (ids : List NodeId) : List Sighting :=
  ids.filterMap (ofNode? arena file)

theorem ids_ofNodes {arena : Arena} (file : NodeId) {ids : List NodeId}
    (known : ∀ id ∈ ids, arena.Has id) : (ofNodes arena file ids).map id = ids := by
  induction ids with
  | nil => rfl
  | cons id ids ih =>
    obtain ⟨here, later⟩ := List.forall_mem_cons.mp known
    obtain ⟨kind, _, seen⟩ := exists_ofNode? file here
    rw [ofNodes, List.filterMap_cons_some seen, List.map_cons]
    exact congrArg (id :: ·) (ih later)

theorem of_mem_ofNodes {arena : Arena} {file : NodeId} {ids : List NodeId} {sighting : Sighting}
    (member : sighting ∈ ofNodes arena file ids) :
    ∃ kind, arena.kind? sighting.id = some kind ∧ sighting.kind = kind.name ∧
      sighting.text = arena.preview file sighting.id := by
  obtain ⟨id, _, seen⟩ := List.mem_filterMap.mp member
  obtain ⟨kind, atKind, rfl⟩ := Option.map_eq_some_iff.mp seen
  exact ⟨kind, atKind, rfl, rfl⟩

end Sighting

namespace TracePass

/-- What a pass has counted and kept after some sightings. -/
theorem foldl_look (pass : TracePass) (seen : List Sighting) :
    seen.foldl look pass =
      { pass with
        visited := pass.visited + seen.length
        sightings := if pass.collects then pass.sightings ++ seen else pass.sightings } := by
  induction seen generalizing pass with
  | nil => simp
  | cons sighting seen ih =>
    rw [List.foldl_cons, ih]
    cases pass with
    | mk collects visited sightings =>
      cases collects with
      | true => simp [look, Nat.add_assoc, Nat.add_comm 1]
      | false => simp [look, Nat.add_assoc, Nat.add_comm 1]

/-- The pass handles what waits on the stack, and all below it, in pre-order. -/
theorem watch_eq {arena : Arena} (sound : arena.WellFormed) (file : NodeId) {steps : Nat}
    {pending : List NodeId} (enough : arena.weights pending ≤ steps) (pass : TracePass)
    (said : List Event) :
    watch arena file steps pending pass said =
      let seen := Sighting.ofNodes arena file (pending.flatMap arena.preorder)
      some (seen.foldl look pass, (seen.map Sighting.event).reverse ++ said) := by
  induction steps generalizing pending pass said with
  | zero =>
    cases pending with
    | nil => rfl
    | cons id pending =>
      have positive := arena.weight_pos id
      rw [Arena.weights_cons] at enough
      omega
  | succ steps ih =>
    cases pending with
    | nil => rfl
    | cons id pending =>
      rw [Arena.weights_cons] at enough
      rw [List.flatMap_cons]
      by_cases has : arena.Has id
      · obtain ⟨kind, _, seen⟩ := Sighting.exists_ofNode? file has
        have weighs := arena.weight_eq sound id
        have fewer : arena.weights (arena.children id ++ pending) ≤ steps := by
          rw [Arena.weights_append]
          omega
        rw [watch, seen]
        dsimp only
        rw [ih fewer, Arena.preorder_of_has sound has, List.flatMap_append, List.cons_append]
        simp [Sighting.ofNodes, seen]
      · have positive := arena.weight_pos id
        rw [watch, Sighting.ofNode?_of_not_has file has, Arena.preorder_of_not_has has]
        exact ih (by omega) pass said

/-- In a well-formed arena a pass comes to an end at every root. -/
theorem file_eq {arena : Arena} (sound : arena.WellFormed) (root : NodeId) (pass : TracePass) :
    let seen := Sighting.ofNodes arena root (arena.preorder root)
    pass.file arena root =
      some
        { pass := { pass with
            visited := pass.visited + seen.length
            sightings := if pass.collects then pass.sightings ++ seen else pass.sightings }
          root
          events := .fileStarted (arena.fileName? root) ::
            seen.map Sighting.event ++ [.fileFinished (arena.fileName? root) none] } := by
  intro seen
  have enough : arena.weights [root] ≤ arena.occurrenceBound root := by
    rw [Arena.occurrenceBound_eq sound, Arena.weights_cons]
    exact Nat.le_refl _
  have watched := watch_eq sound root enough pass [.fileStarted (arena.fileName? root)]
  simp only [List.flatMap_singleton, foldl_look] at watched
  rw [file, watched]
  simp [seen]

/-- At every root a pass hands the root back. It sees the nodes at and below the root in pre-order,
each with its kind and its text; it counts them, keeps what it saw if it is to collect, and reports
it in any case. -/
theorem file_preorder {arena : Arena} (sound : arena.WellFormed) (root : NodeId) :
    (¬ arena.Has root → arena.preorder root = []) ∧
    (∀ id, arena.Has id →
      arena.preorder id = id :: (arena.children id).flatMap arena.preorder) ∧
    ∃ seen : List Sighting, seen.map Sighting.id = arena.preorder root ∧
      (∀ sighting ∈ seen, ∃ kind, arena.kind? sighting.id = some kind ∧
        sighting.kind = kind.name ∧ sighting.text = arena.preview root sighting.id) ∧
      ∀ pass : TracePass, pass.file arena root =
        some
          { pass := { pass with
              visited := pass.visited + (arena.preorder root).length
              sightings := if pass.collects then pass.sightings ++ seen else pass.sightings }
            root
            events := .fileStarted (arena.fileName? root) ::
              seen.map Sighting.event ++ [.fileFinished (arena.fileName? root) none] } := by
  let seen := Sighting.ofNodes arena root (arena.preorder root)
  have ids : seen.map Sighting.id = arena.preorder root :=
    Sighting.ids_ofNodes root fun _ => Arena.has_of_mem_preorder
  refine ⟨Arena.preorder_of_not_has, fun _ => Arena.preorder_of_has sound, seen, ids,
    fun _ => Sighting.of_mem_ofNodes, fun pass => ?_⟩
  have count := congrArg List.length ids
  rw [List.length_map] at count
  rw [← count]
  exact file_eq sound root pass

/-- A file in which one identifier stands twice. -/
def twice : Arena :=
  ((Arena.empty.addIdentifier "Red" 0 3).1.addSourceFile
    ⟨"red.ts", "Red", [.ofPosition 0, .ofPosition 0]⟩).1

/-- The identifier is counted for each of its places, also by a pass that keeps nothing. -/
theorem file_preorder_twice :
    twice.WellFormed ∧
      ∃ traced, (create false).file twice (.ofPosition 1) = some traced ∧
        traced.root = .ofPosition 1 ∧ traced.pass.visited = 3 ∧ traced.pass.sightings = #[] ∧
        traced.events.length = 5 := by
  have sound : twice.WellFormed := by decide
  obtain ⟨_, below, seen, ids, _, all⟩ := file_preorder sound (.ofPosition 1)
  have leaf : twice.preorder (.ofPosition 0) = [.ofPosition 0] := by
    rw [below _ (by unfold Arena.Has; decide)]
    rfl
  have order : twice.preorder (.ofPosition 1) = [.ofPosition 1, .ofPosition 0, .ofPosition 0] := by
    have children : twice.children (.ofPosition 1) = [.ofPosition 0, .ofPosition 0] := by decide
    rw [below _ (by unfold Arena.Has; decide), children]
    simp [leaf]
  have count := congrArg List.length (ids.trans order)
  rw [List.length_map] at count
  refine ⟨sound, _, all (create false), rfl, ?_, rfl, ?_⟩
  · rw [order]
    rfl
  · simp [count]

end TracePass

end EnumStamp
