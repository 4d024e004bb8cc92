import EnumStamp.Proofs.Arena.Children
import EnumStamp.Proofs.Tree.Similar

set_option autoImplicit false

namespace EnumStamp.Arena

/-- Two nodes are found to be alike. -/
def Similar (arena : Arena) (left right : NodeId) : Prop :=
  arena.similar? left right = some true

instance (arena : Arena) (left right : NodeId) : Decidable (arena.Similar left right) :=
  inferInstanceAs (Decidable (_ = _))

section Similar

variable {arena : Arena} (sound : arena.WellFormed)

include sound

theorem similar_iff_outline (left right : NodeId) :
    arena.Similar left right ↔ arena.outline left = arena.outline right := by
  obtain ⟨answer, compared, alike⟩ := similar?_eq sound left right
  rw [Similar, compared, Option.some.injEq, alike]

theorem similar_equivalence : Equivalence arena.Similar where
  refl id := (similar_iff_outline sound id id).mpr rfl
  symm alike := by
    rw [similar_iff_outline sound] at alike ⊢
    exact alike.symm
  trans first second := by
    rw [similar_iff_outline sound] at first second ⊢
    exact first.trans second

/-- Children that are similar one for one have the same outlines. -/
theorem forall₂_similar_iff (lefts rights : List NodeId) :
    List.Forall₂ arena.Similar lefts rights ↔
      lefts.map arena.outline = rights.map arena.outline := by
  rw [map_eq_map_iff_forall₂]
  constructor <;> intro pairs
  · exact pairs.imp fun left right => (similar_iff_outline sound left right).mp
  · exact pairs.imp fun left right => (similar_iff_outline sound left right).mpr

/-- Two nodes that exist are similar just if they agree in kind and leaf and their children are
similar one for one. -/
theorem similar_iff {left right : NodeId} (has : arena.Has left) (hasOther : arena.Has right) :
    arena.Similar left right ↔
      arena.kind? left = arena.kind? right ∧ arena.leaf left = arena.leaf right ∧
        List.Forall₂ arena.Similar (arena.children left) (arena.children right) := by
  obtain ⟨header, found⟩ := has.header
  obtain ⟨other, atRight⟩ := hasOther.header
  have kind : arena.kind? left = some header.kind := by rw [kind?, found, Option.map_some]
  have kindRight : arena.kind? right = some other.kind := by
    rw [kind?, atRight, Option.map_some]
  rw [similar_iff_outline sound, outline_of_kind sound kind, outline_of_kind sound kindRight,
    Outline.node.injEq, forall₂_similar_iff sound, kind, kindRight, Option.some.injEq]

end Similar

/-- Nodes of one arena are stored again in another, or elsewhere in the same one: kinds and leaves
are the same, and children are stored again in their order. Handles, ranges, flags and origins may
be any. Only a node that is not there is known by its handle. -/
structure Mirrors (one other : Arena) (stored : NodeId → NodeId → Prop) : Prop where
  kind : ∀ {id image : NodeId}, stored id image → other.kind? image = one.kind? id
  leaf : ∀ {id image : NodeId}, stored id image → other.leaf image = one.leaf id
  children : ∀ {id image : NodeId}, stored id image →
    List.Forall₂ stored (one.children id) (other.children image)
  missing : ∀ {id image : NodeId}, stored id image → one.kind? id = none → image = id

namespace Mirrors

variable {one other : Arena} {stored : NodeId → NodeId → Prop}

/-- A node that is stored again has its outline again. -/
theorem outline_eq (mirrors : one.Mirrors other stored) (sound : one.WellFormed)
    (soundOther : other.WellFormed) {id image : NodeId} (again : stored id image) :
    other.outline image = one.outline id := by
  -- On the place of the node: its children come before it, wherever their images are.
  induction position : id.position using Nat.strongRecOn generalizing id image with
  | ind position ih =>
    have kinds := mirrors.kind again
    cases kind : one.kind? id with
    | none =>
      rw [kind] at kinds
      rw [outline_of_missing kinds, outline_of_missing kind, mirrors.missing again kind]
    | some found =>
      rw [kind] at kinds
      have outlines : (one.children id).map one.outline =
          (other.children image).map other.outline := by
        have paired := mirrors.children again
        rw [map_eq_map_iff_forall₂, List.forall₂_iff_zip]
        refine ⟨paired.length_eq, ?_⟩
        intro child copy member
        have lower := sound.child_lt (List.of_mem_zip member).1
        exact (ih child.position (by omega) (List.forall₂_zip paired member) rfl).symm
      rw [outline_of_kind soundOther kinds, outline_of_kind sound kind, mirrors.leaf again,
        outlines]

/-- So nodes are similar where they are stored again just if they were. -/
theorem similar?_eq (mirrors : one.Mirrors other stored) (sound : one.WellFormed)
    (soundOther : other.WellFormed) {left right image counterpart : NodeId}
    (again : stored left image) (alsoAgain : stored right counterpart) :
    other.similar? image counterpart = one.similar? left right := by
  obtain ⟨answer, compared, alike⟩ := Arena.similar?_eq sound left right
  obtain ⟨later, comparedAgain, alikeAgain⟩ := Arena.similar?_eq soundOther image counterpart
  rw [mirrors.outline_eq sound soundOther again, mirrors.outline_eq sound soundOther alsoAgain,
    ← alike] at alikeAgain
  rw [compared, comparedAgain, Bool.eq_iff_iff.mpr alikeAgain]

/-- In an extension every node is still there. -/
theorem of_extends (grown : one.Extends other) (sound : one.WellFormed) :
    one.Mirrors other fun id image => one.Has id ∧ image = id where
  kind := by
    rintro id _ ⟨has, rfl⟩
    exact grown.kind? has
  leaf := by
    rintro id _ ⟨has, rfl⟩
    rw [Arena.leaf, Arena.leaf, grown.payload?_eq sound has]
  children := by
    rintro id _ ⟨has, rfl⟩
    rw [grown.children_eq sound has, List.forall₂_same]
    exact fun child member => ⟨sound.child_has member, rfl⟩
  missing := fun again _ => again.2

end Mirrors

/-- Two members with one name, stored one after the other with other ranges and flags, the second
made from the first, and a third one that shares the name of the first. -/
def twins : Arena :=
  { empty with
    nodes :=
      #[⟨Token.identifier.kind, 0, 0, 1, 0⟩,
        ⟨Construct.enumMember.kind, 0, 0, 1, 0⟩,
        ⟨Token.identifier.kind, 3, 20, 21, 1⟩,
        ⟨Construct.enumMember.kind, 3, 20, 21, 1⟩,
        ⟨Construct.enumMember.kind, 0, Header.noPosition, Header.noPosition, 2⟩]
    origins := #[.absent, .absent, .ofPosition 0, .ofPosition 1, .absent]
    identifiers := #["A", "A"]
    enumMembers :=
      #[⟨.ofPosition 0, .absent⟩, ⟨.ofPosition 2, .absent⟩, ⟨.ofPosition 0, .absent⟩] }

/-- What is known of a node is known in every extension. -/
theorem Extends.outline_eq {before after : Arena} (grown : before.Extends after)
    (sound : before.WellFormed) (soundAfter : after.WellFormed) {id : NodeId}
    (has : before.Has id) : after.outline id = before.outline id :=
  (Mirrors.of_extends grown sound).outline_eq sound soundAfter ⟨has, rfl⟩

theorem Extends.forall₂_similar_iff {before after : Arena} (grown : before.Extends after)
    (sound : before.WellFormed) (soundAfter : after.WellFormed) {lefts rights : List NodeId}
    (has : ∀ id ∈ lefts, before.Has id) (hasOthers : ∀ id ∈ rights, before.Has id) :
    List.Forall₂ after.Similar lefts rights ↔ List.Forall₂ before.Similar lefts rights := by
  have same (ids : List NodeId) (all : ∀ id ∈ ids, before.Has id) :
      ids.map after.outline = ids.map before.outline :=
    List.map_congr_left fun id member => grown.outline_eq sound soundAfter (all id member)
  rw [Arena.forall₂_similar_iff soundAfter, Arena.forall₂_similar_iff sound, same lefts has,
    same rights hasOthers]

/-- A node that is given other children keeps its kind and its leaf. -/
theorem label_updateChildren {arena : Arena} (sound : arena.WellFormed) {id : NodeId}
    (has : arena.Has id) {replacements : List NodeId}
    (count : replacements.length = (arena.children id).length)
    (held : ∀ replacement ∈ replacements, arena.Holds replacement)
    (fits : (arena.updateChildren id replacements).1.Fits) :
    (arena.updateChildren id replacements).1.kind? (arena.updateChildren id replacements).2 =
        arena.kind? id ∧
      (arena.updateChildren id replacements).1.leaf (arena.updateChildren id replacements).2 =
        arena.leaf id := by
  obtain ⟨header, found⟩ := has.header
  have offers := offers_updateChildren sound found count held fits
  obtain ⟨copy, atCopy⟩ := offers.has.header
  have label := offers.reads
  rw [tree_eq offers.sound atCopy, Tree.node.injEq] at label
  constructor
  · rw [kind?, kind?, atCopy, found]
    exact congrArg (fun label => some label.kind) label.1
  · rw [leaf_eq atCopy, leaf_eq found, label.1]

/-- A node is given as many existing nodes as it has children. What takes its place is similar to it
just if the nodes are similar to the children, one for one. -/
theorem similar?_updateChildren {arena : Arena} (sound : arena.WellFormed) (id : NodeId)
    {replacements : List NodeId} (count : replacements.length = (arena.children id).length)
    (has : ∀ replacement ∈ replacements, arena.Has replacement)
    (fits : (arena.updateChildren id replacements).1.Fits) :
    ∃ answer,
      (arena.updateChildren id replacements).1.similar? id
        (arena.updateChildren id replacements).2 = some answer ∧
      (answer = true ↔ List.Forall₂ arena.Similar (arena.children id) replacements) := by
  -- A node that is given its own children stays, also one that does not exist.
  by_cases own : replacements = arena.children id
  · rw [own, updateChildren_children]
    refine ⟨true, (similar_equivalence sound).refl id, fun _ => ?_, fun _ => rfl⟩
    exact List.forall₂_same.mpr fun child _ => (similar_equivalence sound).refl child
  · have there : arena.Has id := by
      by_contra missing
      rw [children_eq_nil_of_not_has missing] at count own
      exact own (List.eq_nil_of_length_eq_zero count)
    obtain ⟨header, found⟩ := there.header
    have held : ∀ replacement ∈ replacements, arena.Holds replacement :=
      fun replacement member => .inl (has replacement member)
    have present : ∀ replacement ∈ replacements, replacement.isPresent = true :=
      fun replacement member => (has_iff.mp (has replacement member)).1
    have grown := extends_updateChildren arena id replacements
    have offers := offers_updateChildren sound found count held fits
    obtain ⟨kind, leaf⟩ := label_updateChildren sound there count held fits
    have stays := (Mirrors.of_extends grown sound).leaf ⟨there, rfl⟩
    obtain ⟨answer, compared, _⟩ := similar?_eq offers.sound id
      (arena.updateChildren id replacements).2
    refine ⟨answer, compared, ?_⟩
    have alike := similar_iff offers.sound (grown.has there) offers.has
    -- Kinds and leaves agree anyway, and what was stored before is compared as before.
    rw [Similar, compared, Option.some.injEq, grown.kind? there, kind, stays, leaf,
      grown.children_eq sound there, children_updateChildren count present fits,
      grown.forall₂_similar_iff sound offers.sound (fun child => sound.child_has) has] at alike
    simpa using alike

/-- The third member, whose name is that of the first one, is given the name of the second, and then
the second member for its name. -/
theorem similar?_updateChildren_twins :
    let renamed := twins.updateChildren (.ofPosition 4) [.ofPosition 2]
    let nested := twins.updateChildren (.ofPosition 4) [.ofPosition 3]
    twins.WellFormed ∧ twins.children (.ofPosition 4) = [.ofPosition 0] ∧
      twins.Has (.ofPosition 2) ∧ twins.Has (.ofPosition 3) ∧ renamed.1.Fits ∧ nested.1.Fits ∧
      renamed.1.similar? (.ofPosition 4) renamed.2 = some true ∧
      nested.1.similar? (.ofPosition 4) nested.2 = some false := by
  intro renamed nested
  have sound : twins.WellFormed := by decide
  have children : twins.children (.ofPosition 4) = [.ofPosition 0] := by decide
  have count (id : NodeId) : [id].length = (twins.children (.ofPosition 4)).length := by
    rw [children, List.length_singleton, List.length_singleton]
  have hasName : twins.Has (.ofPosition 2) := by
    unfold Has
    decide
  have hasMember : twins.Has (.ofPosition 3) := by
    unfold Has
    decide
  have fits : renamed.1.Fits := by decide +kernel
  have nestedFits : nested.1.Fits := by decide +kernel
  obtain ⟨answer, compared, alike⟩ := similar?_updateChildren sound (.ofPosition 4)
    (count (.ofPosition 2)) (List.forall_mem_singleton.mpr hasName) fits
  obtain ⟨other, comparedAgain, alikeAgain⟩ := similar?_updateChildren sound (.ofPosition 4)
    (count (.ofPosition 3)) (List.forall_mem_singleton.mpr hasMember) nestedFits
  have same : List.Forall₂ twins.Similar (twins.children (.ofPosition 4)) [.ofPosition 2] := by
    decide +kernel
  have differs : ¬ List.Forall₂ twins.Similar (twins.children (.ofPosition 4))
      [.ofPosition 3] := by decide +kernel
  refine ⟨sound, children, hasName, hasMember, fits, nestedFits, ?_, ?_⟩
  · rw [compared, alike.mpr same]
  · rw [comparedAgain, Bool.eq_false_iff.mpr fun equal => differs (alikeAgain.mp equal)]

end EnumStamp.Arena
