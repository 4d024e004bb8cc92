import EnumStamp.Proofs.Desk
import EnumStamp.Proofs.Stamping.Succession

set_option autoImplicit false

namespace EnumStamp

open Arena

/-- What took the place of a node comes from the same node of the parser as the node itself, which
is the one that the node came from before. -/
structure Arena.Inherits (before after : Arena) (result id : NodeId) : Prop where
  same : after.parsedNode? result = after.parsedNode? id
  kept : before.Has id → after.parsedNode? id = before.parsedNode? id

theorem Arena.Lineage.inherits {before after : Arena} {result id : NodeId}
    (lineage : before.Lineage) (edits : before.Edits after)
    (succeeds : after.Succeeds result id) : before.Inherits after result id where
  same := (lineage.of_edits edits).parsedNode?_of_succeeds succeeds
  kept := lineage.parsedNode?_extends edits.extends

namespace Desk

/-- What can come of an arena without nodes: by what hosts do, with any arguments, and by any number
of turns of walks, whether these come to an end or not. -/
inductive Comes : Desk → Prop where
  | start : Comes (.free .empty)
  | act {desk next : Desk} {action : Action} (early : Comes desk) (does : Does desk action next) :
      Comes next
  | walk {σ : Type} {machine : Machine σ} (early : Comes (.free machine.1.arena))
      (resolve : Cache.Resolver σ) (file : Option String) (steps : Nat) :
      Comes (.free (machine.turns resolve file steps).1.arena)

variable {desk : Desk}

theorem Comes.edits (comes : Comes desk) : Arena.empty.Edits desk.arena := by
  induction comes with
  | start => exact Edits.refl _
  | act _ does ih => exact ih.trans does.edits
  | @walk _ machine _ _ _ steps ih => exact ih.trans (machine.edits_turns steps)

theorem Comes.lineage (comes : Comes desk) : desk.arena.Lineage :=
  lineage_empty.of_edits comes.edits

/-- In every arena that can come about, origins are lower nodes with the same kind, flags and range.
So each node comes from a node of the parser, which is not higher, has the same kind, flags and
range and comes from itself. As long as handles are left, what updates and walks answer with comes
from the same node as what they were given. -/
theorem Comes.descends (comes : Comes desk) :
    (∀ id, (desk.arena.origin id).isPresent = true →
      desk.arena.Derives id (desk.arena.origin id)) ∧
    (∀ id, ∃ parsed, desk.arena.parsedNode? id = some parsed ∧ desk.arena.Founds parsed id ∧
      desk.arena.parsedNode? parsed = some parsed) ∧
    (∀ op : Operation, op.Updates → (op.apply desk.arena).1.Fits →
      desk.arena.Inherits (op.apply desk.arena).1 (op.apply desk.arena).2 op.target) ∧
    (∀ {σ : Type} (resolve : Cache.Resolver σ) (stamper : Stamper σ) (mode : Mode) (root : NodeId)
      (walked : Stamper.Walked σ), stamper.stamp resolve mode desk.arena root = some walked →
      walked.arena.Fits → desk.arena.Inherits walked.arena walked.root root) ∧
    ∀ {σ : Type} (resolve : Cache.Resolver σ) (file : Option String) (root : NodeId)
      (said : List Event) (cache : σ) (log : Array Event) (steps : Nat) (last : Machine σ),
      Machine.turns resolve file steps (Walk.start desk.arena root said, cache, log) = last →
      last.1.frames = [] → last.1.arena.Fits →
      ∃ result, last.1.results = [result] ∧ desk.arena.Inherits last.1.arena result root := by
  have lineage := comes.lineage
  refine ⟨lineage.derives, ?_, ?_, ?_, ?_⟩
  · intro id
    obtain ⟨parsed, found, founds⟩ := lineage.parses id
    exact ⟨parsed, found, founds, founds.parsedNode?_eq⟩
  · intro op updates fits
    exact lineage.inherits (Edits.apply op _) (lineage.succeeds_apply op updates fits)
  · intro σ resolve stamper mode root walked stamps fits
    exact lineage.inherits (Stamper.edits_stamp stamps)
      (Stamper.succeeds_stamp stamps lineage fits)
  · rintro σ resolve file root said cache log steps _ rfl ended fits
    let start : Machine σ := (Walk.start desk.arena root said, cache, log)
    have accounts := Machine.accounts_turns steps lineage fits
      (Machine.accounts_start desk.arena root said cache log)
    obtain ⟨result, results, succeeds⟩ := Machine.succeeds_of_ended accounts ended
    exact ⟨result, results, lineage.inherits (start.edits_turns steps) succeeds⟩

/-- The file with a const enum, a block that is its own child, and a copy of the block, whose child
is missing. -/
def tangled : Arena :=
  let written := color.perform (Builder.start .empty)
  let made := written.finish "color.ts" [.ofPosition 4]
  let block := Operation.addComposite Construct.block.kind 0 9 [.ofPosition 6]
  ((Operation.updateComposite (.ofPosition 6) [.ofPosition 99]).apply (block.apply made.1).1).1

theorem comes_tangled : Comes (.free tangled) :=
  (((((Comes.start.act .start).act (.write : Does _ (.write color) _)).act .finish).act .edit).act
    .edit)

/-- There a further copy comes from the block, and the stamped file from the file. -/
theorem Comes.descends_tangled :
    let further := (Operation.updateComposite (.ofPosition 7) []).apply tangled
    let last := Machine.turns OwnCache.resolve none 20
      (Walk.start tangled (.ofPosition 5) [], Stamper.numbered.cache, #[])
    Comes (.free tangled) ∧ tangled.Derives (.ofPosition 7) (.ofPosition 6) ∧
      (further.2 = .ofPosition 8 ∧ further.1.parsedNode? further.2 = some (.ofPosition 6)) ∧
      ∃ result, last.1.results = [result] ∧ result ≠ .ofPosition 5 ∧
        last.1.arena.parsedNode? result = some (.ofPosition 5) := by
  intro further last
  obtain ⟨origins, _, updates, _, walks⟩ := comes_tangled.descends
  have copied : (free tangled).arena.origin (.ofPosition 7) = .ofPosition 6 := by decide +kernel
  have derives := origins (.ofPosition 7) (by rw [copied]; rfl)
  rw [copied] at derives
  have hasFile : tangled.Has (.ofPosition 5) := by unfold Has; decide +kernel
  have hasCopy : tangled.Has (.ofPosition 7) := by unfold Has; decide +kernel
  refine ⟨comes_tangled, derives, ⟨by decide +kernel, ?_⟩, ?_⟩
  · have inherits := updates (.updateComposite (.ofPosition 7) []) trivial (by decide +kernel)
    have before : tangled.parsedNode? (.ofPosition 7) = some (.ofPosition 6) := by decide +kernel
    exact inherits.same.trans ((inherits.kept hasCopy).trans before)
  · obtain ⟨result, results, inherits⟩ := walks OwnCache.resolve none (.ofPosition 5) []
      Stamper.numbered.cache #[] 20 last rfl (by decide +kernel) (by decide +kernel)
    have changed : last.1.results ≠ [.ofPosition 5] := by decide +kernel
    have before : tangled.parsedNode? (.ofPosition 5) = some (.ofPosition 5) := by decide +kernel
    refine ⟨result, results, fun same => changed (same ▸ results), ?_⟩
    exact inherits.same.trans ((inherits.kept hasFile).trans before)

end Desk

end EnumStamp
