import Mathlib.Logic.Function.Iterate
import EnumStamp.Proofs.Arena.Ownership
import EnumStamp.Proofs.Stamping.Ledger
import EnumStamp.Proofs.Stamping.Refinement
import EnumStamp.Proofs.Tree.Stamped

set_option autoImplicit false

namespace EnumStamp

open Arena

variable {σ : Type} {resolve : Cache.Resolver σ} {file : Option String}

namespace Progress

theorem builds_visitMember (resolve : Cache.Resolver σ) (progress : Progress σ)
    (enumName : String) (id : NodeId) :
    progress.arena.Builds [id] (progress.visitMember resolve enumName id).2.arena
      [(progress.visitMember resolve enumName id).1.1] := by
  cases atName : progress.arena.memberName? id with
  | none =>
    rw [progress.visitMember_of_none resolve enumName atName]
    exact Builds.refl _ _
  | some name =>
    obtain ⟨member, atMember, _⟩ := memberName?_eq_some_iff.mp atName
    obtain ⟨header, found, stored⟩ := payload_of_enumMember? atMember
    rw [progress.visitMember_of_name resolve enumName atMember atName]
    let value := (resolve (Cache.key enumName name) progress.cache).1.value
    let literal := (progress.arena.createString value).2
    have parts := Builds.contents found stored [id]
    have created := parts.add (.createString value) rfl trivial fun _ slot => nomatch slot
    refine (created.edit (.updateEnumMember id { member with initializer := literal }) trivial
      ?_).last
    intro slot isSlot
    simp only [Operation.target, Operation.slots, Payload.slots, List.mem_cons, List.not_mem_nil,
      or_false] at isSlot ⊢
    rcases isSlot with same | same | same
    · exact .inl (.inr (.inl same))
    · exact .inl (.inr (.inr (.inl same)))
    · exact .inl (.inl same)

theorem builds_visitMembers (resolve : Cache.Resolver σ) (progress : Progress σ)
    (enumName : String) (ids : List NodeId) :
    progress.arena.Builds ids (progress.visitMembers resolve enumName ids).2.arena
      ((progress.visitMembers resolve enumName ids).1.map Prod.fst) := by
  induction ids generalizing progress with
  | nil => exact Builds.refl _ _
  | cons id ids ih => exact (progress.builds_visitMember resolve enumName id).cons (ih _)

theorem builds_stampDecl (progress : Progress σ) {id : NodeId} {header : Header}
    (found : progress.arena.header? id = some header) {decl : EnumDecl}
    (atDecl : progress.arena.enumDecl? id = some decl) (enumName : String) (exported : Bool) :
    progress.arena.Builds [id] (progress.stampDecl resolve file id decl enumName exported).2.arena
      [(progress.stampDecl resolve file id decl enumName exported).1] := by
  let visited := progress.visitMembers resolve enumName decl.members
  have parts := Builds.contents found (payload_of_enumDecl? found atDecl) [id]
  have members : ∀ member ∈ decl.members,
      member ∈ id :: (Payload.enumeration decl).slots ∨ member = .absent := fun member among =>
    .inl (List.mem_cons_of_mem _ (List.mem_append_right _ (List.mem_cons_of_mem _ among)))
  have stamped := parts.trans (progress.builds_visitMembers resolve enumName decl.members) members
  refine (stamped.edit (.updateEnum id { decl with members := visited.1.map Prod.fst }) trivial
    fun slot isSlot => .inl ?_).last
  simp only [Operation.target, Operation.slots, Payload.slots, List.mem_append,
    List.mem_cons] at isSlot ⊢
  rcases isSlot with same | modifier | same | member
  · exact .inr (.inl same)
  · exact .inr (.inr (.inl modifier))
  · exact .inr (.inr (.inr (.inl same)))
  · exact .inl member

theorem builds_visitEnum (progress : Progress σ) (id : NodeId) {header : Header}
    (found : progress.arena.header? id = some header) :
    progress.arena.Builds [id] (progress.visitEnum resolve file id).2.arena
      [(progress.visitEnum resolve file id).1] := by
  cases chosen : progress.arena.constEnum? id with
  | none =>
    obtain ⟨log, same⟩ := progress.visitEnum_of_other resolve file chosen
    rw [same]
    exact Builds.refl _ _
  | some isConst =>
    obtain ⟨decl, enumName⟩ := isConst
    obtain ⟨atDecl, _, _⟩ := constEnum?_eq_some_iff.mp chosen
    rw [progress.visitEnum_of_const resolve file chosen]
    let said := (progress.say (.enumEntered enumName)).say
      (.constEnumStarted enumName ((progress.arena.modifiers decl.modifiers).contains .exported))
    exact said.builds_stampDecl found atDecl enumName _

theorem builds_updateChildren (progress : Progress σ) (id : NodeId) (children : List NodeId) :
    progress.arena.Builds (id :: children) (progress.updateChildren id children).2.arena
      [(progress.updateChildren id children).1] :=
  Builds.apply (.updateChildren id children) trivial progress.arena

end Progress

/-- Stamping below a node does nothing but operations with proper arguments. -/
theorem Stamps.builds {id result : NodeId} {before after : Progress σ}
    (stamped : Stamps resolve file id before result after) :
    before.arena.Builds [id] after.arena [result] := by
  induction stamped using Stamps.induct (fun ids before results after =>
    before.arena.Builds ids after.arena results) with
  | missing => exact Builds.refl _ _
  | doc => exact Builds.refl _ _
  | @enumeration id before _ found =>
    obtain ⟨header, atHeader, _⟩ := header_of_kind found
    exact Progress.builds_visitEnum (before.say _) id atHeader
  | @other id before after _ results _ _ _ _ ih =>
    have parts := (Builds.children before.arena id []).frame [id]
    have below := parts.trans (ih.frame [id]) fun _ member => .inl member
    refine (below.trans (after.builds_updateChildren id results) fun slot member => .inl ?_).fewer
      fun _ member => .inl (List.mem_append_left _ member)
    rcases List.mem_cons.mp member with rfl | given
    · simp
    · simp [given]
  | nil => exact Builds.refl _ _
  | cons _ _ ihFirst ihOthers => exact ihFirst.cons ihOthers

theorem StampsAll.builds {ids results : List NodeId} {before after : Progress σ}
    (stamped : StampsAll resolve file ids before results after) :
    before.arena.Builds ids after.arena results := by
  induction ids generalizing results before with
  | nil =>
    cases stamped
    exact Builds.refl _ _
  | cons id ids ih =>
    cases stamped with
    | cons first others => exact first.builds.cons (ih others)

namespace Machine

/-- One turn of the loop: the frame on top is handled, if there is one. -/
def turn (resolve : Cache.Resolver σ) (file : Option String) (machine : Machine σ) : Machine σ :=
  match machine.1.frames with
  | [] => machine
  | frame :: frames =>
    (Walk.step file (machine.withFrames frames).1 frame).run resolve machine.2.1 machine.2.2

def turns (resolve : Cache.Resolver σ) (file : Option String) (steps : Nat) :
    Machine σ → Machine σ :=
  (turn resolve file)^[steps]

theorem turn_of_no_frames (machine : Machine σ) (finished : machine.1.frames = []) :
    machine.turn resolve file = machine := by
  unfold turn
  rw [finished]

theorem turn_of_frame (machine : Machine σ) {frame : Frame} {frames : List Frame}
    (top : machine.1.frames = frame :: frames) :
    machine.turn resolve file =
      (Walk.step file (machine.withFrames frames).1 frame).run resolve machine.2.1 machine.2.2 := by
  unfold turn
  rw [top]

/-- The loop is as many turns as it may take, with an outcome if no frame is left then. -/
theorem iterate_eq_turns (steps : Nat) (machine : Machine σ) :
    machine.iterate resolve file steps =
      let last := machine.turns resolve file steps
      (if last.1.frames = [] then some last.1 else none, last.2) := by
  induction steps generalizing machine with
  | zero =>
    cases top : machine.1.frames with
    | nil =>
      rw [iterate_of_no_frames machine 0 top]
      simp only [turns, Function.iterate_zero, id, top, if_true]
    | cons frame frames =>
      rw [iterate_zero machine top]
      simp only [turns, Function.iterate_zero, id, top, reduceCtorEq, if_false]
  | succ steps ih =>
    cases top : machine.1.frames with
    | nil =>
      have still : machine.turns resolve file (steps + 1) = machine :=
        Function.iterate_fixed (machine.turn_of_no_frames top) _
      rw [iterate_of_no_frames machine (steps + 1) top, still]
      simp only [top, if_true]
    | cons frame frames =>
      rw [machine.advances_step top steps, ← machine.turn_of_frame top, ih]
      simp only [turns, Function.iterate_succ_apply]
      rfl

theorem Handled.arena {next : Machine σ} {frames : List Frame} {results below : List NodeId}
    {after : Progress σ} (handled : next.Handled frames results below after) :
    next.1.arena = after.arena :=
  congrArg Progress.arena handled.progress

theorem handled_edits {arena : Arena} {next : Machine σ} {frames : List Frame}
    {results below : List NodeId} {after : Progress σ}
    (handled : next.Handled frames results below after) (edits : arena.Edits after.arena) :
    arena.Edits next.1.arena := by
  rw [handled.arena]
  exact edits

/-- Entering any node does nothing but operations. -/
theorem edits_entered (machine : Machine σ) (id : NodeId) :
    machine.1.arena.Edits (machine.entered resolve file id).1.arena := by
  cases found : machine.1.arena.kind? id with
  | none => exact handled_edits (entered_of_missing resolve file machine found) (Edits.refl _)
  | some kind =>
    by_cases isDoc : kind.isDoc = true
    · exact handled_edits (entered_of_doc resolve file machine found isDoc) (Edits.refl _)
    · rw [Bool.not_eq_true] at isDoc
      by_cases isEnum : kind = Construct.enumDeclaration.kind
      · obtain ⟨header, atHeader, _⟩ := header_of_kind found
        exact handled_edits (entered_of_enumeration resolve file machine found isDoc isEnum)
          (Progress.builds_visitEnum (machine.progress.say _) id atHeader).edits
      · by_cases leaf : machine.1.arena.children id = []
        · exact handled_edits (entered_of_leaf resolve file machine found isDoc isEnum leaf)
            (Edits.refl _)
        · exact handled_edits (entered_of_parent resolve file machine found isDoc isEnum leaf)
            (Edits.refl _)

/-- A turn does nothing but operations, whatever the arena and the stack are. -/
theorem edits_turn (machine : Machine σ) :
    machine.1.arena.Edits (machine.turn resolve file).1.arena := by
  cases top : machine.1.frames with
  | nil =>
    rw [machine.turn_of_no_frames top]
    exact Edits.refl _
  | cons frame frames =>
    rw [machine.turn_of_frame top]
    cases frame with
    | enter id => exact edits_entered (machine.withFrames frames) id
    | leave id count => exact Edits.apply (.updateChildren id _) machine.1.arena

theorem edits_turns (steps : Nat) (machine : Machine σ) :
    machine.1.arena.Edits (machine.turns resolve file steps).1.arena := by
  induction steps generalizing machine with
  | zero => exact Edits.refl _
  | succ steps ih =>
    rw [turns, Function.iterate_succ_apply]
    exact machine.edits_turn.trans (ih _)

end Machine

namespace Stamper

/-- A walk that comes to an end is so many turns, until no frame is left. -/
theorem exists_turns_of_stampTree {said : List Event} {arena : Arena} {root : NodeId}
    {cache last : σ} {log events : Array Event} {stamped : Stamped}
    (run : (stampTree file said arena root).run resolve cache log = (some stamped, last, events)) :
    ∃ steps final,
      Machine.turns resolve file steps (Walk.start arena root said, cache, log) = final ∧
      final.1.frames = [] ∧ stamped = Stamped.ofWalk root final.1 := by
  let machine : Machine σ := (Walk.start arena root said, cache, log)
  let final := machine.turns resolve file (Walk.frameBound arena root)
  have turned : machine.iterate resolve file (Walk.frameBound arena root) =
      (if final.1.frames = [] then some final.1 else none, final.2) :=
    machine.iterate_eq_turns (Walk.frameBound arena root)
  have iterated : (Walk.iterate file (Walk.frameBound arena root)
      (Walk.start arena root said)).run resolve cache log = _ := turned
  rw [stampTree, Consult.run_bind, iterated] at run
  simp only [Consult.run] at run
  split at run
  · rename_i ended
    cases run
    exact ⟨_, final, rfl, ended, rfl⟩
  · cases run

/-- What a stamper makes of a tree, on any arena, it makes by so many turns of a walk. -/
theorem exists_turns_of_stamp {stamper : Stamper σ} {mode : Mode} {arena : Arena} {root : NodeId}
    {walked : Walked σ} (stamps : stamper.stamp resolve mode arena root = some walked) :
    ∃ said steps final, Machine.turns resolve (mode.fileName? arena root) steps
        (Walk.start arena root said, stamper.cache, #[]) = final ∧
      final.1.frames = [] ∧ walked.arena = final.1.arena ∧
      walked.root = final.1.results.headD root := by
  rw [stamp_eq_perform] at stamps
  obtain ⟨stamped, log, run, _, arenas, roots, _⟩ := perform_eq_some resolve stamps
  rw [arenas, roots]
  cases mode with
  | node =>
    obtain ⟨steps, final, turned, ended, rfl⟩ := exists_turns_of_stampTree run
    exact ⟨_, steps, final, turned, ended, rfl, rfl⟩
  | file =>
    rw [Mode.consult, stampFile, Consult.run_bind] at run
    cases inner : (stampTree (arena.fileName? root) [.fileStarted (arena.fileName? root)] arena
      root).run resolve stamper.cache #[] with
    | mk outcome rest =>
    obtain ⟨last, events⟩ := rest
    rw [inner] at run
    cases outcome with
    | none => cases (Prod.mk.inj run).1
    | some before =>
      obtain ⟨steps, final, turned, ended, rfl⟩ := exists_turns_of_stampTree inner
      simp only [Consult.run, Option.map_some, Prod.mk.injEq, Option.some.injEq] at run
      obtain ⟨rfl, _⟩ := run
      exact ⟨_, steps, final, turned, ended, rfl, rfl⟩

/-- A walk that comes to an end has done nothing but operations, on any arena. -/
theorem edits_stamp {stamper : Stamper σ} {mode : Mode} {arena : Arena} {root : NodeId}
    {walked : Walked σ} (stamps : stamper.stamp resolve mode arena root = some walked) :
    arena.Edits walked.arena := by
  obtain ⟨said, steps, _, rfl, _, same, _⟩ := exists_turns_of_stamp stamps
  rw [same]
  exact Machine.edits_turns steps (Walk.start arena root said, stamper.cache, #[])

/-- Below any root a stamper builds from nothing that would have to be known. -/
theorem builds_stamp {stamper : Stamper σ} {mode : Mode} {arena : Arena} {root : NodeId}
    {walked : Walked σ} (stamps : stamper.stamp resolve mode arena root = some walked)
    (sound : arena.WellFormed) : arena.Builds [] walked.arena [] := by
  obtain ⟨result, final, stamped, again⟩ := stamper.exists_stamp resolve mode sound root
  rw [stamps] at again
  cases again
  by_cases has : arena.Has root
  · have builds := stamped.builds
    exact {
      edits := builds.edits
      dealt := builds.dealt
      sound := fun fits sound _ =>
        ⟨(builds.sound fits sound (by simpa using .inl has)).1, fun _ member => nomatch member⟩ }
  · obtain ⟨_, same⟩ := stamped.unique (.missing (kind?_eq_none_iff.mpr has))
    rw [walked, same]
    exact Builds.refl arena []

end Stamper

end EnumStamp
