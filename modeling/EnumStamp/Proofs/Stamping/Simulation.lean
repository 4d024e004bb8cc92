import EnumStamp.Proofs.Stamping.Recursion
import EnumStamp.Proofs.Arena.Weight
import EnumStamp.Stamping.Stamper

/-!
Simulation: the walk with its stack of frames does what the recursion does. A walk that is about to
enter a node leaves the frames below as they are, puts the node's replacement on the results and has
the effects of the recursion, in the same order. Main statements: one frame (`run_enterEnum`), all
frames of a tree (`Stamps.advances`), and the whole walk (`Stamps.run_stampTree`).
-/

set_option autoImplicit false

namespace EnumStamp

variable {σ : Type}

/-- A walk together with the cache that answers it and the events that are settled. -/
abbrev Machine (σ : Type) := Walk × σ × Array Event

namespace Machine

def progress (machine : Machine σ) : Progress σ :=
  { arena := machine.1.arena
    cache := machine.2.1
    records := machine.1.records.reverse
    log := machine.2.2 ++ machine.1.said.reverse }

/-- Handles frames until none is left, at most `steps` of them. -/
def iterate (resolve : Cache.Resolver σ) (file : Option String) (steps : Nat)
    (machine : Machine σ) : Option Walk × σ × Array Event :=
  (Walk.iterate file steps machine.1).run resolve machine.2.1 machine.2.2

/-- The machine has come as far as `after`, with some frames left and some results on top of those
that were there before. -/
structure Handled (machine : Machine σ) (frames : List Frame) (results below : List NodeId)
    (after : Progress σ) : Prop where
  progress : machine.progress = after
  frames : machine.1.frames = frames
  results : machine.1.results = results.reverse ++ below

def withFrames (machine : Machine σ) (frames : List Frame) : Machine σ :=
  ({ machine.1 with frames }, machine.2)

end Machine

theorem append_reverse_cons (log : Array Event) (event : Event) (said : List Event) :
    log ++ (event :: said).reverse = (log ++ said.reverse).push event := by
  apply Array.ext'
  simp

theorem append_reverse_nil (log : Array Event) : log ++ ([] : List Event).reverse = log := by
  apply Array.ext'
  simp

/-- The walk keeps a member without a name. -/
theorem stampMembers_of_none (enumName : String) (ids : List NodeId) (state : PartialEnum)
    {id : NodeId} (noName : state.arena.memberName? id = none) :
    stampMembers enumName (id :: ids) state =
      stampMembers enumName ids
        { state with
          members := id :: state.members
          kept := state.kept + 1
          said := .memberKept enumName id :: state.said } := by
  rw [stampMembers, noName]

/-- The walk asks the cache for a member with a name, and goes on with the answer. -/
theorem run_stampMembers_of_name (resolve : Cache.Resolver σ) (enumName : String)
    (ids : List NodeId) (state : PartialEnum) (cache : σ) (log : Array Event) {id : NodeId}
    {member : EnumMember} {name : String} (atMember : state.arena.enumMember? id = some member)
    (atName : state.arena.memberName? id = some name) :
    (stampMembers enumName (id :: ids) state).run resolve cache log =
      let answer := resolve (Cache.key enumName name) cache
      let created := state.arena.createString answer.1.value
      let updated := created.1.updateEnumMember id { member with initializer := created.2 }
      (stampMembers enumName ids
        { arena := updated.1
          members := updated.2 :: state.members
          stamps := ⟨name, Cache.key enumName name, answer.1.value⟩ :: state.stamps
          kept := state.kept
          said := [.memberStamped name answer.1.value] }).run resolve answer.2
        (log ++ (Event.memberStarted enumName name :: state.said).reverse ++ answer.1.events) := by
  simp only [stampMembers, atMember, atName, Consult.run]

/-- The members of an enum are handled as by the recursion, and the lists that the walk keeps have
the latest first. -/
theorem run_stampMembers (resolve : Cache.Resolver σ) (enumName : String) (ids : List NodeId)
    (state : PartialEnum) (cache : σ) (log : Array Event) (records : List EnumStampRecord)
    {visited : List Progress.Visited} {after : Progress σ}
    (direct : Progress.visitMembers resolve enumName ids
      ⟨state.arena, cache, records, log ++ state.said.reverse⟩ = (visited, after)) :
    ∃ said rest,
      (stampMembers enumName ids state).run resolve cache log =
        ({ arena := after.arena
           members := (visited.map Prod.fst).reverse ++ state.members
           stamps := (visited.filterMap Progress.Visited.stamp?).reverse ++ state.stamps
           kept := visited.countP Progress.Visited.isKept + state.kept
           said }, after.cache, rest) ∧
      after.records = records ∧ after.log = rest ++ said.reverse := by
  induction ids generalizing state cache log visited with
  | nil =>
    cases direct
    exact ⟨state.said, log, by simp [stampMembers, Consult.run], rfl, rfl⟩
  | cons id ids ih =>
    cases one : Progress.visitMember resolve enumName id
      ⟨state.arena, cache, records, log ++ state.said.reverse⟩ with
    | mk first between =>
    cases many : Progress.visitMembers resolve enumName ids between with
    | mk others last =>
    rw [Progress.visitMembers_cons, one] at direct
    simp only [many] at direct
    cases direct
    cases atName : state.arena.memberName? id with
    | none =>
      rw [Progress.visitMember_of_none _ _ _ atName] at one
      cases one
      obtain ⟨said, rest, run, recorded, logged⟩ := ih
        { state with
          members := id :: state.members
          kept := state.kept + 1
          said := .memberKept enumName id :: state.said } cache log (by
            rw [append_reverse_cons]
            exact many)
      refine ⟨said, rest, ?_, recorded, logged⟩
      have unstamped : ((id, .kept) :: others).filterMap Progress.Visited.stamp? =
          others.filterMap Progress.Visited.stamp? := List.filterMap_cons_none rfl
      have counted : ((id, .kept) :: others).countP Progress.Visited.isKept =
          others.countP Progress.Visited.isKept + 1 := List.countP_cons_of_pos rfl
      rw [stampMembers_of_none _ _ _ atName, run, unstamped, counted]
      simp only [List.map_cons, List.reverse_cons, List.append_assoc, List.singleton_append,
        Nat.add_assoc, Nat.add_comm 1]
    | some name =>
      obtain ⟨member, atMember, _⟩ := Arena.memberName?_eq_some_iff.mp atName
      rw [Progress.visitMember_of_name _ _ _ atMember atName] at one
      obtain ⟨rfl, rfl⟩ := Prod.mk.inj one
      let answer := resolve (Cache.key enumName name) cache
      let created := state.arena.createString answer.1.value
      let updated := created.1.updateEnumMember id { member with initializer := created.2 }
      obtain ⟨said, rest, run, recorded, logged⟩ := ih
        { arena := updated.1
          members := updated.2 :: state.members
          stamps := ⟨name, Cache.key enumName name, answer.1.value⟩ :: state.stamps
          kept := state.kept
          said := [.memberStamped name answer.1.value] }
        answer.2
        (log ++ (Event.memberStarted enumName name :: state.said).reverse ++ answer.1.events)
        (by
          rw [append_reverse_cons, append_reverse_cons, append_reverse_nil]
          exact many)
      refine ⟨said, rest, ?_, recorded, logged⟩
      rw [run_stampMembers_of_name _ _ _ _ _ _ atMember atName]
      refine run.trans ?_
      let stamp : MemberStamp := ⟨name, Cache.key enumName name, answer.1.value⟩
      have stamped : ((updated.2, .stamped stamp) :: others).filterMap Progress.Visited.stamp? =
          stamp :: others.filterMap Progress.Visited.stamp? := List.filterMap_cons_some rfl
      have uncounted : ((updated.2, .stamped stamp) :: others).countP Progress.Visited.isKept =
          others.countP Progress.Visited.isKept := List.countP_cons_of_neg Bool.false_ne_true
      rw [stamped, uncounted]
      simp only [List.map_cons, List.reverse_cons, List.append_assoc, List.singleton_append]
      rfl

theorem progress_say (walk : Walk) (event : Event) (cache : σ) (log : Array Event) :
    Machine.progress (walk.say event, cache, log) =
      (Machine.progress (walk, cache, log)).say event := by
  simp only [Machine.progress, Progress.say, Walk.say, append_reverse_cons]

/-- The walk of a const enum: its members are handled, and it is copied with them. -/
theorem enterEnum_of_const (file : Option String) (id : NodeId) (walk : Walk) {decl : EnumDecl}
    {enumName : String} (isConst : walk.arena.constEnum? id = some (decl, enumName)) :
    walk.enterEnum file id =
      let exported := (walk.arena.modifiers decl.modifiers).contains .exported
      (stampMembers enumName decl.members
        { arena := walk.arena
          members := []
          stamps := []
          kept := 0
          said := .constEnumStarted enumName exported :: .enumEntered enumName :: walk.said }).bind
        fun state =>
          let copy := state.arena.updateEnum id { decl with members := state.members.reverse }
          .done
            { arena := copy.1
              frames := walk.frames
              results := copy.2 :: walk.results
              records :=
                ⟨file, enumName, exported, id, copy.2, state.stamps.reverse, state.kept⟩ ::
                  walk.records
              said := .constEnumFinished enumName :: state.said } := by
  obtain ⟨atDecl, atName, const⟩ := Arena.constEnum?_eq_some_iff.mp isConst
  simp only [Walk.enterEnum, atDecl, atName]
  exact if_pos const

/-- The walk handles an enum that is to be stamped as the recursion does. -/
theorem run_enterEnum_of_const (resolve : Cache.Resolver σ) (file : Option String) (id : NodeId)
    (machine : Machine σ) {decl : EnumDecl} {enumName : String}
    (isConst : machine.1.arena.constEnum? id = some (decl, enumName)) :
    let direct := machine.progress.visitEnum resolve file id
    Machine.Handled ((machine.1.enterEnum file id).run resolve machine.2.1 machine.2.2)
      machine.1.frames [direct.1] machine.1.results direct.2 := by
  obtain ⟨walk, cache, log⟩ := machine
  let exported := (walk.arena.modifiers decl.modifiers).contains .exported
  let started : PartialEnum :=
    { arena := walk.arena
      members := []
      stamps := []
      kept := 0
      said := .constEnumStarted enumName exported :: .enumEntered enumName :: walk.said }
  let said : Progress σ := Machine.progress
    ((walk.say (.enumEntered enumName)).say (.constEnumStarted enumName exported), cache, log)
  cases members : said.visitMembers resolve enumName decl.members with
  | mk visited after =>
  obtain ⟨last, rest, run, recorded, logged⟩ :=
    run_stampMembers resolve enumName decl.members started cache log walk.records.reverse members
  have byRecursion : (Machine.progress (walk, cache, log)).visitEnum resolve file id =
      said.stampDecl resolve file id decl enumName exported := by
    rw [Progress.visitEnum_of_const _ _ _ isConst]
    simp only [said, progress_say]
    rfl
  rw [enterEnum_of_const file id walk isConst, Consult.run_bind]
  simp only [byRecursion, Progress.stampDecl, members]
  rw [run]
  simp only [Consult.run, started, List.append_nil, List.reverse_reverse, Nat.add_zero]
  refine ⟨?_, rfl, rfl⟩
  rw [Machine.progress, recorded, logged, append_reverse_cons, List.reverse_cons]

/-- The walk handles an enum declaration as the recursion does. -/
theorem run_enterEnum (resolve : Cache.Resolver σ) (file : Option String) (id : NodeId)
    (machine : Machine σ) :
    let direct := machine.progress.visitEnum resolve file id
    Machine.Handled ((machine.1.enterEnum file id).run resolve machine.2.1 machine.2.2)
      machine.1.frames [direct.1] machine.1.results direct.2 := by
  intro direct
  cases found : machine.1.arena.constEnum? id with
  | some isConst => exact run_enterEnum_of_const resolve file id machine found
  | none =>
  obtain ⟨walk, cache, log⟩ := machine
  have arena : (Machine.progress (walk, cache, log)).arena = walk.arena := rfl
  cases atDecl : walk.arena.enumDecl? id with
  | none =>
    simp only [direct, Walk.enterEnum, Progress.visitEnum, arena, atDecl]
    exact ⟨rfl, rfl, rfl⟩
  | some decl =>
    cases atName : walk.arena.identifierText? decl.name with
    | none =>
      simp only [direct, Walk.enterEnum, Progress.visitEnum, arena, atDecl, atName]
      exact ⟨progress_say walk (.namelessEnum id) cache log, rfl, rfl⟩
    | some enumName =>
      by_cases const : (walk.arena.modifiers decl.modifiers).contains .const = true
      · rw [Arena.constEnum?_eq_some_iff.mpr ⟨atDecl, atName, const⟩] at found
        cases found
      · have byWalk : walk.enterEnum file id =
            .done (((walk.say (.enumEntered enumName)).say (.plainEnum enumName)).finish id) := by
          simp only [Walk.enterEnum, atDecl, atName]
          exact if_neg const
        have byRecursion : direct = (id, Machine.progress
            ((walk.say (.enumEntered enumName)).say (.plainEnum enumName), cache, log)) := by
          simp only [direct, Progress.visitEnum, arena, atDecl, atName, progress_say]
          exact if_neg const
        rw [byWalk, byRecursion]
        exact ⟨rfl, rfl, rfl⟩

namespace Machine

/-- In `steps` steps the machine comes to `next`, whatever number of steps may follow. -/
def Advances (resolve : Cache.Resolver σ) (file : Option String) (steps : Nat)
    (machine next : Machine σ) : Prop :=
  ∀ extra, machine.iterate resolve file (extra + steps) = next.iterate resolve file extra

variable {resolve : Cache.Resolver σ} {file : Option String}

theorem Advances.refl (machine : Machine σ) : machine.Advances resolve file 0 machine := by
  intro extra
  rfl

theorem Advances.trans {first second : Nat} {start middle last : Machine σ}
    (early : start.Advances resolve file first middle)
    (late : middle.Advances resolve file second last) :
    start.Advances resolve file (second + first) last := by
  intro extra
  rw [← Nat.add_assoc, early, late]

/-- One step handles the frame on top. -/
theorem advances_step (machine : Machine σ) {frame : Frame} {frames : List Frame}
    (top : machine.1.frames = frame :: frames) :
    machine.Advances resolve file 1
      ((Walk.step file (machine.withFrames frames).1 frame).run resolve machine.2.1
        machine.2.2) := by
  intro extra
  have unfolded : Walk.iterate file (extra + 1) machine.1 =
      (Walk.step file (machine.withFrames frames).1 frame).bind (Walk.iterate file extra) := by
    rw [Walk.iterate, top, withFrames]
    dsimp only
    split <;> rename_i shape <;> rw [shape] <;> rfl
  rw [iterate, unfolded, Consult.run_bind]
  rfl

end Machine

section Enter

variable (resolve : Cache.Resolver σ) (file : Option String) (machine : Machine σ) {id : NodeId}

def Machine.entered (id : NodeId) : Machine σ :=
  (machine.1.enter file id).run resolve machine.2.1 machine.2.2

theorem entered_of_missing (absent : machine.1.arena.kind? id = none) :
    (machine.entered resolve file id).Handled machine.1.frames [id] machine.1.results
      machine.progress := by
  simp only [Machine.entered, Walk.enter, absent]
  exact ⟨rfl, rfl, rfl⟩

theorem entered_of_doc {kind : Kind} (found : machine.1.arena.kind? id = some kind)
    (isDoc : kind.isDoc = true) :
    (machine.entered resolve file id).Handled machine.1.frames [id] machine.1.results
      ((machine.progress.say (.nodeEntered id kind.name)).say (.docSkipped id)) := by
  simp only [Machine.entered, Walk.enter, found, isDoc, if_true]
  refine ⟨?_, rfl, rfl⟩
  obtain ⟨walk, cache, log⟩ := machine
  rw [← progress_say, ← progress_say]
  rfl

theorem entered_of_enumeration {kind : Kind} (found : machine.1.arena.kind? id = some kind)
    (noDoc : kind.isDoc = false) (isEnum : kind = Construct.enumDeclaration.kind) :
    let direct := (machine.progress.say (.nodeEntered id kind.name)).visitEnum resolve file id
    (machine.entered resolve file id).Handled machine.1.frames [direct.1] machine.1.results
      direct.2 := by
  obtain ⟨walk, cache, log⟩ := machine
  have entered : walk.enter file id =
      (walk.say (.nodeEntered id kind.name)).enterEnum file id := by
    simp only [Walk.enter, found, noDoc, if_pos isEnum, Bool.false_eq_true, if_false]
  rw [Machine.entered, entered, ← progress_say]
  exact run_enterEnum resolve file id (walk.say (.nodeEntered id kind.name), cache, log)

/-- A node that is neither documentation nor an enum and has no children is finished at once. -/
theorem entered_of_leaf {kind : Kind} (found : machine.1.arena.kind? id = some kind)
    (noDoc : kind.isDoc = false) (noEnum : kind ≠ Construct.enumDeclaration.kind)
    (leaf : machine.1.arena.children id = []) :
    (machine.entered resolve file id).Handled machine.1.frames [id] machine.1.results
      (machine.progress.say (.nodeEntered id kind.name)) := by
  obtain ⟨walk, cache, log⟩ := machine
  have entered : walk.enter file id =
      .done ((walk.say (.nodeEntered id kind.name)).finish id) := by
    have same : (walk.say (.nodeEntered id kind.name)).arena.children id = [] := leaf
    simp only [Walk.enter, found, noDoc, if_neg noEnum, same, Bool.false_eq_true, if_false]
  rw [Machine.entered, entered, ← progress_say]
  exact ⟨rfl, rfl, rfl⟩

/-- Any other such node waits for its children. -/
theorem entered_of_parent {kind : Kind} (found : machine.1.arena.kind? id = some kind)
    (noDoc : kind.isDoc = false) (noEnum : kind ≠ Construct.enumDeclaration.kind)
    (parent : machine.1.arena.children id ≠ []) :
    let children := machine.1.arena.children id
    (machine.entered resolve file id).Handled
      (children.map .enter ++ .leave id children.length :: machine.1.frames) [] machine.1.results
      (machine.progress.say (.nodeEntered id kind.name)) := by
  obtain ⟨walk, cache, log⟩ := machine
  have entered : walk.enter file id =
      .done
        { walk.say (.nodeEntered id kind.name) with
          frames := (walk.arena.children id).map .enter ++
            .leave id (walk.arena.children id).length :: walk.frames } := by
    have same : (walk.say (.nodeEntered id kind.name)).arena = walk.arena := rfl
    simp only [Walk.enter, found, noDoc, if_neg noEnum, same, Bool.false_eq_true, if_false]
    rfl
  intro children
  rw [Machine.entered, entered, ← progress_say]
  exact ⟨rfl, rfl, rfl⟩

end Enter

theorem toList_reverse {α : Type} (entry : Option α) : entry.toList.reverse = entry.toList := by
  cases entry <;> rfl

/-- Leaving a node uses the latest results, as many as the node has children. -/
theorem handled_leave (machine : Machine σ) (id : NodeId) (replacements below : List NodeId)
    (results : machine.1.results = replacements.reverse ++ below) :
    let direct := machine.progress.updateChildren id replacements
    Machine.Handled (machine.1.leave id replacements.length, machine.2) machine.1.frames [direct.1]
      below direct.2 := by
  have count : replacements.length = replacements.reverse.length := List.length_reverse.symm
  have taken : machine.1.results.take replacements.length = replacements.reverse := by
    rw [results, count, List.take_left]
  have kept : machine.1.results.drop replacements.length = below := by
    rw [results, count, List.drop_left]
  simp only [Walk.leave, taken, kept, List.reverse_reverse]
  refine ⟨?_, rfl, rfl⟩
  simp only [Machine.progress, Progress.updateChildren, List.reverse_append, toList_reverse]
  congr 1
  apply Array.ext'
  simp

/-- A node without children is given none. -/
theorem updateChildren_of_leaf (progress : Progress σ) {id : NodeId}
    (leaf : progress.arena.children id = []) : progress.updateChildren id [] = (id, progress) := by
  have unchanged : progress.arena.updateChildren id [] = (progress.arena, id) := by
    rw [← leaf, Arena.updateChildren_children]
  have noWarning : progress.arena.childMismatch? id [] = none := by
    simp only [Arena.childMismatch?, leaf, if_true]
  simp only [Progress.updateChildren, unchanged, noWarning, Option.toList_none]
  simp

variable {resolve : Cache.Resolver σ} {file : Option String}

/-- A machine that is about to enter a node of a well-formed arena does in a bounded number of steps
what the recursion does at the node. -/
theorem Stamps.advances {base : Arena} (sound : base.WellFormed) {id result : NodeId}
    {before after : Progress σ} (stamped : Stamps resolve file id before result after)
    (inside : before.arena.Has id → base.Has id) (grown : base.Extends before.arena)
    (machine : Machine σ) {frames : List Frame} (top : machine.1.frames = .enter id :: frames)
    (start : machine.progress = before) :
    ∃ steps next, steps ≤ 2 * base.weight id ∧
      Machine.Handled next frames [result] machine.1.results after ∧
      machine.Advances resolve file steps next := by
  -- Siblings wait on the stack together, so a list of nodes is handled with one frame for each. The
  -- steps are counted in the arena of the start: the arena of the machine grows with every copy.
  induction stamped using Stamps.induct (fun ids before results after =>
    (∀ id ∈ ids, base.Has id) → base.Extends before.arena →
      ∀ (machine : Machine σ) (frames : List Frame),
        machine.1.frames = ids.map .enter ++ frames → machine.progress = before →
        ∃ steps next, steps ≤ 2 * base.weights ids ∧
          Machine.Handled next frames results machine.1.results after ∧
          machine.Advances resolve file steps next) generalizing machine frames with
  | @missing id before absent =>
    have positive := base.weight_pos id
    subst start
    exact ⟨1, _, by omega, entered_of_missing resolve file (machine.withFrames frames) absent,
      machine.advances_step top⟩
  | @doc id before kind found isDoc =>
    have positive := base.weight_pos id
    subst start
    exact ⟨1, _, by omega, entered_of_doc resolve file (machine.withFrames frames) found isDoc,
      machine.advances_step top⟩
  | @enumeration id before kind found noDoc isEnum =>
    have positive := base.weight_pos id
    subst start
    exact ⟨1, _, by omega,
      entered_of_enumeration resolve file (machine.withFrames frames) found noDoc isEnum,
      machine.advances_step top⟩
  | @other id before after kind results found noDoc noEnum below ih =>
    subst start
    have has := inside (Arena.has_of_kind found)
    have same : machine.1.arena.children id = base.children id := grown.children_eq sound has
    have weighs := base.weight_eq sound id
    by_cases leaf : machine.1.arena.children id = []
    · have entered := entered_of_leaf resolve file (machine.withFrames frames) found noDoc noEnum
        leaf
      have noChildren : machine.progress.arena.children id = [] := leaf
      rw [noChildren] at below
      cases below
      rw [updateChildren_of_leaf _ leaf]
      exact ⟨1, _, by omega, entered, machine.advances_step top⟩
    · have entered := entered_of_parent resolve file (machine.withFrames frames) found noDoc noEnum
        leaf
      have count : results.length = (machine.1.arena.children id).length := below.length_eq
      have present : ∀ child ∈ machine.progress.arena.children id, base.Has child := by
        intro child member
        exact sound.child_has (same ▸ member)
      obtain ⟨steps, ready, bound, handled, advances⟩ :=
        ih present grown _ _ entered.frames entered.progress
      let popped := ready.withFrames frames
      have left := handled_leave popped id results machine.1.results
        (handled.results.trans (congrArg _ entered.results))
      have progress : popped.progress = after := handled.progress
      rw [progress, count] at left
      refine ⟨1 + (steps + 1), _, ?_, left,
        ((machine.advances_step top).trans advances).trans (ready.advances_step handled.frames)⟩
      have total : base.weights (machine.progress.arena.children id) =
          base.weights (base.children id) := congrArg _ same
      omega
  | nil =>
    rename_i machine frames top start
    exact ⟨0, machine, Nat.zero_le _, ⟨start, top, rfl⟩, Machine.Advances.refl machine⟩
  | @cons id ids before between after result results first others ihFirst ihOthers =>
    rename_i present grown machine frames top start
    obtain ⟨few, middle, fewBound, early, fewAdvances⟩ :=
      ihFirst (fun _ => present id (List.mem_cons_self ..)) grown machine top start
    obtain ⟨more, last, moreBound, late, moreAdvances⟩ :=
      ihOthers (fun other member => present other (List.mem_cons_of_mem _ member))
        (grown.trans first.extends) middle frames early.frames early.progress
    refine ⟨more + few, last, ?_, ⟨late.progress, late.frames, ?_⟩, fewAdvances.trans moreAdvances⟩
    · rw [Arena.weights_cons]
      omega
    · rw [late.results, early.results]
      simp

theorem iterate_of_no_frames (machine : Machine σ) (steps : Nat)
    (finished : machine.1.frames = []) :
    machine.iterate resolve file steps = (some machine.1, machine.2) := by
  have unfolded : Walk.iterate file steps machine.1 = .done (some machine.1) := by
    rw [Walk.iterate.eq_def]
    dsimp only
    rw [finished]
  rw [Machine.iterate, unfolded]
  rfl

theorem iterate_zero (machine : Machine σ) {frame : Frame} {frames : List Frame}
    (top : machine.1.frames = frame :: frames) :
    machine.iterate resolve file 0 = (none, machine.2) := by
  have unfolded : Walk.iterate file 0 machine.1 = .done none := by
    rw [Walk.iterate, top]
  rw [Machine.iterate, unfolded]
  rfl

/-- The walk from a root in a well-formed arena comes to an end within its bound, and it does what
the recursion does. -/
theorem Stamps.run_stampTree {arena : Arena} (sound : arena.WellFormed) {root result : NodeId}
    {cache : σ} (log : Array Event) (said : List Event) {final : Progress σ}
    (stamped : Stamps resolve file root ⟨arena, cache, [], log ++ said.reverse⟩ result final) :
    ∃ (rest : Array Event) (last : List Event), final.log = rest ++ last ∧
      (stampTree file said arena root).run resolve cache log =
        (some { arena := final.arena, root := result, records := final.records, said := last },
          final.cache, rest) := by
  let machine : Machine σ := (Walk.start arena root said, cache, log)
  obtain ⟨steps, next, bound, handled, advances⟩ :=
    stamped.advances sound id (Arena.Extends.refl arena) machine rfl rfl
  obtain ⟨walk, left, rest⟩ := next
  obtain ⟨extra, enough⟩ := Nat.exists_eq_add_of_le' bound
  have frames : Walk.frameBound arena root = extra + steps := by
    rw [Walk.frameBound, Arena.occurrenceBound_eq sound, enough]
  have ended : (Walk.iterate file (extra + steps) (Walk.start arena root said)).run resolve cache
      log = (some walk, left, rest) :=
    (advances extra).trans (iterate_of_no_frames _ extra handled.frames)
  refine ⟨rest, walk.said.reverse, ?_, ?_⟩
  · rw [← handled.progress]
    rfl
  · have results : walk.results = [result] := handled.results
    rw [← handled.progress, stampTree, Consult.run_bind, frames, ended]
    simp only [Consult.run, Option.map_some, Stamped.ofWalk, results, List.headD_cons]
    rfl

end EnumStamp
