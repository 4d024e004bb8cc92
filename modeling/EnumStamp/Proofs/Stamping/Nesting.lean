import Mathlib.Logic.ExistsUnique
import EnumStamp.Proofs.Stamping.Turns

/-!
Nesting: in the middle of a walk, on any arena and also if the walk never ends, every frame that
leaves a node belongs to one turn at which the node was entered, and the results above those of that
turn are the replacements of the children that were pushed then. The nodes that have been entered
and not yet left are nested, each in the one that was entered before it. Main statements: a turn
keeps the nesting (`Nested.turn`), and what follows for the frame on top and for a walk that has
ended (`turns_nested`).
-/

set_option autoImplicit false

namespace EnumStamp

variable {σ : Type} {resolve : Cache.Resolver σ} {file : Option String}

/-- Stamping one more tree after others. -/
theorem StampsAll.append_singleton {ids results : List NodeId} {id result : NodeId}
    {before between after : Progress σ}
    (others : StampsAll resolve file ids before results between)
    (last : Stamps resolve file id between result after) :
    StampsAll resolve file (ids ++ [id]) before (results ++ [result]) after := by
  induction ids generalizing results before with
  | nil =>
    cases others
    exact .cons last .nil
  | cons first ids ih =>
    cases others with
    | cons head tail => exact .cons head (ih tail)

namespace Machine

/-- Entering a node handles it at once, as the recursion does, or makes it wait for its children. -/
theorem entered_cases (resolve : Cache.Resolver σ) (file : Option String) (machine : Machine σ)
    (id : NodeId) :
    (∃ result after,
      (machine.entered resolve file id).Handled machine.1.frames [result] machine.1.results after ∧
      Stamps resolve file id machine.progress result after) ∨
    ∃ kind, machine.1.arena.kind? id = some kind ∧ kind.isDoc = false ∧
      kind ≠ Construct.enumDeclaration.kind ∧
      (machine.entered resolve file id).Handled
        ((machine.1.arena.children id).map .enter ++
          .leave id (machine.1.arena.children id).length :: machine.1.frames)
        [] machine.1.results (machine.progress.say (.nodeEntered id kind.name)) := by
  cases found : machine.1.arena.kind? id with
  | none =>
    exact .inl ⟨_, _, entered_of_missing resolve file machine found, .missing found⟩
  | some kind =>
    by_cases isDoc : kind.isDoc = true
    · exact .inl ⟨_, _, entered_of_doc resolve file machine found isDoc, .doc found isDoc⟩
    · rw [Bool.not_eq_true] at isDoc
      by_cases isEnum : kind = Construct.enumDeclaration.kind
      · exact .inl ⟨_, _, entered_of_enumeration resolve file machine found isDoc isEnum,
          .enumeration found isDoc isEnum⟩
      · by_cases leaf : machine.1.arena.children id = []
        · have none : StampsAll resolve file (machine.progress.arena.children id)
              (machine.progress.say (.nodeEntered id kind.name)) []
              (machine.progress.say (.nodeEntered id kind.name)) := by
            rw [show machine.progress.arena.children id = [] from leaf]
            exact .nil
          have stamped := Stamps.other found isDoc isEnum none
          rw [updateChildren_of_leaf _ leaf] at stamped
          exact .inl ⟨_, _, entered_of_leaf resolve file machine found isDoc isEnum leaf, stamped⟩
        · exact .inr ⟨kind, rfl, isDoc, isEnum,
            entered_of_parent resolve file machine found isDoc isEnum leaf⟩

/-- Since the state `before` some siblings have been stamped, whose results are on `under`, and the
others are still to be entered, with their frames on `below`. -/
structure Siblings (resolve : Cache.Resolver σ) (file : Option String) (before : Progress σ)
    (below : List Frame) (under : List NodeId) (machine : Machine σ)
    (done pending replacements : List NodeId) : Prop where
  frames : machine.1.frames = pending.map .enter ++ below
  results : machine.1.results = replacements.reverse ++ under
  stamped : StampsAll resolve file done before replacements machine.progress

theorem Siblings.next {machine later : Machine σ} {before after : Progress σ} {below : List Frame}
    {under done pending results : List NodeId} {id result : NodeId}
    (siblings : Siblings resolve file before below under machine done (id :: pending) results)
    (handled : later.Handled (pending.map .enter ++ below) [result] machine.1.results after)
    (stamped : Stamps resolve file id machine.progress result after) :
    Siblings resolve file before below under later (done ++ [id]) pending (results ++ [result]) where
  frames := handled.frames
  results := by
    rw [handled.results, siblings.results, List.reverse_append, List.append_assoc]
  stamped := by
    rw [handled.progress]
    exact siblings.stamped.append_singleton stamped

/-- At the turn `entry` of a run the node `id` is entered, and has to wait for its children. -/
structure Opens (run : Nat → Machine σ) (entry : Nat) (id : NodeId) (frames : List Frame) :
    Prop where
  top : (run entry).1.frames = .enter id :: frames
  entered : ∃ kind, (run entry).1.arena.kind? id = some kind ∧ kind.isDoc = false ∧
    kind ≠ Construct.enumDeclaration.kind ∧
    (run (entry + 1)).progress = (run entry).progress.say (.nodeEntered id kind.name)
  pushed : (run (entry + 1)).1.frames =
    ((run entry).1.arena.children id).map .enter ++
      .leave id ((run entry).1.arena.children id).length :: frames

/-- Once its children have been stamped, the node has been stamped by giving it their results. -/
theorem Opens.stamps {run : Nat → Machine σ} {entry : Nat} {id : NodeId} {frames : List Frame}
    (opens : Opens run entry id frames) {results : List NodeId} {after : Progress σ}
    (below : StampsAll resolve file ((run entry).1.arena.children id) (run (entry + 1)).progress
      results after) :
    Stamps resolve file id (run entry).progress (after.updateChildren id results).1
      (after.updateChildren id results).2 := by
  obtain ⟨kind, found, noDoc, noEnum, said⟩ := opens.entered
  rw [said] at below
  exact .other found noDoc noEnum below

/-- From some turn up to another one there are frames on others, which have been left alone. -/
def Stays (run : Nat → Machine σ) (first last : Nat) (frames : List Frame) : Prop :=
  ∀ turn, first < turn → turn ≤ last → ∃ above, (run turn).1.frames = above ++ frames

theorem Stays.below {run : Nat → Machine σ} {first last : Nat} {frames : List Frame}
    (above : List Frame) (stays : Stays run first last (above ++ frames)) :
    Stays run first last frames := by
  intro turn later early
  obtain ⟨more, same⟩ := stays turn later early
  exact ⟨more ++ above, by rw [same, List.append_assoc]⟩

theorem Stays.trans {run : Nat → Machine σ} {first middle last : Nat} {frames : List Frame}
    (early : Stays run first middle frames) (late : Stays run middle last frames) :
    Stays run first last frames := by
  intro turn after before
  by_cases reached : turn ≤ middle
  · exact early turn after reached
  · exact late turn (Nat.lt_of_not_le reached) before

theorem stays_next {run : Nat → Machine σ} {now : Nat} {frames : List Frame} (above : List Frame)
    (same : (run (now + 1)).1.frames = above ++ frames) : Stays run now (now + 1) frames := by
  intro turn after before
  have next : turn = now + 1 := by omega
  exact ⟨above, next ▸ same⟩

/-- How the stack of a walk from `root` has come about at the turn `now`: either the root is all
that there is to be entered or has been stamped, or the same is true of the turn at which the latest
node that waits was entered, and since then some of its children have been stamped. -/
inductive Nested (resolve : Cache.Resolver σ) (file : Option String) (root : NodeId)
    (run : Nat → Machine σ) : (now : Nat) → Prop where
  | outermost {now : Nat} {done pending results : List NodeId} (split : done ++ pending = [root])
      (siblings : Siblings resolve file (run 0).progress [] [] (run now) done pending results) :
      Nested resolve file root run now
  | inner {entry now : Nat} {id : NodeId} {frames : List Frame} {done pending results : List NodeId}
      (outer : Nested resolve file root run entry) (opens : Opens run entry id frames)
      (split : done ++ pending = (run entry).1.arena.children id) (order : entry < now)
      (siblings : Siblings resolve file (run (entry + 1)).progress
        (.leave id ((run entry).1.arena.children id).length :: frames) (run entry).1.results
        (run now) done pending results)
      (stays : Stays run entry now
        (.leave id ((run entry).1.arena.children id).length :: frames)) :
      Nested resolve file root run now

variable {root : NodeId} {run : Nat → Machine σ}

/-- A node that was on top has been handled, and the frames below it have been left alone. -/
theorem Nested.handled {now later : Nat} {id result : NodeId} {frames : List Frame}
    {after : Progress σ} (nested : Nested resolve file root run now)
    (top : (run now).1.frames = .enter id :: frames) (order : now < later)
    (handled : (run later).Handled frames [result] (run now).1.results after)
    (stamped : Stamps resolve file id (run now).progress result after)
    (alone : Stays run now later frames) : Nested resolve file root run later := by
  cases nested with
  | @outermost _ done pending results split siblings =>
    rw [siblings.frames] at top
    cases pending with
    | nil => cases top
    | cons first pending =>
      cases top
      refine .outermost ?_ (siblings.next handled stamped)
      rw [List.append_assoc]
      exact split
  | @inner entry _ parent under done pending results outer opens split early siblings stays =>
    rw [siblings.frames] at top
    cases pending with
    | nil => cases top
    | cons first pending =>
      cases top
      refine .inner outer opens ?_ (Nat.lt_trans early order) (siblings.next handled stamped)
        (stays.trans (alone.below _))
      rw [List.append_assoc]
      exact split

/-- A frame on top that leaves a node is that of the latest node that waits, and all children of it
have been stamped. -/
theorem Nested.of_leave {now count : Nat} {id : NodeId} {frames : List Frame}
    (nested : Nested resolve file root run now)
    (top : (run now).1.frames = .leave id count :: frames) :
    ∃ entry replacements, Nested resolve file root run entry ∧ Opens run entry id frames ∧
      entry < now ∧ count = ((run entry).1.arena.children id).length ∧
      Siblings resolve file (run (entry + 1)).progress (.leave id count :: frames)
        (run entry).1.results (run now) ((run entry).1.arena.children id) [] replacements ∧
      Stays run entry now (.leave id count :: frames) := by
  cases nested with
  | @outermost _ _ pending _ _ siblings =>
    rw [siblings.frames] at top
    cases pending <;> cases top
  | @inner entry _ _ _ done pending replacements outer opens split order siblings stays =>
    rw [siblings.frames] at top
    cases pending with
    | cons => cases top
    | nil =>
      cases top
      rw [List.append_nil] at split
      subst split
      exact ⟨entry, replacements, outer, opens, order, rfl, siblings, stays⟩

/-- A turn keeps the nesting. -/
theorem Nested.turn (runs : ∀ turn, run (turn + 1) = (run turn).turn resolve file) {now : Nat}
    (nested : Nested resolve file root run now) : Nested resolve file root run (now + 1) := by
  have next := runs now
  cases top : (run now).1.frames with
  | nil =>
    rw [turn_of_no_frames _ top] at next
    cases nested with
    | outermost split siblings => exact .outermost split (next ▸ siblings)
    | inner _ _ _ _ siblings =>
      rw [siblings.frames] at top
      exact absurd top (by simp)
  | cons frame frames =>
    rw [turn_of_frame _ top] at next
    let popped := (run now).withFrames frames
    cases frame with
    | enter id =>
      have entered : run (now + 1) = popped.entered resolve file id := next
      rcases popped.entered_cases resolve file id with
        ⟨result, after, handled, stamped⟩ | ⟨kind, found, noDoc, noEnum, handled⟩
      · rw [← entered] at handled
        exact nested.handled top (Nat.lt_succ_self now) handled stamped
          (stays_next [] handled.frames)
      · rw [← entered] at handled
        refine .inner nested ⟨top, ⟨kind, found, noDoc, noEnum, handled.progress⟩, handled.frames⟩
          (List.nil_append _) (Nat.lt_succ_self now) ⟨handled.frames, handled.results, .nil⟩
          (stays_next _ handled.frames)
    | leave id count =>
      obtain ⟨entry, replacements, outer, opens, order, rfl, siblings, stays⟩ :=
        nested.of_leave top
      have left : run (now + 1) = (popped.1.leave id _, popped.2) := next
      have handled := handled_leave popped id replacements _ siblings.results
      rw [siblings.stamped.length_eq, ← left] at handled
      exact outer.handled opens.top (Nat.lt_succ_of_lt order) handled
        (opens.stamps siblings.stamped) ((stays.below [_]).trans (stays_next [] handled.frames))

theorem Nested.of_runs (runs : ∀ turn, run (turn + 1) = (run turn).turn resolve file)
    (frames : (run 0).1.frames = [.enter root]) (results : (run 0).1.results = []) (now : Nat) :
    Nested resolve file root run now := by
  induction now with
  | zero =>
    have start : Siblings resolve file (run 0).progress [] [] (run 0) [] [root] [] :=
      ⟨frames, results, .nil⟩
    exact .outermost rfl start
  | succ now ih => exact ih.turn runs

/-- The frame that leaves `id` at the turn `now` belongs to the turn `entry`. Then `id` was entered,
with the same frames below, and the frame was put there with `id`'s children of that time, and has
not been touched since. The latest results, one for each of these children and in their order, are
what the recursion has for their replacements, and below them are the results of that turn. -/
structure Belongs (resolve : Cache.Resolver σ) (file : Option String) (run : Nat → Machine σ)
    (id : NodeId) (count : Nat) (frames : List Frame) (now entry : Nat) : Prop where
  order : entry < now
  top : (run entry).1.frames = .enter id :: frames
  each : count = ((run entry).1.arena.children id).length
  pushed : (run (entry + 1)).1.frames =
    ((run entry).1.arena.children id).map .enter ++ .leave id count :: frames
  stays : Stays run entry now (.leave id count :: frames)
  stamped : StampsAll resolve file ((run entry).1.arena.children id) (run (entry + 1)).progress
    ((run now).1.results.take count).reverse (run now).progress
  below : (run now).1.results.drop count = (run entry).1.results

variable {id : NodeId} {count now : Nat} {frames : List Frame}

/-- A frame that is there already cannot be put there later. -/
theorem Belongs.not_lt {first second : Nat}
    (early : Belongs resolve file run id count frames now first)
    (late : Belongs resolve file run id count frames now second) : ¬ first < second := by
  intro before
  obtain ⟨above, same⟩ := early.stays second before (Nat.le_of_lt late.order)
  rw [late.top] at same
  cases above with
  | nil => cases same
  | cons frame above =>
    have longer : frames = above ++ .leave id count :: frames := (List.cons.inj same).2
    have lengths := congrArg List.length longer
    rw [List.length_append, List.length_cons] at lengths
    omega

theorem Nested.existsUnique_belongs (nested : Nested resolve file root run now)
    (top : (run now).1.frames = .leave id count :: frames) :
    count ≤ (run now).1.results.length ∧
      ∃! entry, Belongs resolve file run id count frames now entry := by
  obtain ⟨entry, replacements, _, opens, order, each, siblings, stays⟩ := nested.of_leave top
  have results := siblings.results
  have lengths : replacements.reverse.length = count :=
    List.length_reverse.trans (siblings.stamped.length_eq.trans each.symm)
  have latest : (run now).1.results.take count = replacements.reverse := by
    rw [results, ← lengths, List.take_left]
  have others : (run now).1.results.drop count = (run entry).1.results := by
    rw [results, ← lengths, List.drop_left]
  have stamped := siblings.stamped
  rw [← List.reverse_reverse replacements, ← latest] at stamped
  have belongs : Belongs resolve file run id count frames now entry :=
    ⟨order, opens.top, each, each ▸ opens.pushed, stays, stamped, others⟩
  refine ⟨?_, entry, belongs, fun other again => ?_⟩
  · rw [results, List.length_append]
    omega
  · have notLater := belongs.not_lt again
    have notEarlier := again.not_lt belongs
    omega

theorem Nested.ended (nested : Nested resolve file root run now)
    (ended : (run now).1.frames = []) :
    ∃ result, (run now).1.results = [result] ∧
      Stamps resolve file root (run 0).progress result (run now).progress := by
  cases nested with
  | @outermost _ done pending replacements split siblings =>
    have frames := siblings.frames
    rw [ended, List.append_nil] at frames
    cases List.map_eq_nil_iff.mp frames.symm
    rw [List.append_nil] at split
    subst split
    have stamped := siblings.stamped
    cases stamped with
    | @cons _ _ _ between _ result others first rest =>
      cases rest
      exact ⟨result, siblings.results, first⟩
  | inner _ _ _ _ siblings =>
    have frames := siblings.frames
    rw [ended] at frames
    exact absurd frames (by simp)

/-- What can be said of a walk on any arena after any number of turns. When a frame that leaves a
node is on top, there are as many results as it takes, and it belongs to exactly one turn before,
at which the node was entered. When no frame is left, there is one result, the replacement of the
root, and nothing is used in its stead. -/
theorem turns_nested (resolve : Cache.Resolver σ) (file : Option String) (arena : Arena)
    (root : NodeId) (said : List Event) (cache : σ) (log : Array Event) (steps : Nat) :
    let run (turn : Nat) : Machine σ :=
      turns resolve file turn (Walk.start arena root said, cache, log)
    (∀ id count frames, (run steps).1.frames = .leave id count :: frames →
      count ≤ (run steps).1.results.length ∧
        ∃! entry, Belongs resolve file run id count frames steps entry) ∧
    ((run steps).1.frames = [] →
      ∃ result, (run steps).1.results = [result] ∧
        (∀ fallback, (Stamped.ofWalk fallback (run steps).1).root = result) ∧
        Stamps resolve file root (run 0).progress result (run steps).progress) := by
  intro run
  have runs (turn : Nat) : run (turn + 1) = (run turn).turn resolve file :=
    Function.iterate_succ_apply' ..
  have nested : Nested resolve file root run steps := Nested.of_runs runs rfl rfl steps
  refine ⟨fun id count frames top => nested.existsUnique_belongs top, fun ended => ?_⟩
  obtain ⟨result, results, stamped⟩ := nested.ended ended
  refine ⟨result, results, fun fallback => ?_, stamped⟩
  rw [Stamped.ofWalk, results, List.headD_cons]

/-- A block whose second child is missing, and one that has the former and itself for children. -/
def circular : Arena :=
  { Arena.empty with
    nodes :=
      #[⟨Token.constKeyword.kind, 0, 0, 5, Header.noPlace⟩,
        ⟨Construct.block.kind, 0, 0, 5, 0⟩,
        ⟨Construct.block.kind, 0, 0, 5, 1⟩]
    origins := .replicate 3 .absent
    composites := #[[.ofPosition 0, .ofPosition 9], [.ofPosition 1, .ofPosition 2]] }

/-- The walk below the circular block never ends. Its ninth turn leaves the other block for the
second time, with the result of the first time below. The walk below the other block is over after
four turns. -/
theorem turns_nested_circular :
    let run (root : NodeId) (turn : Nat) : Machine CallLog :=
      turns CallLog.resolve none turn (Walk.start circular root [], CallLog.empty, #[])
    let frames : List Frame :=
      [.enter (.ofPosition 2), .leave (.ofPosition 2) 2, .leave (.ofPosition 2) 2]
    ((run (.ofPosition 2) 9).1.frames = .leave (.ofPosition 1) 2 :: frames ∧
      (run (.ofPosition 2) 9).1.results = [.ofPosition 9, .ofPosition 0, .ofPosition 1] ∧
      ∃! entry,
        Belongs CallLog.resolve none (run (.ofPosition 2)) (.ofPosition 1) 2 frames 9 entry) ∧
    (run (.ofPosition 1) 4).1.frames = [] ∧
      ∃ result, (run (.ofPosition 1) 4).1.results = [result] := by
  intro run frames
  have top : (run (.ofPosition 2) 9).1.frames = .leave (.ofPosition 1) 2 :: frames := by
    decide +kernel
  obtain ⟨leaves, _⟩ := turns_nested CallLog.resolve none circular (.ofPosition 2) [] CallLog.empty
    #[] 9
  have ended : (run (.ofPosition 1) 4).1.frames = [] := by decide +kernel
  obtain ⟨_, ends⟩ := turns_nested CallLog.resolve none circular (.ofPosition 1) [] CallLog.empty
    #[] 4
  obtain ⟨result, results, _⟩ := ends ended
  exact ⟨⟨top, by decide +kernel, (leaves _ _ _ top).2⟩, ended, result, results⟩

end Machine

end EnumStamp
