import Mathlib.Data.List.Forall2
import EnumStamp.Proofs.Arena.Lineage
import EnumStamp.Proofs.Stamping.Turns

/-!
Succession: on any arena, what a walk puts in the place of a node is the node itself or a copy of
it. In the middle of a walk the results stand for nodes that were handled, and the frames tell which
nodes they will stand for in the end. Main statements: a turn keeps that (`Machine.accounts_turn`),
and a walk that has no frame left has one result, which succeeds its root
(`Machine.succeeds_of_ended`, `Stamper.succeeds_stamp`).
-/

set_option autoImplicit false

namespace EnumStamp

open Arena

variable {σ : Type} {resolve : Cache.Resolver σ} {file : Option String}

/-- The nodes that the results stand for once all frames have been handled, if they stand for
`sources` now; the lists have the latest first. -/
def settle : List Frame → (sources : List NodeId) → List NodeId
  | [], sources => sources
  | .enter id :: frames, sources => settle frames (id :: sources)
  | .leave id children :: frames, sources => settle frames (id :: sources.drop children)

theorem settle_enter (ids : List NodeId) (frames : List Frame) (sources : List NodeId) :
    settle (ids.map .enter ++ frames) sources = settle frames (ids.reverse ++ sources) := by
  induction ids generalizing sources with
  | nil => rfl
  | cons id ids ih =>
    rw [List.map_cons, List.cons_append, settle, ih, List.reverse_cons, List.append_assoc]
    rfl

/-- A node that is to be left uses what its children have put on the results. -/
theorem settle_parent (id : NodeId) (children : List NodeId) (frames : List Frame)
    (sources : List NodeId) :
    settle (children.map .enter ++ .leave id children.length :: frames) sources =
      settle frames (id :: sources) := by
  rw [settle_enter, settle, ← List.length_reverse, List.drop_left]

theorem Arena.Succeeds.forall₂_extends {before after : Arena} {results sources : List NodeId}
    (succeed : List.Forall₂ before.Succeeds results sources) (grown : before.Extends after) :
    List.Forall₂ after.Succeeds results sources :=
  succeed.imp fun _ _ succeeds => succeeds.extends grown

namespace Progress

theorem succeeds_stampDecl (progress : Progress σ) (lineage : progress.arena.Lineage) (id : NodeId)
    (decl : EnumDecl) (enumName : String) (exported : Bool)
    (fits : (progress.stampDecl resolve file id decl enumName exported).2.arena.Fits) :
    (progress.stampDecl resolve file id decl enumName exported).2.arena.Succeeds
      (progress.stampDecl resolve file id decl enumName exported).1 id := by
  let visited := progress.visitMembers resolve enumName decl.members
  have kept : visited.2.arena.Lineage :=
    lineage.of_edits (progress.builds_visitMembers resolve enumName decl.members).edits
  exact kept.succeeds_apply (.updateEnum id { decl with members := visited.1.map Prod.fst }) trivial
    fits

theorem succeeds_visitEnum (progress : Progress σ) (lineage : progress.arena.Lineage) (id : NodeId)
    (fits : (progress.visitEnum resolve file id).2.arena.Fits) :
    (progress.visitEnum resolve file id).2.arena.Succeeds
      (progress.visitEnum resolve file id).1 id := by
  cases chosen : progress.arena.constEnum? id with
  | none =>
    obtain ⟨log, same⟩ := progress.visitEnum_of_other resolve file chosen
    rw [same]
    exact .refl _ id
  | some isConst =>
    obtain ⟨decl, enumName⟩ := isConst
    rw [progress.visitEnum_of_const resolve file chosen] at fits ⊢
    let said := (progress.say (.enumEntered enumName)).say
      (.constEnumStarted enumName ((progress.arena.modifiers decl.modifiers).contains .exported))
    exact said.succeeds_stampDecl lineage id decl enumName _ fits

end Progress

namespace Machine

/-- The results succeed nodes so that in the end there will be one that succeeds `root`. -/
def Accounts (machine : Machine σ) (root : NodeId) : Prop :=
  ∃ sources, List.Forall₂ machine.1.arena.Succeeds machine.1.results sources ∧
    settle machine.1.frames sources = [root]

theorem accounts_start (arena : Arena) (root : NodeId) (said : List Event) (cache : σ)
    (log : Array Event) : Accounts (Walk.start arena root said, cache, log) root :=
  ⟨[], .nil, rfl⟩

/-- One more node has been handled, and nothing waits for that. -/
theorem Handled.accounts {next : Machine σ} {before : Arena} {root id result : NodeId}
    {frames : List Frame} {results sources : List NodeId} {after : Progress σ}
    (handled : next.Handled frames [result] results after) (grown : before.Extends after.arena)
    (succeed : List.Forall₂ before.Succeeds results sources)
    (succeeds : after.arena.Succeeds result id)
    (settles : settle (.enter id :: frames) sources = [root]) : next.Accounts root := by
  refine ⟨id :: sources, ?_, ?_⟩
  · rw [handled.arena, handled.results]
    exact .cons succeeds (Succeeds.forall₂_extends succeed grown)
  · rw [handled.frames]
    exact settles

/-- Entering a node puts a result for it on the others, or frames that will do so. -/
theorem accounts_entered (machine : Machine σ) {root id : NodeId} {sources : List NodeId}
    (lineage : machine.1.arena.Lineage)
    (fits : (machine.entered resolve file id).1.arena.Fits)
    (succeed : List.Forall₂ machine.1.arena.Succeeds machine.1.results sources)
    (settles : settle (.enter id :: machine.1.frames) sources = [root]) :
    (machine.entered resolve file id).Accounts root := by
  cases found : machine.1.arena.kind? id with
  | none =>
    exact (entered_of_missing resolve file machine found).accounts (Extends.refl _) succeed
      (.refl _ id) settles
  | some kind =>
    by_cases isDoc : kind.isDoc = true
    · exact (entered_of_doc resolve file machine found isDoc).accounts (Extends.refl _) succeed
        (.refl _ id) settles
    · rw [Bool.not_eq_true] at isDoc
      by_cases isEnum : kind = Construct.enumDeclaration.kind
      · have handled := entered_of_enumeration resolve file machine found isDoc isEnum
        rw [handled.arena] at fits
        let said := machine.progress.say (.nodeEntered id kind.name)
        have grown : machine.1.arena.Extends (said.visitEnum resolve file id).2.arena :=
          said.visitEnum_extends id
        exact handled.accounts grown succeed (said.succeeds_visitEnum lineage id fits) settles
      · by_cases leaf : machine.1.arena.children id = []
        · exact (entered_of_leaf resolve file machine found isDoc isEnum leaf).accounts
            (Extends.refl _) succeed (.refl _ id) settles
        · have handled := entered_of_parent resolve file machine found isDoc isEnum leaf
          refine ⟨sources, ?_, ?_⟩
          · rw [handled.arena, handled.results]
            exact succeed
          · rw [handled.frames, settle_parent]
            exact settles

/-- Leaving a node puts its result in the place of those that it uses. -/
theorem accounts_leave (machine : Machine σ) {root id : NodeId} {children : Nat}
    {sources : List NodeId} (lineage : machine.1.arena.Lineage)
    (fits : (machine.1.leave id children).arena.Fits)
    (succeed : List.Forall₂ machine.1.arena.Succeeds machine.1.results sources)
    (settles : settle (.leave id children :: machine.1.frames) sources = [root]) :
    Accounts (machine.1.leave id children, machine.2) root := by
  let replacements := (machine.1.results.take children).reverse
  have grown : machine.1.arena.Extends (machine.1.leave id children).arena :=
    extends_updateChildren machine.1.arena id replacements
  have used := List.forall₂_drop children succeed
  refine ⟨id :: sources.drop children, .cons ?_ (Succeeds.forall₂_extends used grown), settles⟩
  exact succeeds_updateChildren lineage.paired (fits.of_extends grown) id replacements

theorem accounts_turn (machine : Machine σ) {root : NodeId} (lineage : machine.1.arena.Lineage)
    (fits : (machine.turn resolve file).1.arena.Fits) (accounts : machine.Accounts root) :
    (machine.turn resolve file).Accounts root := by
  obtain ⟨sources, succeed, settles⟩ := accounts
  cases top : machine.1.frames with
  | nil =>
    rw [machine.turn_of_no_frames top]
    exact ⟨sources, succeed, settles⟩
  | cons frame frames =>
    rw [machine.turn_of_frame top] at fits ⊢
    rw [top] at settles
    let popped := machine.withFrames frames
    cases frame with
    | enter id => exact popped.accounts_entered lineage fits succeed settles
    | leave id children => exact popped.accounts_leave lineage fits succeed settles

theorem accounts_turns {root : NodeId} (steps : Nat) {machine : Machine σ}
    (lineage : machine.1.arena.Lineage) (fits : (machine.turns resolve file steps).1.arena.Fits)
    (accounts : machine.Accounts root) : (machine.turns resolve file steps).Accounts root := by
  induction steps generalizing machine with
  | zero => exact accounts
  | succ steps ih =>
    rw [turns, Function.iterate_succ_apply] at fits ⊢
    have room := fits.of_extends ((machine.turn resolve file).edits_turns steps).extends
    exact ih (lineage.of_edits machine.edits_turn) fits
      (machine.accounts_turn lineage room accounts)

/-- A walk that has no frame left has one result, which succeeds its root. -/
theorem succeeds_of_ended {machine : Machine σ} {root : NodeId} (accounts : machine.Accounts root)
    (ended : machine.1.frames = []) :
    ∃ result, machine.1.results = [result] ∧ machine.1.arena.Succeeds result root := by
  obtain ⟨sources, succeed, settles⟩ := accounts
  rw [ended, settle] at settles
  rw [settles] at succeed
  obtain ⟨result, others, succeeds, none, results⟩ := List.forall₂_cons_right_iff.mp succeed
  rw [List.forall₂_nil_right_iff.mp none] at results
  exact ⟨result, results, succeeds⟩

end Machine

/-- Whatever the arena is, the root that a walk ends with is the old root or a copy of it. -/
theorem Stamper.succeeds_stamp {stamper : Stamper σ} {mode : Mode} {arena : Arena} {root : NodeId}
    {walked : Walked σ} (stamps : stamper.stamp resolve mode arena root = some walked)
    (lineage : arena.Lineage) (fits : walked.arena.Fits) :
    walked.arena.Succeeds walked.root root := by
  obtain ⟨said, steps, _, rfl, ended, arenas, roots⟩ := exists_turns_of_stamp stamps
  rw [arenas] at fits ⊢
  have start := Machine.accounts_start arena root said stamper.cache #[]
  have accounts := Machine.accounts_turns steps lineage fits start
  obtain ⟨result, results, succeeds⟩ := Machine.succeeds_of_ended accounts ended
  rw [roots, results]
  exact succeeds

end EnumStamp
