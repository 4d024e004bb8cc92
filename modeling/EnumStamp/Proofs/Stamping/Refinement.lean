import EnumStamp.Proofs.Cache.Answers
import EnumStamp.Proofs.Stamping.Simulation

set_option autoImplicit false

namespace EnumStamp

open Cache

/-- The walk below any node as one consultation; its records name no file. -/
def stampNode (arena : Arena) (root : NodeId) : Consult (Option Stamped) :=
  stampTree none [] arena root

/-- The walk of a source file as one consultation; its records name the file, if the root is one. -/
def stampFile (arena : Arena) (root : NodeId) : Consult (Option Stamped) :=
  let file := arena.fileName? root
  (stampTree file [.fileStarted file] arena root).bind fun stamped =>
    .done (stamped.map fun stamped =>
      { stamped with said := stamped.said ++ [.fileFinished file (some (stamped.root != root))] })

namespace Stamper

variable {σ : Type} {resolve : Resolver σ}

def perform (stamper : Stamper σ) (resolve : Resolver σ) (walk : Consult (Option Stamped)) :
    Option (Walked σ) :=
  match walk.run resolve stamper.cache #[] with
  | (none, _, _) => none
  | (some stamped, cache, log) =>
    some
      { stamper := { stamper with cache, records := stamper.records ++ stamped.records }
        arena := stamped.arena
        root := stamped.root
        records := stamped.records
        log := log ++ stamped.said }

/-- Whatever files a stamper has been through, the records of a walk from a node name none. -/
theorem node_eq_perform (stamper : Stamper σ) (resolve : Resolver σ) (arena : Arena)
    (root : NodeId) :
    stamper.node resolve arena root = stamper.perform resolve (stampNode arena root) := by
  obtain ⟨⟨options, cache, records, current⟩, idle⟩ := stamper
  cases idle
  simp only [node, State.walk, perform, stampNode]
  cases (stampTree none [] arena root).run resolve cache #[] with
  | mk outcome rest => cases outcome <;> rfl

/-- The name that a stamper keeps for a walk is that of the file. -/
theorem file_eq_perform (stamper : Stamper σ) (resolve : Resolver σ) (arena : Arena)
    (root : NodeId) :
    stamper.file resolve arena root = stamper.perform resolve (stampFile arena root) := by
  obtain ⟨⟨options, cache, records, current⟩, idle⟩ := stamper
  cases idle
  simp only [file, State.walk, perform, stampFile, Consult.run_bind, Consult.run]
  cases (stampTree (arena.fileName? root) [.fileStarted (arena.fileName? root)] arena root).run
    resolve cache #[] with
  | mk outcome rest =>
    cases outcome with
    | none => rfl
    | some stamped =>
      have events (last : Event) :
          (rest.2 ++ stamped.said).push last = rest.2 ++ (stamped.said ++ [last]) := by
        apply Array.ext'
        simp
      simp only [Option.map_some, events]

/-- The state in which the recursion starts for a stamper. -/
def before (stamper : Stamper σ) (arena : Arena) (log : Array Event) : Progress σ :=
  { arena, cache := stamper.cache, records := [], log }

/-- What a stamper has done when the recursion ends with the root `result` in the state `final`. -/
def walked (stamper : Stamper σ) (result : NodeId) (final : Progress σ) (last : List Event) :
    Walked σ :=
  { stamper := { stamper with
      cache := final.cache
      records := stamper.records ++ final.records }
    arena := final.arena
    root := result
    records := final.records
    log := final.log ++ last }

theorem node_of_stamps (stamper : Stamper σ) {arena : Arena} (sound : arena.WellFormed)
    {root result : NodeId} {final : Progress σ}
    (stamped : Stamps resolve none root (stamper.before arena #[]) result final) :
    stamper.node resolve arena root = some (stamper.walked result final []) := by
  obtain ⟨rest, last, logged, run⟩ := stamped.run_stampTree sound #[] []
  rw [node_eq_perform, perform, stampNode, run, walked, logged]
  simp

theorem file_of_stamps (stamper : Stamper σ) {arena : Arena} (sound : arena.WellFormed)
    {root result : NodeId} {final : Progress σ}
    (stamped : Stamps resolve (arena.fileName? root) root
      (stamper.before arena #[.fileStarted (arena.fileName? root)]) result final) :
    stamper.file resolve arena root =
      some (stamper.walked result final
        [.fileFinished (arena.fileName? root) (some (result != root))]) := by
  let said : List Event := [.fileStarted (arena.fileName? root)]
  obtain ⟨rest, last, logged, run⟩ := stamped.run_stampTree sound #[] said
  rw [file_eq_perform, perform, stampFile, Consult.run_bind, run, walked, logged]
  simp only [Consult.run, Option.map_some]
  congr 2
  apply Array.ext'
  simp

/-- The same stamper with an empty list of answers beside its cache. -/
def recording (stamper : Stamper σ) : Stamper (σ × List Answer) :=
  { stamper with cache := (stamper.cache, []) }

end Stamper

/-- The two ways to use a stamper. -/
inductive Mode where
  | node
  | file
  deriving DecidableEq

namespace Mode

def consult : Mode → Arena → NodeId → Consult (Option Stamped)
  | .node => stampNode
  | .file => stampFile

/-- The name that the records of the walk get. -/
def fileName? : Mode → Arena → NodeId → Option String
  | .node, _, _ => none
  | .file, arena, root => arena.fileName? root

def opening : Mode → Arena → NodeId → Array Event
  | .node, _, _ => #[]
  | .file, arena, root => #[.fileStarted (arena.fileName? root)]

def closing : Mode → Arena → (root result : NodeId) → List Event
  | .node, _, _, _ => []
  | .file, arena, root, result => [.fileFinished (arena.fileName? root) (some (result != root))]

end Mode

/-- Stamps below a root in either way. -/
def Stamper.stamp {σ : Type} (stamper : Stamper σ) (resolve : Resolver σ) (mode : Mode)
    (arena : Arena) (root : NodeId) : Option (Stamper.Walked σ) :=
  match mode with
  | .node => stamper.node resolve arena root
  | .file => stamper.file resolve arena root

theorem Stamper.stamp_eq_perform {σ : Type} (stamper : Stamper σ) (resolve : Resolver σ)
    (mode : Mode) (arena : Arena) (root : NodeId) :
    stamper.stamp resolve mode arena root = stamper.perform resolve (mode.consult arena root) := by
  cases mode with
  | node => exact stamper.node_eq_perform resolve arena root
  | file => exact stamper.file_eq_perform resolve arena root

/-- Below every root of a well-formed arena the recursion comes to an end. -/
theorem exists_stamps_root {σ : Type} (resolve : Resolver σ) (file : Option String)
    {arena : Arena} (sound : arena.WellFormed) (root : NodeId) (before : Progress σ)
    (same : before.arena = arena) :
    ∃ result final, Stamps resolve file root before result final := by
  subst same
  by_cases has : before.arena.Has root
  · exact exists_stamps sound has before (Arena.Extends.refl _)
  · exact ⟨root, before, .missing (Arena.kind?_eq_none_iff.mpr has)⟩

/-- A stamper that has nothing in its cache and draws the numbers from 1 on. -/
def Stamper.numbered : Stamper (OwnCache × Supply) :=
  (Stamper.create default
    (OwnCache.empty, ⟨fun drawn => "uuid:" ++ toString (drawn + 1), 0⟩)).1

/-- Whatever the mode, a stamper does to a well-formed arena what the recursion does. -/
theorem Stamper.exists_stamp {σ : Type} (stamper : Stamper σ) (resolve : Resolver σ) (mode : Mode)
    {arena : Arena} (sound : arena.WellFormed) (root : NodeId) :
    ∃ result final,
      Stamps resolve (mode.fileName? arena root) root
        (stamper.before arena (mode.opening arena root)) result final ∧
      stamper.stamp resolve mode arena root =
        some (stamper.walked result final (mode.closing arena root result)) := by
  obtain ⟨result, final, stamped⟩ := exists_stamps_root resolve (mode.fileName? arena root) sound
    root (stamper.before arena (mode.opening arena root)) rfl
  refine ⟨result, final, stamped, ?_⟩
  cases mode with
  | node => exact stamper.node_of_stamps sound stamped
  | file => exact stamper.file_of_stamps sound stamped

namespace Stamper

variable {σ : Type}

/-- The walk with a stack refines the recursion. Below every root of a well-formed arena the
recursion has exactly one outcome; and whatever the cache is, the stamper comes to an end with the
same new root, arena, records and events, with the cache in the same state, and with the cache asked
for the same keys in the same order. -/
theorem node_refines_recursion (resolve : Resolver σ) (stamper : Stamper σ) {arena : Arena}
    (sound : arena.WellFormed) (root : NodeId) :
    ∃ result final,
      Stamps resolve.recorded none root (stamper.recording.before arena #[]) result final ∧
      (∀ other last,
        Stamps resolve.recorded none root (stamper.recording.before arena #[]) other last →
          other = result ∧ last = final) ∧
      (stampNode arena root).answers resolve stamper.cache = final.cache.2 ∧
      stamper.node resolve arena root =
        some
          { stamper :=
              { options := stamper.options
                cache := final.cache.1
                records := stamper.records ++ final.records }
            arena := final.arena
            root := result
            records := final.records
            log := final.log } := by
  -- The requests are part of the state of the recording cache, so equal states have equal requests.
  obtain ⟨result, final, stamped⟩ := exists_stamps_root resolve.recorded none sound root
    (stamper.recording.before arena #[]) rfl
  obtain ⟨rest, last, logged, recorded⟩ :=
    stamped.run_stampTree sound #[] []
  have plain := Consult.run_recorded resolve (stampNode arena root) stamper.cache [] #[]
  have projected := plain.symm.trans recorded
  obtain ⟨outcome, others⟩ := Prod.mk.inj projected
  obtain ⟨state, events⟩ := Prod.mk.inj others
  obtain ⟨cache, answers⟩ := Prod.ext_iff.mp state
  refine ⟨result, final, stamped, fun other last again => ?_, answers, ?_⟩
  · obtain ⟨sameRoot, sameState⟩ := again.unique stamped
    exact ⟨sameRoot, sameState⟩
  · have run : (stampNode arena root).run resolve stamper.cache #[] = (_, _, _) :=
      Prod.ext outcome (Prod.ext cache events)
    rw [node_eq_perform, perform, run, logged]
    obtain ⟨⟨_, _, _, current⟩, idle⟩ := stamper
    cases idle
    rfl

/-- The cache of the host that numbers its calls is asked for a member in the namespace, and then
for one after it. -/
theorem node_refines_recursion_scopes :
    Arena.scopes.WellFormed ∧
      ∃ result final,
        Stamps CallLog.resolve.recorded none (.ofPosition 16)
          ⟨Arena.scopes, (CallLog.empty, []), [], #[]⟩ result final ∧
        final.cache.2 = [("A_X", "A_X#1"), ("B_X", "B_X#2")] ∧
        (create default CallLog.empty).1.node CallLog.resolve Arena.scopes (.ofPosition 16) =
          some
            { stamper := { options := default, cache := final.cache.1, records := final.records }
              arena := final.arena
              root := result
              records := final.records
              log := final.log } := by
  have sound : Arena.scopes.WellFormed := by decide
  refine ⟨sound, ?_⟩
  obtain ⟨result, final, stamped, _, answers, stamps⟩ := node_refines_recursion CallLog.resolve
    (create default CallLog.empty).1 sound (.ofPosition 16)
  refine ⟨result, final, stamped, ?_, stamps⟩
  rw [← answers]
  decide +kernel

end Stamper

end EnumStamp
