import EnumStamp.Options
import EnumStamp.Stamping.Walk

/-!
Stampers: a cache that lives as long as the walks that use it, with the records of the walks. While
a stamper goes through a file it keeps the name of the file, and between its walks it keeps none.
-/

set_option autoImplicit false

namespace EnumStamp

namespace Stamper

/-- A stamper at any time, also in the middle of a walk. -/
structure State (σ : Type) where
  options : Options
  cache : σ
  /-- The records that have not been taken, in order. -/
  records : List EnumStampRecord
  /-- The name of the file that it goes through. -/
  current : Option String := none

/-- What comes of a walk from `state`; the current file stays. -/
structure State.Outcome {σ : Type} (state : State σ) where
  after : State σ
  stamped : Stamped
  log : Array Event
  same : after.current = state.current

/-- Walks the tree below a node. The records of the walk are of the current file. There is no
outcome for a tree without end. -/
def State.walk {σ : Type} (state : State σ) (resolve : Cache.Resolver σ) (said : List Event)
    (arena : Arena) (root : NodeId) : Option state.Outcome :=
  match (stampTree state.current said arena root).run resolve state.cache #[] with
  | (none, _, _) => none
  | (some stamped, cache, log) =>
    some
      { after := { state with cache, records := state.records ++ stamped.records }
        stamped
        log := log ++ stamped.said
        same := rfl }

end Stamper

/-- A stamper between its walks, whose cache is in the state `cache`. -/
structure Stamper (σ : Type) extends Stamper.State σ where
  idle : current = none := by exact rfl

namespace Stamper

def create {σ : Type} (options : Options) (cache : σ) : Stamper σ × List Event :=
  ({ options, cache, records := [] }, [.stamperReady])

structure Walked (σ : Type) where
  stamper : Stamper σ
  arena : Arena
  root : NodeId
  /-- The records of this walk, which the stamper keeps too. -/
  records : List EnumStampRecord
  log : Array Event

def node {σ : Type} (stamper : Stamper σ) (resolve : Cache.Resolver σ) (arena : Arena)
    (root : NodeId) : Option (Walked σ) :=
  (stamper.walk resolve [] arena root).map fun outcome =>
    { stamper := { outcome.after with idle := outcome.same.trans stamper.idle }
      arena := outcome.stamped.arena
      root := outcome.stamped.root
      records := outcome.stamped.records
      log := outcome.log }

/-- Stamps a source file. Its name is kept for the walk and then taken out again. -/
def file {σ : Type} (stamper : Stamper σ) (resolve : Cache.Resolver σ) (arena : Arena)
    (root : NodeId) : Option (Walked σ) :=
  let opened : State σ := { stamper.toState with current := arena.fileName? root }
  (opened.walk resolve [.fileStarted opened.current] arena root).map fun outcome =>
    let changed := outcome.stamped.root != root
    { stamper := { outcome.after with current := none }
      arena := outcome.stamped.arena
      root := outcome.stamped.root
      records := outcome.stamped.records
      log := outcome.log.push (.fileFinished outcome.after.current (some changed)) }

def takeRecords {σ : Type} (stamper : Stamper σ) : List EnumStampRecord × Stamper σ :=
  (stamper.records, { stamper with records := [] })

end Stamper

end EnumStamp
