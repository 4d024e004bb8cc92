import EnumStamp.Stamping.Stamper

set_option autoImplicit false

namespace EnumStamp

/-- A file of a program in an arena of its own. -/
structure CompilationUnit where
  arena : Arena
  root : NodeId

namespace Program

abbrev Shared := SharedCache × Cache.Supply

/-- What the stamping of units gives, in the order of the units. -/
structure Outcome where
  /-- The units with their new roots. -/
  units : List CompilationUnit
  shared : Shared
  records : List EnumStampRecord
  logs : List (List Event)

/-- Stamps units one after another, each with a stamper of its own. -/
def stampUnits (options : Options) : List CompilationUnit → Shared → Option Outcome
  | [], shared => some { units := [], shared, records := [], logs := [] }
  | unit :: units, shared => do
    let (stamper, ready) := Stamper.create options shared
    let walked ← stamper.file SharedCache.resolve unit.arena unit.root
    let others ← stampUnits options units walked.stamper.cache
    return {
      units := { arena := walked.arena, root := walked.root } :: others.units
      shared := others.shared
      records := walked.records ++ others.records
      logs := (ready ++ walked.log.toList) :: others.logs }

/-- The events that the caller sees. It stamps a unit that comes alone itself; several units are
handed to workers, whose events do not reach it. -/
def Outcome.callerLog (outcome : Outcome) : List Event :=
  .unitsStarted outcome.units.length ::
    match outcome.logs with
    | [log] => log
    | _ => []

theorem length_logs {options : Options} {units : List CompilationUnit} {shared : Shared}
    {outcome : Outcome} (stamped : stampUnits options units shared = some outcome) :
    outcome.logs.length = units.length ∧ outcome.units.length = units.length := by
  induction units generalizing shared outcome with
  | nil =>
    cases stamped
    exact ⟨rfl, rfl⟩
  | cons unit units ih =>
    simp only [stampUnits, Option.bind_eq_bind, Option.bind_eq_some_iff, Option.pure_def,
      Option.some.injEq] at stamped
    obtain ⟨walked, _, others, found, rfl⟩ := stamped
    have lengths := ih found
    exact ⟨congrArg Nat.succ lengths.1, congrArg Nat.succ lengths.2⟩

end Program

end EnumStamp
