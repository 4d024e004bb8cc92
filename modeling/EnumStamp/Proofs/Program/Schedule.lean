import EnumStamp.Proofs.Stamping.Ledger
import EnumStamp.Stamping.Program
import Mathlib.Logic.Hydra

/-!
Schedules: the units of a program stamped by workers that take turns in any order. A worker's turn
is one atomic step on the shared cache: the lookup of a key, or after a miss the draw. Main
statements: what one turn does (`Worker.act_cases`), what holds after every schedule
(`Reaches.valid`), and that the outcome of a schedule is that of each unit alone.
-/

set_option autoImplicit false

namespace EnumStamp

open Cache

namespace Program

structure Worker where
  unit : CompilationUnit
  /-- The answers that it has been given. -/
  given : List Answer
  rest : Consult (Option Stamped)
  /-- Whether it has looked up the key it waits for and found nothing. -/
  missed : Bool

namespace Worker

def start (unit : CompilationUnit) : Worker :=
  { unit, given := [], rest := stampFile unit.arena unit.root, missed := false }

/-- The worker that goes on with the value of the key it waits for. -/
def resume (worker : Worker) (key value : String) (next : String → Consult (Option Stamped)) :
    Worker :=
  { worker with
    given := worker.given ++ [(key, value)]
    rest := next value
    missed := false }

/-- One atomic step on the shared cache: a lookup, or after a miss the draw, which is void if the
key has got a value in the meantime. A worker that is done takes no step. -/
def act (worker : Worker) (shared : Shared) : Option (Worker × Shared) :=
  match worker.rest with
  | .done _ => none
  | .ask _ key next =>
    if worker.missed then
      let answer := SharedCache.getOrDraw key shared
      some (worker.resume key answer.1.value next, answer.2)
    else
      match shared.1.get? key with
      | some value => some (worker.resume key value next, shared)
      | none => some ({ worker with missed := true }, shared)

def outcome? (worker : Worker) : Option Stamped :=
  match worker.rest with
  | .done stamped => stamped
  | .ask _ _ _ => none

/-- A turn is a miss, or it gives the worker an answer that the cache holds from then on. -/
theorem act_cases {worker next : Worker} {shared after : Shared}
    (acts : worker.act shared = some (next, after)) :
    (next = { worker with missed := true } ∧ worker.missed = false ∧ after = shared) ∨
    ∃ said key value resumed, worker.rest = .ask said key resumed ∧
      next = worker.resume key value resumed ∧
      ∀ other held, SharedCache.held after other = some held ↔
        SharedCache.held shared other = some held ∨ (other = key ∧ held = value) := by
  unfold act at acts
  split at acts
  · cases acts
  · rename_i said key resumed waits
    split at acts
    · cases acts
      exact .inr ⟨said, key, _, resumed, waits, rfl,
        SharedCache.memoising_getOrDraw.held_resolve key shared⟩
    · rename_i early
      split at acts
      · rename_i value found
        cases acts
        refine .inr ⟨said, key, value, resumed, waits, rfl, fun other held => ?_⟩
        constructor
        · exact .inl
        · rintro (before | ⟨rfl, rfl⟩)
          · exact before
          · exact found
      · cases acts
        exact .inl ⟨rfl, by simpa using early, rfl⟩

end Worker

/-- The workers in the order of their units, and the cache they share. -/
structure Schedule where
  workers : List Worker
  shared : Shared

namespace Schedule

def start (units : List CompilationUnit) (shared : Shared) : Schedule :=
  { workers := units.map Worker.start, shared }

inductive Step : Schedule → Schedule → Prop where
  | turn (early late : List Worker) {worker next : Worker} {shared after : Shared}
      (acts : worker.act shared = some (next, after)) :
      Step ⟨early ++ worker :: late, shared⟩ ⟨early ++ next :: late, after⟩

/-- Workers take turns in any order. -/
inductive Reaches (first : Schedule) : Schedule → Prop where
  | refl : Reaches first first
  | tail {between last : Schedule} (early : Reaches first between) (step : Step between last) :
      Reaches first last

theorem Reaches.head {first second last : Schedule} (reached : Reaches second last)
    (step : Step first second) : Reaches first last := by
  induction reached with
  | refl => exact .tail .refl step
  | tail _ later ih => exact .tail ih later

theorem Reaches.trans {first second last : Schedule} (early : Reaches first second)
    (late : Reaches second last) : Reaches first last := by
  induction late with
  | refl => exact early
  | tail _ step ih => exact ih.tail step

def Finished (schedule : Schedule) : Prop :=
  ∀ worker ∈ schedule.workers, ∃ outcome, worker.rest = .done outcome

/-- The units with their new roots and all records, both in the order of the workers. -/
def collect : List Worker → Option (List CompilationUnit × List EnumStampRecord)
  | [] => some ([], [])
  | worker :: workers => do
    let stamped ← worker.outcome?
    let (units, records) ← collect workers
    return ({ arena := stamped.arena, root := stamped.root } :: units, stamped.records ++ records)

/-- What holds of a schedule at any time, for the cache that it began with. -/
structure Valid (units : List CompilationUnit) (initial : Shared) (schedule : Schedule) : Prop where
  /-- Each unit has its worker. -/
  staffed : schedule.workers.map Worker.unit = units
  /-- A worker is where its answers have led it. -/
  follows : ∀ worker ∈ schedule.workers,
    (stampFile worker.unit.arena worker.unit.root).Follows worker.given worker.rest
  /-- The cache holds what it held, and the answers of all workers. -/
  holds : ∀ key value, SharedCache.held schedule.shared key = some value ↔
    SharedCache.held initial key = some value ∨
      ∃ worker ∈ schedule.workers, (key, value) ∈ worker.given

theorem valid_start (units : List CompilationUnit) (shared : Shared) :
    (start units shared).Valid units shared where
  staffed := by
    rw [start, List.map_map]
    exact List.map_id units
  follows := by
    intro worker member
    obtain ⟨unit, _, rfl⟩ := List.mem_map.mp member
    exact .refl _
  holds := by
    intro key value
    constructor
    · exact .inl
    · rintro (held | ⟨worker, member, given⟩)
      · exact held
      · obtain ⟨unit, _, rfl⟩ := List.mem_map.mp member
        cases given

theorem mem_turn {early late : List Worker} (worker : Worker) {next other : Worker}
    (member : other ∈ early ++ next :: late) :
    other = next ∨ other ∈ early ++ worker :: late := by
  simp only [List.mem_append, List.mem_cons] at member ⊢
  rcases member with first | rfl | last
  · exact .inr (.inl first)
  · exact .inl rfl
  · exact .inr (.inr (.inr last))

/-- A turn of one worker changes the answers of nobody else. -/
theorem exists_given_turn {early late : List Worker} {next : Worker} (answer : Answer) :
    (∃ other ∈ early ++ next :: late, answer ∈ other.given) ↔
      answer ∈ next.given ∨ ∃ other ∈ early ++ late, answer ∈ other.given := by
  simp only [List.mem_append, List.mem_cons]
  constructor
  · rintro ⟨other, first | rfl | last, given⟩
    · exact .inr ⟨other, .inl first, given⟩
    · exact .inl given
    · exact .inr ⟨other, .inr last, given⟩
  · rintro (given | ⟨other, first | last, given⟩)
    · exact ⟨next, .inr (.inl rfl), given⟩
    · exact ⟨other, .inl first, given⟩
    · exact ⟨other, .inr (.inr last), given⟩

/-- One turn keeps the invariant. -/
theorem Valid.step {units : List CompilationUnit} {initial : Shared} {schedule next : Schedule}
    (valid : schedule.Valid units initial) (step : Step schedule next) :
    next.Valid units initial := by
  obtain ⟨early, late, acts⟩ := step
  rename_i worker next shared after
  have follows := valid.follows worker (List.mem_append_right _ (List.mem_cons_self ..))
  rcases Worker.act_cases acts with ⟨rfl, _, rfl⟩ | ⟨said, key, value, resumed, waits, rfl, held⟩
  · refine ⟨?_, ?_, ?_⟩
    · have staffed := valid.staffed
      simp only [List.map_append, List.map_cons] at staffed ⊢
      exact staffed
    · intro other member
      rcases mem_turn worker member with rfl | old
      · exact follows
      · exact valid.follows other old
    · intro key value
      have before := valid.holds key value
      rw [exists_given_turn] at before ⊢
      exact before
  · rw [waits] at follows
    refine ⟨?_, ?_, ?_⟩
    · have staffed := valid.staffed
      simp only [List.map_append, List.map_cons] at staffed ⊢
      exact staffed
    · intro other member
      rcases mem_turn worker member with rfl | old
      · exact follows.step value
      · exact valid.follows other old
    · intro other answer
      have before := valid.holds other answer
      rw [exists_given_turn] at before
      have given : (other, answer) ∈ (worker.resume key value resumed).given ↔
          (other, answer) ∈ worker.given ∨ (other = key ∧ answer = value) := by
        simp only [Worker.resume, List.mem_append, List.mem_singleton, Prod.mk.injEq]
      rw [held other answer, before, exists_given_turn, given, or_assoc, or_right_comm]

/-- The invariant holds after every schedule. -/
theorem Reaches.valid {units : List CompilationUnit} {initial : Shared} {schedule : Schedule}
    (reached : Reaches (start units initial) schedule) : schedule.Valid units initial := by
  induction reached with
  | refl => exact valid_start units initial
  | tail _ step ih => exact ih.step step

end Schedule

/-- One turn after another, a worker gets done. -/
theorem Worker.act_wellFounded :
    WellFounded fun next worker : Worker =>
      ∃ shared after, worker.act shared = some (next, after) := by
  constructor
  rintro ⟨unit, given, rest, missed⟩
  -- What is left to do gets smaller with every answer, and a miss comes at most once before one.
  induction rest generalizing given missed with
  | done outcome =>
    constructor
    rintro next ⟨shared, after, acts⟩
    cases acts
  | ask said key resumed ih =>
    have afterMiss : Acc (fun next worker : Worker =>
        ∃ shared after, worker.act shared = some (next, after))
        ⟨unit, given, .ask said key resumed, true⟩ := by
      constructor
      rintro next ⟨shared, after, acts⟩
      rcases act_cases acts with ⟨_, early, _⟩ | ⟨_, _, value, _, waits, rfl, _⟩
      · cases early
      · cases waits
        exact ih value _ _
    constructor
    rintro next ⟨shared, after, acts⟩
    rcases act_cases acts with ⟨rfl, _, _⟩ | ⟨_, _, value, _, waits, rfl, _⟩
    · exact afterMiss
    · cases waits
      exact ih value _ _

theorem Worker.exists_act (worker : Worker) (shared : Shared)
    (waits : ∀ outcome, worker.rest ≠ .done outcome) :
    ∃ next after, worker.act shared = some (next, after) := by
  unfold act
  split
  · rename_i outcome done
    exact absurd done (waits outcome)
  · split
    · exact ⟨_, _, rfl⟩
    · split
      · exact ⟨_, _, rfl⟩
      · exact ⟨_, _, rfl⟩

namespace Schedule

/-- No schedule goes on forever. -/
theorem step_wellFounded : WellFounded fun next schedule : Schedule => Step schedule next := by
  let crew (schedule : Schedule) : Multiset Worker := schedule.workers
  -- A turn puts one worker with less to do in the place of another.
  refine Subrelation.wf ?_ (InvImage.wf crew Worker.act_wellFounded.cutExpand)
  rintro _ _ ⟨early, late, acts⟩
  rename_i worker next shared after
  refine ⟨{next}, worker, ?_, ?_⟩
  · intro other member
    rw [Multiset.mem_singleton.mp member]
    exact ⟨shared, after, acts⟩
  · change (↑(early ++ next :: late) : Multiset Worker) + {worker} =
      ↑(early ++ worker :: late) + {next}
    rw [← Multiset.coe_add, ← Multiset.coe_add, ← Multiset.cons_coe, ← Multiset.cons_coe,
      ← Multiset.singleton_add, ← Multiset.singleton_add]
    ac_rfl

/-- Whatever turns have been taken, the workers can all get done. -/
theorem exists_finished (schedule : Schedule) :
    ∃ final, Reaches schedule final ∧ final.Finished := by
  induction schedule using step_wellFounded.induction with
  | _ schedule ih =>
    by_cases finished : schedule.Finished
    · exact ⟨schedule, .refl, finished⟩
    · obtain ⟨worker, waiting⟩ := not_forall.mp finished
      obtain ⟨member, notDone⟩ := Classical.not_imp.mp waiting
      obtain ⟨early, late, split⟩ := List.append_of_mem member
      obtain ⟨next, after, acts⟩ :=
        worker.exists_act schedule.shared (not_exists.mp notDone)
      have step : Step schedule ⟨early ++ next :: late, after⟩ := by
        obtain ⟨workers, shared⟩ := schedule
        cases split
        exact .turn early late acts
      obtain ⟨final, reached, done⟩ := ih _ step
      exact ⟨final, reached.head step, done⟩

end Schedule

/-- A unit that is stamped alone, with a value for every key. -/
def stampAlone (options : Options) (values : String → String) (unit : CompilationUnit) :
    Option (Stamper.Walked Unit) :=
  (Stamper.create options ()).1.file (Resolver.table values) unit.arena unit.root

/-- A worker that is done has done what its unit alone gives, for all values that agree with the
answers it was given, and its records list these answers. -/
theorem Worker.alone {worker : Worker} {outcome : Option Stamped} (options : Options)
    (sound : worker.unit.arena.WellFormed)
    (follows : (stampFile worker.unit.arena worker.unit.root).Follows worker.given
      (.done outcome)) (values : String → String)
    (agree : ∀ answer ∈ worker.given, values answer.1 = answer.2) :
    ∃ stamped walked, outcome = some stamped ∧
      stampAlone options values worker.unit = some walked ∧
      walked.arena = stamped.arena ∧ walked.root = stamped.root ∧
      walked.records = stamped.records ∧
      walked.records.flatMap EnumStampRecord.answers = worker.given := by
  obtain ⟨result, final, _, stamps⟩ :=
    (Stamper.create options ()).1.exists_stamp (Resolver.table values) .file sound worker.unit.root
  obtain ⟨run, answers⟩ := follows.table values agree #[]
  have listed := (Stamper.stamp_booked _ stamps).listed
  have performs := stamps
  rw [Stamper.stamp_eq_perform] at performs
  obtain ⟨stamped, log, walk, records, arena, root, _⟩ := Stamper.perform_eq_some _ performs
  refine ⟨stamped, _, ?_, stamps, arena, root, records, listed.trans answers⟩
  rw [← run]
  exact congrArg Prod.fst walk

def unitsOf {σ : Type} (walks : List (Stamper.Walked σ)) : List CompilationUnit :=
  walks.map fun walked => { arena := walked.arena, root := walked.root }

def recordsOf {σ : Type} (walks : List (Stamper.Walked σ)) : List EnumStampRecord :=
  walks.flatMap Stamper.Walked.records

theorem collect_alone (options : Options) (values : String → String) {workers : List Worker}
    (each : ∀ worker ∈ workers, ∃ stamped walked, worker.outcome? = some stamped ∧
      stampAlone options values worker.unit = some walked ∧
      walked.arena = stamped.arena ∧ walked.root = stamped.root ∧
      walked.records = stamped.records ∧
      walked.records.flatMap EnumStampRecord.answers = worker.given) :
    ∃ walks,
      (workers.map Worker.unit).map (stampAlone options values) = walks.map some ∧
      Schedule.collect workers = some (unitsOf walks, recordsOf walks) ∧
      (recordsOf walks).flatMap EnumStampRecord.answers = workers.flatMap Worker.given := by
  induction workers with
  | nil => exact ⟨[], rfl, rfl, rfl⟩
  | cons worker workers ih =>
    obtain ⟨walks, units, collected, listed⟩ :=
      ih fun other member => each other (List.mem_cons_of_mem _ member)
    obtain ⟨stamped, walked, outcome, walk, arena, root, records, answers⟩ :=
      each worker (List.mem_cons_self ..)
    refine ⟨walked :: walks, ?_, ?_, ?_⟩
    · rw [List.map_cons, List.map_cons, List.map_cons, walk, units]
    · rw [Schedule.collect, outcome, collected]
      simp only [unitsOf, recordsOf, List.map_cons, List.flatMap_cons, arena, root, records]
      rfl
    · rw [recordsOf, List.flatMap_cons, List.flatMap_append, answers, List.flatMap_cons]
      exact congrArg _ listed

/-- The schedule does not matter. When the workers are done, with whatever turns, the caller gets
the units and the records that each unit alone gives with the values that the shared cache holds by
then. What the cache holds is what it held before and the stamps on record, so no key that had a
value has lost it, and the keys are the ones from before and the ones on record. -/
theorem schedule_independent (options : Options) {units : List CompilationUnit}
    (sound : ∀ unit ∈ units, unit.arena.WellFormed) (initial : Shared) {final : Schedule}
    (reached : Schedule.Reaches (.start units initial) final) (finished : final.Finished) :
    ∃ stampedUnits records,
      Schedule.collect final.workers = some (stampedUnits, records) ∧
      (∀ values : String → String,
        (∀ key value, final.shared.1.get? key = some value → values key = value) →
        ∃ walks, units.map (stampAlone options values) = walks.map some ∧
          stampedUnits = unitsOf walks ∧ records = recordsOf walks) ∧
      (∀ key value, final.shared.1.get? key = some value ↔
        initial.1.get? key = some value ∨
          ∃ stamp ∈ stampsOf records, stamp.key = key ∧ stamp.value = value) ∧
      (∀ key, (∃ value, final.shared.1.get? key = some value) ↔
        (∃ value, initial.1.get? key = some value) ∨
          key ∈ (stampsOf records).map MemberStamp.key) := by
  have valid := reached.valid
  have alone : ∀ values : String → String,
      (∀ key value, final.shared.1.get? key = some value → values key = value) →
      ∃ walks, units.map (stampAlone options values) = walks.map some ∧
        Schedule.collect final.workers = some (unitsOf walks, recordsOf walks) ∧
        (recordsOf walks).flatMap EnumStampRecord.answers =
          final.workers.flatMap Worker.given := by
    intro values agree
    rw [← valid.staffed]
    apply collect_alone
    intro worker member
    obtain ⟨outcome, done⟩ := finished worker member
    have follows := valid.follows worker member
    rw [done] at follows
    have inUnits : worker.unit ∈ units := by
      rw [← valid.staffed]
      exact List.mem_map_of_mem member
    obtain ⟨stamped, walked, rfl, rest⟩ := Worker.alone options (sound _ inUnits) follows values (by
      intro answer given
      exact agree _ _ ((valid.holds answer.1 answer.2).mpr (.inr ⟨worker, member, given⟩)))
    refine ⟨stamped, walked, ?_, rest⟩
    rw [Worker.outcome?, done]
  -- The workers' outcomes do not depend on the table, so any one table tells what is collected.
  obtain ⟨first, _, collected, listed⟩ :=
    alone (fun key => (final.shared.1.get? key).getD "") fun key value found => by
      rw [found, Option.getD_some]
  have entries : ∀ key value, final.shared.1.get? key = some value ↔
      initial.1.get? key = some value ∨
        ∃ stamp ∈ stampsOf (recordsOf first), stamp.key = key ∧ stamp.value = value := by
    intro key value
    have given : (∃ worker ∈ final.workers, (key, value) ∈ worker.given) ↔
        ∃ stamp ∈ stampsOf (recordsOf first), stamp.key = key ∧ stamp.value = value := by
      rw [← List.mem_flatMap, ← listed, stampsOf_answers]
      simp only [List.mem_map, Prod.mk.injEq]
    rw [← given]
    exact valid.holds key value
  refine ⟨unitsOf first, recordsOf first, collected, ?_, entries, ?_⟩
  · intro values agree
    obtain ⟨walks, each, again, _⟩ := alone values agree
    rw [collected] at again
    obtain ⟨sameUnits, sameRecords⟩ := Prod.mk.inj (Option.some.inj again)
    exact ⟨walks, each, sameUnits, sameRecords⟩
  · intro key
    simp only [entries, exists_or, List.mem_map]
    apply or_congr Iff.rfl
    constructor
    · rintro ⟨value, stamp, member, rfl, rfl⟩
      exact ⟨stamp, member, rfl⟩
    · rintro ⟨stamp, member, rfl⟩
      exact ⟨stamp.value, stamp, member, rfl, rfl⟩

/-- Two workers on the same declaration, which ask for the same key. -/
theorem schedule_independent_colors :
    let units : List CompilationUnit :=
      [⟨Arena.colors, .ofPosition 6⟩, ⟨Arena.colors, .ofPosition 6⟩]
    let initial : Shared := (SharedCache.empty, ⟨fun drawn => "uuid:" ++ toString (drawn + 1), 0⟩)
    (∀ unit ∈ units, unit.arena.WellFormed) ∧
      ∃ final stampedUnits records,
        Schedule.Reaches (.start units initial) final ∧ final.Finished ∧
        Schedule.collect final.workers = some (stampedUnits, records) ∧
        ∃ walks,
          units.map (stampAlone default fun key => (final.shared.1.get? key).getD "") =
            walks.map some ∧
          stampedUnits = unitsOf walks ∧ records = recordsOf walks := by
  intro units initial
  have sound : ∀ unit ∈ units, unit.arena.WellFormed := by
    intro unit member
    simp only [units, List.mem_cons, List.not_mem_nil, or_false, or_self] at member
    subst member
    decide
  obtain ⟨final, reached, finished⟩ := (Schedule.start units initial).exists_finished
  obtain ⟨stampedUnits, records, collected, alone, _⟩ :=
    schedule_independent default sound initial reached finished
  refine ⟨sound, final, stampedUnits, records, reached, finished, collected, alone _ ?_⟩
  intro key value found
  rw [found, Option.getD_some]

/-- A worker that is not interrupted does what its computation does with whole requests. -/
theorem reaches_run (consult : Consult (Option Stamped)) (unit : CompilationUnit)
    (given : List Answer) (early late : List Worker) (shared : Shared) (log : Array Event) :
    ∃ later,
      Schedule.Reaches ⟨early ++ ⟨unit, given, consult, false⟩ :: late, shared⟩
        ⟨early ++ ⟨unit, later, .done (consult.run SharedCache.resolve shared log).1, false⟩ ::
            late,
          (consult.run SharedCache.resolve shared log).2.1⟩ := by
  induction consult generalizing given shared log with
  | done outcome => exact ⟨given, .refl⟩
  | ask said key resumed ih =>
    simp only [Consult.run]
    cases found : shared.1.get? key with
    | some value =>
      have asked : SharedCache.resolve key shared = (⟨value, [.valueFound key value]⟩, shared) := by
        simp only [SharedCache.resolve, found]
      rw [asked]
      obtain ⟨later, rest⟩ := ih value (given ++ [(key, value)]) shared _
      refine ⟨later, rest.head (.turn early late ?_)⟩
      simp only [Worker.act, Bool.false_eq_true, if_false, found, Worker.resume]
    | none =>
      have asked : SharedCache.resolve key shared = SharedCache.getOrDraw key shared := by
        simp only [SharedCache.resolve, found]
      rw [asked]
      let value := (SharedCache.getOrDraw key shared).1.value
      obtain ⟨later, rest⟩ := ih value (given ++ [(key, value)]) _ _
      let waiting : Worker := ⟨unit, given, .ask said key resumed, true⟩
      have misses : Worker.act ⟨unit, given, .ask said key resumed, false⟩ shared =
          some (waiting, shared) := by
        simp only [Worker.act, Bool.false_eq_true, if_false, found, waiting]
      have draws : waiting.act shared =
          some (⟨unit, given ++ [(key, value)], resumed value, false⟩,
            (SharedCache.getOrDraw key shared).2) := by
        simp only [Worker.act, if_true, Worker.resume, value, waiting]
      exact ⟨later, (rest.head (.turn early late draws)).head (.turn early late misses)⟩

/-- Stamping the units one after another is one of the schedules. -/
theorem stampUnits_reaches (options : Options) (units : List CompilationUnit) (shared : Shared)
    {outcome : Outcome} (stamped : stampUnits options units shared = some outcome)
    (early : List Worker) :
    ∃ workers,
      Schedule.Reaches ⟨early ++ units.map Worker.start, shared⟩
        ⟨early ++ workers, outcome.shared⟩ ∧
      (∀ worker ∈ workers, ∃ outcome, worker.rest = .done outcome) ∧
      Schedule.collect workers = some (outcome.units, outcome.records) := by
  induction units generalizing shared outcome early with
  | nil =>
    cases stamped
    exact ⟨[], .refl, (fun _ member => by cases member), rfl⟩
  | cons unit units ih =>
    simp only [stampUnits, Option.bind_eq_bind, Option.bind_eq_some_iff, Option.pure_def,
      Option.some.injEq] at stamped
    obtain ⟨walked, walk, others, rest, rfl⟩ := stamped
    rw [Stamper.file_eq_perform] at walk
    obtain ⟨plain, log, run, records, arena, root, _⟩ := Stamper.perform_eq_some _ walk
    obtain ⟨given, first⟩ := reaches_run (stampFile unit.arena unit.root) unit [] early
      (units.map Worker.start) shared #[]
    have ran : (stampFile unit.arena unit.root).run SharedCache.resolve shared #[] =
        (some plain, walked.stamper.cache, log) := run
    rw [ran] at first
    let worker : Worker := ⟨unit, given, .done (some plain), false⟩
    obtain ⟨workers, later, done, collected⟩ := ih _ rest (early ++ [worker])
    rw [List.append_assoc, List.append_assoc] at later
    refine ⟨worker :: workers, first.trans later, ?_, ?_⟩
    · intro other member
      rcases List.mem_cons.mp member with rfl | among
      · exact ⟨_, rfl⟩
      · exact done other among
    · rw [Schedule.collect, collected, records, arena, root]
      rfl

end Program

end EnumStamp
