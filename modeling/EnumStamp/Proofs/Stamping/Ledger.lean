import EnumStamp.Proofs.Cache.Answers
import EnumStamp.Proofs.Stamping.Refinement

set_option autoImplicit false

namespace EnumStamp

open Cache

def EnumStampRecord.answers (record : EnumStampRecord) : List Answer :=
  record.members.map fun stamp => (stamp.key, stamp.value)

def stampsOf (records : List EnumStampRecord) : List MemberStamp :=
  records.flatMap EnumStampRecord.members

theorem stampsOf_answers (records : List EnumStampRecord) :
    records.flatMap EnumStampRecord.answers =
      (stampsOf records).map fun stamp => (stamp.key, stamp.value) := by
  rw [stampsOf, List.map_flatMap]
  rfl

/-- Whether the stamps of a record have the keys of their names. -/
def EnumStampRecord.Keyed (record : EnumStampRecord) : Prop :=
  ∀ stamp ∈ record.members, stamp.key = Cache.key record.enumName stamp.member

structure Booked (records : List EnumStampRecord) (answers : List Answer) : Prop where
  listed : records.flatMap EnumStampRecord.answers = answers
  keyed : ∀ record ∈ records, record.Keyed

theorem booked_nil : Booked [] [] :=
  ⟨rfl, fun _ member => by cases member⟩

theorem Booked.append {records others : List EnumStampRecord} {answers more : List Answer}
    (first : Booked records answers) (second : Booked others more) :
    Booked (records ++ others) (answers ++ more) where
  listed := by rw [List.flatMap_append, first.listed, second.listed]
  keyed := by
    intro record member
    rcases List.mem_append.mp member with early | late
    · exact first.keyed record early
    · exact second.keyed record late

variable {σ : Type} (resolve : Resolver σ)

namespace Progress

theorem visitMembers_answers (enumName : String) (ids : List NodeId)
    (progress : Progress (σ × List Answer)) :
    let visited := progress.visitMembers resolve.recorded enumName ids
    let stamps := visited.1.filterMap Visited.stamp?
    visited.2.cache.2 = progress.cache.2 ++ stamps.map (fun stamp => (stamp.key, stamp.value)) ∧
      visited.2.records = progress.records ∧
      ∀ stamp ∈ stamps, stamp.key = Cache.key enumName stamp.member := by
  induction ids generalizing progress with
  | nil =>
    refine ⟨?_, rfl, ?_⟩
    · simp [visitMembers]
    · intro stamp member
      cases member
  | cons id ids ih =>
    cases atName : progress.arena.memberName? id with
    | none =>
      have kept := progress.visitMember_of_none resolve.recorded enumName atName
      have later := ih (progress.say (.memberKept enumName id))
      simp only [visitMembers_cons, kept]
      exact later
    | some name =>
      obtain ⟨member, atMember, _⟩ := Arena.memberName?_eq_some_iff.mp atName
      have stamped := progress.visitMember_of_name resolve.recorded enumName atMember
        atName
      let key := Cache.key enumName name
      let value := (resolve key progress.cache.1).1.value
      let first := progress.visitMember resolve.recorded enumName id
      have stamp : first.1.stamp? = some ⟨name, key, value⟩ :=
        congrArg (fun all => all.1.stamp?) stamped
      have asked : first.2.cache.2 = progress.cache.2 ++ [(key, value)] :=
        congrArg (fun all => all.2.cache.2) stamped
      have same : first.2.records = progress.records := congrArg (fun all => all.2.records) stamped
      obtain ⟨listed, recorded, keyed⟩ := ih first.2
      have stamps : (progress.visitMembers resolve.recorded enumName (id :: ids)).1.filterMap
          Visited.stamp? = ⟨name, key, value⟩ ::
            (first.2.visitMembers resolve.recorded enumName ids).1.filterMap Visited.stamp? :=
        List.filterMap_cons_some stamp
      dsimp only
      rw [stamps, List.map_cons]
      refine ⟨?_, recorded.trans same, ?_⟩
      · refine listed.trans ?_
        rw [asked, List.append_assoc, List.singleton_append]
      · intro other member
        rcases List.mem_cons.mp member with rfl | later
        · rfl
        · exact keyed other later

/-- An enum that is stamped adds a record that lists its answers. -/
theorem visitEnum_booked (file : Option String) (id : NodeId)
    (progress : Progress (σ × List Answer)) (booked : Booked progress.records progress.cache.2) :
    let visited := progress.visitEnum resolve.recorded file id
    Booked visited.2.records visited.2.cache.2 := by
  intro visited
  cases found : progress.arena.constEnum? id with
  | none =>
    obtain ⟨log, same⟩ := progress.visitEnum_of_other resolve.recorded file found
    rw [show visited = _ from same]
    exact booked
  | some isConst =>
    obtain ⟨decl, enumName⟩ := isConst
    let exported := (progress.arena.modifiers decl.modifiers).contains .exported
    let said := (progress.say (.enumEntered enumName)).say (.constEnumStarted enumName exported)
    obtain ⟨listed, recorded, keyed⟩ := visitMembers_answers resolve enumName decl.members said
    have stamped := progress.visitEnum_of_const resolve.recorded file found
    rw [show visited = _ from stamped]
    simp only [stampDecl]
    rw [recorded, listed]
    refine booked.append ⟨?_, ?_⟩
    · exact List.append_nil _
    · intro record member
      cases List.mem_singleton.mp member
      exact keyed

end Progress

def Machine.IsBooked (machine : Machine (σ × List Answer)) : Prop :=
  Booked machine.progress.records machine.progress.cache.2

theorem Machine.Handled.booked {machine : Machine (σ × List Answer)} {frames : List Frame}
    {results below : List NodeId} {after : Progress (σ × List Answer)}
    (handled : machine.Handled frames results below after)
    (booked : Booked after.records after.cache.2) : machine.IsBooked := by
  rw [Machine.IsBooked, handled.progress]
  exact booked

theorem booked_entered (file : Option String) (id : NodeId) (machine : Machine (σ × List Answer))
    (booked : machine.IsBooked) : (machine.entered resolve.recorded file id).IsBooked := by
  cases found : machine.1.arena.kind? id with
  | none => exact (entered_of_missing resolve.recorded file machine found).booked booked
  | some kind =>
    by_cases isDoc : kind.isDoc = true
    · exact (entered_of_doc resolve.recorded file machine found isDoc).booked booked
    · rw [Bool.not_eq_true] at isDoc
      by_cases isEnum : kind = Construct.enumDeclaration.kind
      · refine (entered_of_enumeration resolve.recorded file machine found isDoc isEnum).booked ?_
        exact Progress.visitEnum_booked resolve file id (machine.progress.say _) booked
      · by_cases leaf : machine.1.arena.children id = []
        · exact (entered_of_leaf resolve.recorded file machine found isDoc isEnum leaf).booked
            booked
        · exact (entered_of_parent resolve.recorded file machine found isDoc isEnum leaf).booked
            booked

/-- One frame keeps the records in line with the answers. -/
theorem booked_step (file : Option String) (frame : Frame) (machine : Machine (σ × List Answer))
    (booked : machine.IsBooked) :
    Machine.IsBooked
      ((Walk.step file machine.1 frame).run resolve.recorded machine.2.1 machine.2.2) := by
  cases frame with
  | enter id => exact booked_entered resolve file id machine booked
  | leave id children => exact booked

theorem booked_of_ended {machine : Machine (σ × List Answer)} {walk : Walk}
    {rest : (σ × List Answer) × Array Event} (booked : machine.IsBooked)
    (ended : (some machine.1, machine.2) = (some walk, rest)) : Machine.IsBooked (walk, rest) := by
  obtain ⟨first, last⟩ := machine
  cases ended
  exact booked

/-- So does a walk of any number of frames. -/
theorem booked_iterate (file : Option String) (steps : Nat) (machine : Machine (σ × List Answer))
    (booked : machine.IsBooked) {walk : Walk} {state : σ × List Answer} {log : Array Event}
    (ended : machine.iterate resolve.recorded file steps = (some walk, state, log)) :
    Machine.IsBooked (walk, state, log) := by
  induction steps generalizing machine with
  | zero =>
    cases frames : machine.1.frames with
    | nil =>
      rw [iterate_of_no_frames machine 0 frames] at ended
      exact booked_of_ended booked ended
    | cons frame rest =>
      rw [iterate_zero machine frames] at ended
      cases ended
  | succ steps ih =>
    cases frames : machine.1.frames with
    | nil =>
      rw [iterate_of_no_frames machine _ frames] at ended
      exact booked_of_ended booked ended
    | cons frame rest =>
      rw [machine.advances_step frames] at ended
      exact ih _ (booked_step resolve file frame (machine.withFrames rest) booked) ended

/-- The records of a walk list its answers. -/
theorem stampTree_booked (file : Option String) (said : List Event) (arena : Arena) (root : NodeId)
    (state : σ) (log : Array Event) {stamped : Stamped} {rest : σ × Array Event}
    (ended : (stampTree file said arena root).run resolve state log = (some stamped, rest)) :
    Booked stamped.records ((stampTree file said arena root).answers resolve state) := by
  have recording := Consult.run_recorded resolve (stampTree file said arena root) state [] log
  rw [ended, stampTree, Consult.run_bind] at recording
  cases walked : (Walk.iterate file (Walk.frameBound arena root)
      (Walk.start arena root said)).run resolve.recorded (state, []) log with
  | mk walk others =>
    obtain ⟨last, after⟩ := others
    rw [walked] at recording
    cases walk with
    | none => cases (Prod.mk.inj recording).1
    | some walk =>
      have booked := booked_iterate resolve file _ (Walk.start arena root said, (state, []), log)
        booked_nil walked
      obtain ⟨result, same⟩ := Prod.mk.inj recording
      cases result
      have answers : last.2 = (stampTree file said arena root).answers resolve state :=
        congrArg (fun all => all.1.2) same
      rw [← answers]
      exact booked

theorem answers_map {α β : Type} (consult : Consult α) (change : α → β) (state : σ) :
    (consult.bind fun result => .done (change result)).answers resolve state =
      consult.answers resolve state := by
  induction consult generalizing state with
  | done result => rfl
  | ask said key resume ih => simp only [Consult.bind, Consult.answers, ih]

theorem consult_booked (mode : Mode) (arena : Arena) (root : NodeId) (state : σ)
    (log : Array Event) {stamped : Stamped} {rest : σ × Array Event}
    (ended : (mode.consult arena root).run resolve state log = (some stamped, rest)) :
    Booked stamped.records ((mode.consult arena root).answers resolve state) := by
  cases mode with
  | node => exact stampTree_booked resolve none [] arena root state log ended
  | file =>
    simp only [Mode.consult, stampFile, answers_map, Consult.run_bind] at ended ⊢
    cases walked : (stampTree (arena.fileName? root) [.fileStarted (arena.fileName? root)] arena
        root).run resolve state log with
    | mk outcome others =>
      rw [walked] at ended
      obtain ⟨result, same⟩ := Prod.mk.inj ended
      cases outcome with
      | none => cases result
      | some plain =>
        cases result
        have booked := stampTree_booked resolve _ _ arena root state log walked
        exact booked

namespace Stamper

theorem perform_eq_some {stamper : Stamper σ} {consult : Consult (Option Stamped)}
    {walked : Walked σ} (performed : stamper.perform resolve consult = some walked) :
    ∃ stamped log, consult.run resolve stamper.cache #[] =
        (some stamped, walked.stamper.cache, log) ∧
      walked.records = stamped.records ∧ walked.arena = stamped.arena ∧
      walked.root = stamped.root ∧
      walked.stamper.records = stamper.records ++ stamped.records := by
  unfold perform at performed
  split at performed
  · cases performed
  · rename_i stamped cache log run
    cases performed
    exact ⟨stamped, log, run, rfl, rfl, rfl, rfl⟩

/-- The records of a stamper's walk list the answers that the walk was given. -/
theorem stamp_booked {stamper : Stamper σ} {mode : Mode} {arena : Arena} {root : NodeId}
    {walked : Walked σ} (stamps : stamper.stamp resolve mode arena root = some walked) :
    Booked walked.records ((mode.consult arena root).answers resolve stamper.cache) := by
  rw [stamp_eq_perform] at stamps
  obtain ⟨stamped, log, run, records, _⟩ := perform_eq_some resolve stamps
  rw [records]
  exact consult_booked resolve mode arena root stamper.cache #[] run

/-- After a walk a memoising cache holds what it held before and the stamps of the walk. -/
theorem held_stamp {held : σ → String → Option String} (memoising : Memoising resolve held)
    {stamper : Stamper σ} {mode : Mode} {arena : Arena} {root : NodeId} {walked : Walked σ}
    (stamps : stamper.stamp resolve mode arena root = some walked) (key value : String) :
    held walked.stamper.cache key = some value ↔
      held stamper.cache key = some value ∨
        (key, value) ∈ walked.records.flatMap EnumStampRecord.answers := by
  rw [(stamp_booked resolve stamps).listed]
  rw [stamp_eq_perform] at stamps
  obtain ⟨stamped, log, run, _⟩ := perform_eq_some resolve stamps
  have later := memoising.held_run (mode.consult arena root) stamper.cache #[] key value
  rw [run] at later
  exact later

end Stamper

end EnumStamp
