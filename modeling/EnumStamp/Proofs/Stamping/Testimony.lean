import EnumStamp.Proofs.Stamping.Restatement
import EnumStamp.Proofs.Stamping.Session

set_option autoImplicit false

namespace EnumStamp

open Arena Cache

namespace Arena

/-- The members of a declaration before and after a walk, in step, and the stamps of those that have
a simple name. A member with one has its name still, and a literal with the value of its stamp for
its initializer; any other member is the node that it was. -/
inductive Restamped (arena : Arena) (enumName : String) :
    List NodeId → List NodeId → List MemberStamp → Prop where
  | nil : Restamped arena enumName [] [] []
  | stamped {old new : NodeId} {name value : String} {member : EnumMember}
      {olds news : List NodeId} {stamps : List MemberStamp}
      (named : arena.memberName? old = some name) (still : arena.memberName? new = some name)
      (atNew : arena.enumMember? new = some member)
      (given : arena.literalText? member.initializer = some value)
      (others : Restamped arena enumName olds news stamps) :
      Restamped arena enumName (old :: olds) (new :: news)
        (⟨name, enumName ++ "_" ++ name, value⟩ :: stamps)
  | kept {id : NodeId} {olds news : List NodeId} {stamps : List MemberStamp}
      (unnamed : arena.memberName? id = none)
      (others : Restamped arena enumName olds news stamps) :
      Restamped arena enumName (id :: olds) (id :: news) stamps

/-- Whether what a record says of the two declarations is so. -/
structure BearsOut (arena : Arena) (record : EnumStampRecord) : Prop where
  source : arena.Describes record.source record
  result : arena.Describes record.result record
  members : ∃ before after, arena.enumDecl? record.source = some before ∧
    arena.enumDecl? record.result = some after ∧
    record.members.length + record.kept = before.members.length ∧
    after.members.length = before.members.length ∧
    arena.Restamped record.enumName before.members after.members record.members
  /-- A declaration with stamps is a copy of the one before. -/
  origin : record.members ≠ [] → arena.origin record.result = record.source
  same : record.members = [] → record.result = record.source

theorem has_of_enumMember? {arena : Arena} {id : NodeId} {member : EnumMember}
    (atMember : arena.enumMember? id = some member) : arena.Has id := by
  obtain ⟨header, found, _⟩ := payload_of_enumMember? atMember
  exact has_of_header found

theorem literalText?_eq_some_iff {arena : Arena} {id : NodeId} {text : String} :
    arena.literalText? id = some text ↔ arena.payload? id = some (.literal text) := by
  unfold literalText?
  split
  · rename_i stored
    rw [stored, Option.some.injEq, Option.some.injEq, Payload.literal.injEq]
  · rename_i other
    exact iff_of_false (fun none => nomatch none) (other text)

theorem Extends.literalText? {before after : Arena} (grown : before.Extends after) {id : NodeId}
    {text : String} (found : before.literalText? id = some text) :
    after.literalText? id = some text :=
  literalText?_eq_some_iff.mpr (grown.payload? (literalText?_eq_some_iff.mp found))

theorem literalText?_createString {arena : Arena} (fits : arena.Fits) (text : String) :
    (arena.createString text).1.literalText? (arena.createString text).2 = some text := by
  rw [literalText?_eq_some_iff]
  exact (payload?_of_header? (header?_appendWith fits)).trans
    (payloadAt?_placedHeader fits .absent rfl)

namespace Restamped

variable {arena : Arena} {enumName : String} {olds news : List NodeId}
  {stamps : List MemberStamp} (restamped : arena.Restamped enumName olds news stamps)

include restamped

theorem length_eq : news.length = olds.length := by
  induction restamped with
  | nil => rfl
  | stamped _ _ _ _ _ ih => rw [List.length_cons, List.length_cons, ih]
  | kept _ _ ih => rw [List.length_cons, List.length_cons, ih]

/-- Members read the same in every extension. -/
theorem extends_ {after : Arena} (grown : arena.Extends after) (closed : arena.Closed)
    (held : ∀ old ∈ olds, arena.Holds old) : after.Restamped enumName olds news stamps := by
  induction restamped with
  | nil => exact .nil
  | @stamped old new _ _ member _ _ _ named still atNew given _ ih =>
    obtain ⟨here, later⟩ := List.forall_mem_cons.mp held
    have has := has_of_enumMember? atNew
    have stillNew : after.enumMember? new = some member :=
      (grown.keeps closed has).enumMember?.trans atNew
    refine .stamped ?_ ?_ stillNew (grown.literalText? given) (ih later)
    · exact (grown.memberName?_of_holds closed here).trans named
    · exact (grown.memberName?_eq closed has).trans still
  | kept unnamed _ ih =>
    obtain ⟨here, later⟩ := List.forall_mem_cons.mp held
    exact .kept ((grown.memberName?_of_holds closed here).trans unnamed) (ih later)

end Restamped

section Describes

variable {arena : Arena} {id : NodeId} {record : EnumStampRecord} {decl : EnumDecl}
  (describes : arena.Describes id record) (atDecl : arena.enumDecl? id = some decl)

include describes atDecl

/-- The members on record are those with a simple name. -/
theorem Describes.length_members : record.members.length = arena.namedAmong decl.members := by
  obtain ⟨same, found, names, _⟩ := describes.members
  cases atDecl.symm.trans found
  calc
    record.members.length = (record.members.map MemberStamp.member).length := by
      rw [List.length_map]
    _ = arena.namedAmong decl.members := by
      rw [names, List.length_filterMap_eq_countP, namedAmong]

/-- The members on record and the others are all that the declaration has. -/
theorem Describes.count : record.members.length + record.kept = decl.members.length := by
  have named := describes.length_members atDecl
  obtain ⟨same, found, _, kept⟩ := describes.members
  cases atDecl.symm.trans found
  have others (member : NodeId) : (arena.memberName? member).isNone =
      decide ¬ (arena.memberName? member).isSome = true := by
    cases arena.memberName? member <;> rfl
  rw [named, namedAmong, kept, funext others, ← List.length_eq_countP_add_countP]

end Describes

/-- What is so of two declarations is so in every extension. -/
theorem BearsOut.extends {before after : Arena} (grown : before.Extends after)
    (sound : before.WellFormed) {record : EnumStampRecord} (bears : before.BearsOut record) :
    after.BearsOut record := by
  obtain ⟨old, new, atOld, atNew, count, same, restamped⟩ := bears.members
  have hasOld := has_of_enumDecl? atOld
  have hasNew := has_of_enumDecl? atNew
  refine ⟨bears.source.extends grown sound, bears.result.extends grown sound, ?_, ?_, bears.same⟩
  · refine ⟨old, new, ?_, ?_, count, same, ?_⟩
    · exact (grown.keeps sound.closed hasOld).enumDecl?.trans atOld
    · exact (grown.keeps sound.closed hasNew).enumDecl?.trans atNew
    · exact restamped.extends_ grown sound.closed (holds_of_enumDecl? sound atOld).2.2
  · intro some_
    rw [grown.origin_eq (sound.paired ▸ (has_iff.mp hasNew).2)]
    exact bears.origin some_

end Arena

/-- Records of a walk through a file have been added, and what they say is so. -/
def Testifies (file : Option String) (arena : Arena) (before after : List EnumStampRecord) : Prop :=
  ∃ records, after = before ++ records ∧
    ∀ record ∈ records, record.file = file ∧ arena.BearsOut record

namespace Testifies

variable {file : Option String} {arena later : Arena} {before between after : List EnumStampRecord}

theorem refl (file : Option String) (arena : Arena) (records : List EnumStampRecord) :
    Testifies file arena records records :=
  ⟨[], (List.append_nil _).symm, fun _ member => nomatch member⟩

theorem trans (first : Testifies file arena before between)
    (second : Testifies file arena between after) : Testifies file arena before after := by
  obtain ⟨early, rfl, soEarly⟩ := first
  obtain ⟨late, rfl, soLate⟩ := second
  refine ⟨early ++ late, List.append_assoc .., ?_⟩
  intro record member
  rcases List.mem_append.mp member with isEarly | isLate
  · exact soEarly record isEarly
  · exact soLate record isLate

theorem extends_ (testifies : Testifies file arena before after) (grown : arena.Extends later)
    (sound : arena.WellFormed) : Testifies file later before after := by
  obtain ⟨records, added, so⟩ := testifies
  refine ⟨records, added, fun record member => ?_⟩
  exact ⟨(so record member).1, (so record member).2.extends grown sound⟩

end Testifies

variable {σ : Type} {resolve : Cache.Resolver σ} {file : Option String}

namespace Progress

/-- A member with a simple name gets a literal with the value of its key. -/
theorem visitMember_given (resolve : Cache.Resolver σ) (progress : Progress σ) (enumName : String)
    {id : NodeId} {name : String}
    (named : progress.arena.memberName? id = some name)
    (fits : (progress.visitMember resolve enumName id).2.arena.Fits) :
    let visited := progress.visitMember resolve enumName id
    ∃ member value, visited.1.stamp? = some ⟨name, enumName ++ "_" ++ name, value⟩ ∧
      visited.2.arena.enumMember? visited.1.1 = some member ∧
      visited.2.arena.literalText? member.initializer = some value := by
  obtain ⟨member, atMember, _⟩ := memberName?_eq_some_iff.mp named
  obtain ⟨header, found, stored⟩ := payload_of_enumMember? atMember
  rw [progress.visitMember_of_name resolve enumName atMember named] at fits ⊢
  let value := (resolve (Cache.key enumName name) progress.cache).1.value
  let created := progress.arena.createString value
  have grown : progress.arena.Extends created.1 := extends_createString _ _
  have larger : created.1.Extends
      (created.1.updateEnumMember id { member with initializer := created.2 }).1 :=
    extends_update _ _ _
  have room : created.1.Fits := fits.of_extends larger
  obtain ⟨copy, atCopy, _, edited⟩ :=
    stored_update fits (grown.header? found) (grown.payloadAt? stored) rfl rfl
  have text := literalText?_createString (room.of_extends grown) value
  exact ⟨{ member with initializer := created.2 }, value, rfl,
    enumMember?_of_payload atCopy edited, larger.literalText? text⟩

/-- The members of an enum are stamped, or they are kept. -/
theorem visitMembers_restamped (progress : Progress σ) (sound : progress.arena.WellFormed)
    (enumName : String) (ids : List NodeId) (held : ∀ id ∈ ids, progress.arena.Holds id)
    (fits : (progress.visitMembers resolve enumName ids).2.arena.Fits) :
    let visited := progress.visitMembers resolve enumName ids
    visited.2.arena.Restamped enumName ids (visited.1.map Prod.fst)
      (visited.1.filterMap Visited.stamp?) := by
  induction ids generalizing progress with
  | nil => exact .nil
  | cons id ids ih =>
    obtain ⟨here, later⟩ := List.forall_mem_cons.mp held
    let first := progress.visitMember resolve enumName id
    let others := first.2.visitMembers resolve enumName ids
    have grown : progress.arena.Extends first.2.arena := progress.visitMember_extends enumName id
    have more : first.2.arena.Extends others.2.arena := first.2.visitMembers_extends enumName ids
    have room : first.2.arena.Fits := fits.of_extends more
    obtain ⟨middle, _⟩ := (progress.builds_visitMember resolve enumName id).sound room sound
      (List.forall_mem_singleton.mpr here)
    have rest : others.2.arena.Restamped enumName ids (others.1.map Prod.fst)
        (others.1.filterMap Visited.stamp?) :=
      ih first.2 middle (fun other member => (later other member).extends grown) fits
    have same := (grown.trans more).memberName?_of_holds sound.closed here
    cases named : progress.arena.memberName? id with
    | none =>
      have stays : first = ((id, .kept), progress.say (.memberKept enumName id)) :=
        progress.visitMember_of_none resolve enumName named
      have all : (progress.visitMembers resolve enumName (id :: ids)).1 = (id, .kept) :: others.1 :=
        congrArg (fun visited : Visited × Progress σ => visited.1 :: others.1) stays
      dsimp only
      rw [all, List.map_cons, List.filterMap_cons_none rfl]
      exact .kept (same.trans named) rest
    | some name =>
      obtain ⟨member, value, stamp, atMember, given⟩ :=
        progress.visitMember_given resolve enumName named room
      have still : first.2.arena.memberName? first.1.1 = some name :=
        (progress.visitMember_memberName sound enumName id room).trans named
      have has := has_of_enumMember? atMember
      dsimp only
      rw [visitMembers_cons, List.map_cons, List.filterMap_cons_some stamp]
      have stillMember : others.2.arena.enumMember? first.1.1 = some member :=
        (more.keeps middle.closed has).enumMember?.trans atMember
      refine .stamped (same.trans named) ?_ stillMember (more.literalText? given) rest
      exact (more.memberName?_eq middle.closed has).trans still

/-- An enum with a member to stamp is replaced by a copy of its own, and any other one stays. -/
theorem stampDecl_origin (progress : Progress σ) (sound : progress.arena.WellFormed)
    {id : NodeId} {header : Header} {decl : EnumDecl}
    (found : progress.arena.header? id = some header)
    (atDecl : progress.arena.enumDecl? id = some decl) (enumName : String) (exported : Bool)
    (fits : (progress.stampDecl resolve file id decl enumName exported).2.arena.Fits) :
    let stamped := progress.stampDecl resolve file id decl enumName exported
    (0 < progress.arena.namedAmong decl.members → stamped.2.arena.origin stamped.1 = id) ∧
      (progress.arena.namedAmong decl.members = 0 → stamped.1 = id) := by
  intro stamped
  obtain ⟨_, _, inMembers⟩ := holds_of_enumDecl? sound atDecl
  let visited := progress.visitMembers resolve enumName decl.members
  let edited : EnumDecl := { decl with members := visited.1.map Prod.fst }
  have grown : progress.arena.Extends visited.2.arena :=
    progress.visitMembers_extends enumName decl.members
  have room : visited.2.arena.Fits := fits.of_extends (extends_update _ _ _)
  obtain ⟨middle, _⟩ :=
    (progress.builds_visitMembers resolve enumName decl.members).sound room sound inMembers
  obtain ⟨_, plain, changed⟩ := visitMembers_shares sound progress (Extends.refl _) enumName
    decl.members inMembers room
  have copy : (stamped.2.arena, stamped.1) =
      if Payload.enumeration edited = .enumeration decl then (visited.2.arena, id)
      else visited.2.arena.appendWith header (.enumeration edited) id :=
    update_eq (grown.header? found) (grown.payloadAt? (payload_of_enumDecl? found atDecl)) rfl
  constructor
  · intro named
    have other : Payload.enumeration edited ≠ .enumeration decl := fun same =>
      changed named (congrArg EnumDecl.members (Payload.enumeration.inj same))
    rw [if_neg other] at copy
    obtain ⟨arena, result⟩ := Prod.ext_iff.mp copy
    dsimp only at arena result
    rw [arena, result]
    exact origin_appendWith middle.paired room
  · intro unnamed
    have same : edited = decl := congrArg (EnumDecl.mk _ _) (plain unnamed).1
    rw [if_pos (congrArg Payload.enumeration same)] at copy
    exact congrArg Prod.snd copy

/-- An enum that is stamped gets a record, and what the record says is so. -/
theorem stampDecl_testifies (progress : Progress σ) (sound : progress.arena.WellFormed)
    {id : NodeId} (isEnum : progress.arena.kind? id = some Construct.enumDeclaration.kind)
    {decl : EnumDecl} {enumName : String}
    (chosen : progress.arena.constEnum? id = some (decl, enumName)) {exported : Bool}
    (isExported : exported = (progress.arena.modifiers decl.modifiers).contains .exported)
    (fits : (progress.stampDecl resolve file id decl enumName exported).2.arena.Fits) :
    Testifies file (progress.stampDecl resolve file id decl enumName exported).2.arena
      progress.records (progress.stampDecl resolve file id decl enumName exported).2.records := by
  obtain ⟨atDecl, atName, _⟩ := constEnum?_eq_some_iff.mp chosen
  obtain ⟨header, found, _⟩ := header_of_kind isEnum
  obtain ⟨_, _, inMembers⟩ := holds_of_enumDecl? sound atDecl
  let visited := progress.visitMembers resolve enumName decl.members
  let stamped := progress.stampDecl resolve file id decl enumName exported
  have grown : progress.arena.Extends visited.2.arena :=
    progress.visitMembers_extends enumName decl.members
  have larger : visited.2.arena.Extends stamped.2.arena := extends_update _ _ _
  have whole : progress.arena.Extends stamped.2.arena := grown.trans larger
  have room : visited.2.arena.Fits := fits.of_extends larger
  obtain ⟨middle, _⟩ :=
    (progress.builds_visitMembers resolve enumName decl.members).sound room sound inMembers
  have restamped := (progress.visitMembers_restamped sound enumName decl.members inMembers
    room).extends_ larger middle.closed fun member among => (inMembers member among).extends grown
  have added := progress.stampDecl_records resolve file id decl enumName exported
  refine ⟨_, added, List.forall_mem_singleton.mpr ⟨rfl, ?_⟩⟩
  -- What the record says of the declaration after the walk is known from the walk as a whole.
  obtain ⟨_, _, _, again, _, describes⟩ :=
    progress.stampDecl_restates sound isEnum chosen isExported fits
  rw [List.append_cancel_left (again.symm.trans added)] at describes
  have result := describes _ (List.mem_singleton_self _)
  obtain ⟨_, _, _, atResult⟩ := progress.stampDecl_decl found atDecl enumName exported fits
  have names := visitMembers_names resolve sound progress (Extends.refl _) enumName decl.members
    inMembers
  let record : EnumStampRecord :=
    { file, enumName, exported, source := id, result := stamped.1
      members := visited.1.filterMap Visited.stamp?
      kept := visited.1.countP Visited.isKept }
  have source : progress.arena.Describes id record :=
    describes_of_visited atDecl atName isExported
      (visitMembers_isKept resolve progress enumName decl.members) names rfl rfl
  have still : stamped.2.arena.enumDecl? id = some decl :=
    (whole.keeps sound.closed (has_of_header found)).enumDecl?.trans atDecl
  obtain ⟨copied, stays⟩ := progress.stampDecl_origin sound found atDecl enumName exported fits
  refine ⟨source.extends whole sound, result,
    ⟨decl, _, still, atResult, source.count atDecl, restamped.length_eq, restamped⟩, ?_, ?_⟩
  · intro some_
    have named := source.length_members atDecl
    exact copied (named ▸ List.length_pos_iff.mpr some_)
  · intro none
    have named := source.length_members atDecl
    exact stays (named ▸ List.length_eq_zero_iff.mpr none)

/-- An enum gets a record if it is a const enum with a name, and what the record says is so. -/
theorem visitEnum_testifies (progress : Progress σ) (sound : progress.arena.WellFormed)
    {id : NodeId} (isEnum : progress.arena.kind? id = some Construct.enumDeclaration.kind)
    (fits : (progress.visitEnum resolve file id).2.arena.Fits) :
    Testifies file (progress.visitEnum resolve file id).2.arena progress.records
      (progress.visitEnum resolve file id).2.records := by
  cases chosen : progress.arena.constEnum? id with
  | none =>
    obtain ⟨log, same⟩ := progress.visitEnum_of_other resolve file chosen
    rw [same]
    exact .refl file _ _
  | some isConst =>
    obtain ⟨decl, enumName⟩ := isConst
    rw [progress.visitEnum_of_const resolve file chosen] at fits ⊢
    let said := (progress.say (.enumEntered enumName)).say (.constEnumStarted enumName
      ((progress.arena.modifiers decl.modifiers).contains .exported))
    exact said.stampDecl_testifies sound isEnum chosen rfl fits

end Progress

/-- What the records of a tree say is so. -/
theorem Stamps.testifies {id result : NodeId} {before after : Progress σ}
    (stamped : Stamps resolve file id before result after) (sound : before.arena.WellFormed)
    (has : before.arena.Has id) (fits : after.arena.Fits) :
    Testifies file after.arena before.records after.records := by
  induction stamped using Stamps.induct (fun ids before results after =>
    before.arena.WellFormed → (∀ id ∈ ids, before.arena.Has id) → after.arena.Fits →
      Testifies file after.arena before.records after.records) with
  | missing absent => exact absurd has (kind?_eq_none_iff.mp absent)
  | doc => exact .refl file _ _
  | @enumeration id before kind found _ isEnum =>
    exact (before.say _).visitEnum_testifies sound (isEnum ▸ found) fits
  | @other id before after kind results found noDoc noEnum below ih =>
    have larger := after.updateChildren_extends id results
    have room := fits.of_extends larger
    obtain ⟨middle, _⟩ := below.builds.sound room sound fun child member =>
      .inl (sound.child_has member)
    exact (ih sound (fun child member => sound.child_has member) room).extends_ larger middle
  | nil => exact .refl file _ _
  | @cons id ids before between after result results first others ihFirst ihOthers =>
    rename_i sound has fits
    obtain ⟨here, later⟩ := List.forall_mem_cons.mp has
    have grown : between.arena.Extends after.arena := others.extends
    have room := fits.of_extends grown
    have middle := (first.restates sound here room).sound
    have early := (ihFirst sound here room).extends_ grown middle
    have late := ihOthers middle (fun other member => first.extends.has (later other member)) fits
    exact early.trans late

/-- Below any root, also where there is no node. -/
theorem Stamps.testifies_root {root result : NodeId} {before after : Progress σ}
    (stamped : Stamps resolve file root before result after) (sound : before.arena.WellFormed)
    (fits : after.arena.Fits) : Testifies file after.arena before.records after.records := by
  by_cases has : before.arena.Has root
  · exact stamped.testifies sound has fits
  · obtain ⟨_, rfl⟩ := stamped.unique (.missing (kind?_eq_none_iff.mpr has))
    exact .refl file _ _

structure Errand where
  mode : Mode
  arena : Arena
  root : NodeId

/-- The name of the file that the walk goes through, if it is sent through a file. -/
def Errand.file? (errand : Errand) : Option String :=
  errand.mode.fileName? errand.arena errand.root

namespace Stamper

/-- Performs walks one after another; the stamper that each leaves performs the next one. -/
def serve (resolve : Cache.Resolver σ) :
    List Errand → Stamper σ → Option (List (Walked σ) × Stamper σ)
  | [], stamper => some ([], stamper)
  | errand :: errands, stamper => do
    let walked ← stamper.stamp resolve errand.mode errand.arena errand.root
    let (walks, last) ← serve resolve errands walked.stamper
    return (walked :: walks, last)

/-- Sent on any walks through well-formed arenas, a stamper performs them all. Its records are those
of the walks in order. Each of them is of the file that its own walk was sent through, and what it
says of the declarations before and after is so in the arena that the walk leaves. -/
theorem serve_bearsOut (resolve : Cache.Resolver σ) (stamper : Stamper σ) {errands : List Errand}
    (sound : ∀ errand ∈ errands, errand.arena.WellFormed) :
    ∃ walks last, serve resolve errands stamper = some (walks, last) ∧
      last.records = stamper.records ++ walks.flatMap Walked.records ∧
      List.Forall₂ (fun errand walked => walked.arena.Fits → ∀ record ∈ walked.records,
        record.file = errand.file? ∧ walked.arena.BearsOut record) errands walks := by
  induction errands generalizing stamper with
  | nil => exact ⟨[], stamper, rfl, (List.append_nil _).symm, .nil⟩
  | cons errand errands ih =>
    obtain ⟨here, later⟩ := List.forall_mem_cons.mp sound
    obtain ⟨result, final, stamped, stamps⟩ :=
      stamper.exists_stamp resolve errand.mode here errand.root
    let walked := stamper.walked result final (errand.mode.closing errand.arena errand.root result)
    obtain ⟨walks, last, served, records, so⟩ := ih walked.stamper later
    refine ⟨walked :: walks, last, ?_, ?_, .cons ?_ so⟩
    · rw [serve, stamps, Option.bind_eq_bind, Option.bind_some, served]
      rfl
    · rw [records, List.flatMap_cons, ← List.append_assoc]
      rfl
    · intro fits
      obtain ⟨added, all, said⟩ := stamped.testifies_root here fits
      have same : walked.records = added := all
      rw [same]
      exact said

/-- A walk from an enum that is no file, and then one through a file with two enums whose names
make one key. -/
theorem serve_bearsOut_cutNames :
    let errands : List Errand :=
      [⟨.node, Arena.colors, .ofPosition 6⟩, ⟨.file, Arena.cutNames, .ofPosition 9⟩]
    (∀ errand ∈ errands, errand.arena.WellFormed) ∧
      ∃ first second last, serve OwnCache.resolve errands numbered = some ([first, second], last) ∧
        last.records.map EnumStampRecord.enumName = ["Color", "A_B", "A"] ∧
        (∀ record ∈ first.records, record.file = none ∧ first.arena.BearsOut record) ∧
        ∀ record ∈ second.records, record.file = some "cut.ts" ∧ second.arena.BearsOut record := by
  intro errands
  have sound : ∀ errand ∈ errands, errand.arena.WellFormed := by decide
  refine ⟨sound, ?_⟩
  obtain ⟨walks, last, served, _, so⟩ := serve_bearsOut OwnCache.resolve numbered sound
  have small : (serve OwnCache.resolve errands numbered).all (fun (walks, last) =>
      walks.all (fun walked => decide walked.arena.Fits) &&
        last.records.map EnumStampRecord.enumName == ["Color", "A_B", "A"]) = true := by
    decide +kernel
  rw [served, Option.all_some, Bool.and_eq_true, List.all_eq_true, beq_iff_eq] at small
  obtain ⟨fits, names⟩ := small
  obtain ⟨first, _, outFirst, others, rfl⟩ := List.forall₂_cons_left_iff.mp so
  obtain ⟨second, _, outSecond, none, rfl⟩ := List.forall₂_cons_left_iff.mp others
  obtain rfl := List.forall₂_nil_left_iff.mp none
  exact ⟨first, second, last, served, names,
    outFirst (of_decide_eq_true (fits first (List.mem_cons_self ..))),
    outSecond (of_decide_eq_true (fits second (List.mem_cons_of_mem _ (List.mem_cons_self ..))))⟩

end Stamper

end EnumStamp
