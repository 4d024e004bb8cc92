import EnumStamp.Proofs.Stamping.Declarations

set_option autoImplicit false

namespace EnumStamp

open Arena

namespace Arena

section Extends

variable {before after : Arena} {id : NodeId} (grown : before.Extends after)
  (sound : before.WellFormed)

include grown sound

theorem Extends.isNamedConst_eq (has : before.Has id) :
    after.isNamedConst id = before.isNamedConst id := by
  unfold isNamedConst isConstEnum
  rw [grown.kind? has, grown.declModifiers_eq sound.closed has,
    grown.enumName?_eq sound.closed has]

/-- What a node declares is the same in every extension. -/
theorem Extends.declared_eq (later : after.WellFormed) (has : before.Has id) :
    after.declared id = before.declared id := by
  induction position : id.position using Nat.strongRecOn generalizing id with
  | ind position ih =>
    have entering : after.isEntered id = before.isEntered id := by
      rw [isEntered, isEntered, grown.kind? has]
    by_cases entered : before.isEntered id = true
    · rw [declared_of_entered later (entering.trans entered), declared_of_entered sound entered,
        grown.children_eq sound has]
      apply List.flatMap_congr
      intro child member
      have lower := sound.child_lt member
      exact ih child.position (by omega) (sound.child_has member) rfl
    · rw [Bool.not_eq_true] at entered
      rw [declared_of_not_entered (entering.trans entered), declared_of_not_entered entered,
        grown.isNamedConst_eq sound has]

theorem Describes.extends {record : EnumStampRecord} (describes : before.Describes id record) :
    after.Describes id record := by
  obtain ⟨decl, atDecl, names, kept⟩ := describes.members
  have has := has_of_enumDecl? atDecl
  obtain ⟨_, _, inMembers⟩ := holds_of_enumDecl? sound atDecl
  have same : ∀ member ∈ decl.members, after.memberName? member = before.memberName? member :=
    fun member among => grown.memberName?_of_holds sound.closed (inMembers member among)
  refine ⟨?_, ?_, decl, ?_, ?_, ?_⟩
  · rw [grown.enumName?_eq sound.closed has]
    exact describes.enumName
  · rw [grown.declModifiers_eq sound.closed has]
    exact describes.exported
  · rw [(grown.keeps sound.closed has).enumDecl?, atDecl]
  · rw [names]
    exact List.filterMap_congr fun member among => (same member among).symm
  · rw [kept]
    apply List.countP_congr
    intro member among
    rw [same member among]

end Extends

end Arena

/-- Records still say what they said after the arena has grown. -/
theorem Declares.extends {node : EnumStampRecord → NodeId} {mid after : Arena} {ids : List NodeId}
    {early late : List EnumStampRecord} (declares : Declares node mid ids early late)
    (grown : mid.Extends after) (sound : mid.WellFormed) (later : after.WellFormed)
    (has : ∀ id ∈ ids, mid.Has id) : Declares node after ids early late := by
  obtain ⟨records, appended, nodes, described⟩ := declares
  refine ⟨records, appended, ?_, ?_⟩
  · rw [nodes]
    apply List.flatMap_congr
    intro id member
    exact (grown.declared_eq sound later (has id member)).symm
  · intro record member
    exact (described record member).extends grown sound

/-- Some nodes have been replaced: the replacements declare what the records say. -/
structure Restated {σ : Type} (before after : Progress σ) (results : List NodeId) : Prop where
  sound : after.arena.WellFormed
  has : ∀ result ∈ results, after.arena.Has result
  declares : Declares EnumStampRecord.result after.arena results before.records after.records

variable {σ : Type} {resolve : Cache.Resolver σ} {file : Option String}

/-- A node that declares nothing and stays as it is needs no record. -/
theorem Restated.same {before after : Progress σ} {id : NodeId} (arena : after.arena = before.arena)
    (records : after.records = before.records) (sound : before.arena.WellFormed)
    (has : before.arena.Has id) (none : [id].flatMap before.arena.declared = []) :
    Restated before after [id] where
  sound := arena ▸ sound
  has := by
    intro result member
    rw [List.mem_singleton.mp member, arena]
    exact has
  declares := by
    rw [arena, records]
    exact .none none _

namespace Progress

/-- The node that takes the place of a member has its name. -/
theorem visitMember_memberName (progress : Progress σ) (sound : progress.arena.WellFormed)
    (enumName : String) (id : NodeId)
    (fits : (progress.visitMember resolve enumName id).2.arena.Fits) :
    (progress.visitMember resolve enumName id).2.arena.memberName?
        (progress.visitMember resolve enumName id).1.1 = progress.arena.memberName? id := by
  cases atName : progress.arena.memberName? id with
  | none =>
    rw [progress.visitMember_of_none resolve enumName atName]
    exact atName
  | some name =>
    obtain ⟨member, atMember, plain, text⟩ := memberName?_eq_some_iff.mp atName
    obtain ⟨header, found, stored⟩ := payload_of_enumMember? atMember
    have whole : progress.arena.Extends (progress.visitMember resolve enumName id).2.arena :=
      progress.visitMember_extends enumName id
    rw [progress.visitMember_of_name resolve enumName atMember atName] at fits whole ⊢
    let value := (resolve (Cache.key enumName name) progress.cache).1.value
    have grown : progress.arena.Extends (progress.arena.createString value).1 :=
      extends_createString _ _
    obtain ⟨copy, atCopy, _, edited⟩ := stored_update fits (grown.header? found)
      (grown.payloadAt? stored) rfl rfl
    have holds : progress.arena.Holds member.name :=
      slots_hold sound found stored _ (List.mem_cons_self ..)
    apply memberName?_eq_some_iff.mpr
    refine ⟨_, enumMember?_of_payload atCopy edited, ?_, ?_⟩
    · exact (whole.kind?_of_holds holds).trans plain
    · exact (whole.identifierText?_of_holds sound.closed holds).trans text

/-- The nodes that take the places of members have their names. -/
theorem visitMembers_memberNames (progress : Progress σ) (sound : progress.arena.WellFormed)
    (enumName : String) (ids : List NodeId) (held : ∀ id ∈ ids, progress.arena.Holds id)
    (fits : (progress.visitMembers resolve enumName ids).2.arena.Fits) :
    ((progress.visitMembers resolve enumName ids).1.map Prod.fst).map
        (progress.visitMembers resolve enumName ids).2.arena.memberName? =
      ids.map progress.arena.memberName? := by
  induction ids generalizing progress with
  | nil => rfl
  | cons id ids ih =>
    obtain ⟨here, later⟩ := List.forall_mem_cons.mp held
    let first := progress.visitMember resolve enumName id
    let others := first.2.visitMembers resolve enumName ids
    have grown : progress.arena.Extends first.2.arena := progress.visitMember_extends enumName id
    have more : first.2.arena.Extends others.2.arena := first.2.visitMembers_extends enumName ids
    have room : first.2.arena.Fits := fits.of_extends more
    obtain ⟨middle, holds⟩ := (progress.builds_visitMember resolve enumName id).sound room sound
      (List.forall_mem_singleton.mpr here)
    have own : others.2.arena.memberName? first.1.1 = progress.arena.memberName? id := by
      rw [more.memberName?_of_holds middle.closed (holds _ (List.mem_singleton_self _))]
      exact progress.visitMember_memberName sound enumName id room
    have rest := ih first.2 middle (fun other member => (later other member).extends grown) fits
    have same : ids.map first.2.arena.memberName? = ids.map progress.arena.memberName? := by
      apply List.map_congr_left
      intro other member
      exact grown.memberName?_of_holds sound.closed (later other member)
    rw [same] at rest
    rw [List.map_cons, ← own, ← rest]
    rfl

/-- The members of an enum that is stamped keep their names. -/
theorem stampDecl_memberNames (progress : Progress σ) (sound : progress.arena.WellFormed)
    (id : NodeId) (decl : EnumDecl) (enumName : String) (exported : Bool)
    (held : ∀ member ∈ decl.members, progress.arena.Holds member)
    (fits : (progress.stampDecl resolve file id decl enumName exported).2.arena.Fits) :
    ((progress.visitMembers resolve enumName decl.members).1.map Prod.fst).map
        (progress.stampDecl resolve file id decl enumName exported).2.arena.memberName? =
      decl.members.map progress.arena.memberName? := by
  let visited := progress.visitMembers resolve enumName decl.members
  have larger : visited.2.arena.Extends
      (progress.stampDecl resolve file id decl enumName exported).2.arena := extends_update _ _ _
  have room : visited.2.arena.Fits := fits.of_extends larger
  obtain ⟨middle, holds⟩ :=
    (progress.builds_visitMembers resolve enumName decl.members).sound room sound held
  rw [← progress.visitMembers_memberNames sound enumName decl.members held room]
  apply List.map_congr_left
  intro member among
  exact larger.memberName?_of_holds middle.closed (holds member among)

/-- The node that takes the place of an enum that is stamped is of its kind and has its declaration
with the members that were handled. -/
theorem stampDecl_decl (progress : Progress σ) {id : NodeId} {header : Header} {decl : EnumDecl}
    (found : progress.arena.header? id = some header)
    (atDecl : progress.arena.enumDecl? id = some decl) (enumName : String) (exported : Bool)
    (fits : (progress.stampDecl resolve file id decl enumName exported).2.arena.Fits) :
    let stamped := progress.stampDecl resolve file id decl enumName exported
    ∃ copy, stamped.2.arena.header? stamped.1 = some copy ∧ copy.kind = header.kind ∧
      stamped.2.arena.enumDecl? stamped.1 =
        some { decl with
          members := (progress.visitMembers resolve enumName decl.members).1.map Prod.fst } := by
  have grown : progress.arena.Extends
      (progress.visitMembers resolve enumName decl.members).2.arena :=
    progress.visitMembers_extends enumName decl.members
  obtain ⟨copy, atCopy, copyKind, contents⟩ := stored_update fits (grown.header? found)
    (grown.payloadAt? (payload_of_enumDecl? found atDecl)) rfl rfl
  exact ⟨copy, atCopy, copyKind, enumDecl?_of_payload atCopy contents⟩

/-- The node that takes the place of a const enum with a name is what the record says. -/
theorem stampDecl_restates (progress : Progress σ) (sound : progress.arena.WellFormed)
    {id : NodeId} (isEnum : progress.arena.kind? id = some Construct.enumDeclaration.kind)
    {decl : EnumDecl} {enumName : String}
    (chosen : progress.arena.constEnum? id = some (decl, enumName)) {exported : Bool}
    (isExported : exported = (progress.arena.modifiers decl.modifiers).contains .exported)
    (fits : (progress.stampDecl resolve file id decl enumName exported).2.arena.Fits) :
    Restated progress (progress.stampDecl resolve file id decl enumName exported).2
      [(progress.stampDecl resolve file id decl enumName exported).1] := by
  obtain ⟨atDecl, atName, const⟩ := constEnum?_eq_some_iff.mp chosen
  obtain ⟨header, found, headerKind⟩ := header_of_kind isEnum
  obtain ⟨inList, inName, inMembers⟩ := holds_of_enumDecl? sound atDecl
  let visited := progress.visitMembers resolve enumName decl.members
  let edited : EnumDecl := { decl with members := visited.1.map Prod.fst }
  let stamped := progress.stampDecl resolve file id decl enumName exported
  have whole : progress.arena.Extends stamped.2.arena :=
    progress.stampDecl_extends id decl enumName exported
  obtain ⟨copy, atCopy, copyKind, atEdited⟩ :
      ∃ copy, stamped.2.arena.header? stamped.1 = some copy ∧ copy.kind = header.kind ∧
        stamped.2.arena.enumDecl? stamped.1 = some edited :=
    progress.stampDecl_decl found atDecl enumName exported fits
  have atResult : stamped.2.arena.kind? stamped.1 = some Construct.enumDeclaration.kind := by
    rw [kind?, atCopy, Option.map_some, copyKind, headerKind]
  have name : stamped.2.arena.identifierText? edited.name = some enumName :=
    (whole.identifierText?_of_holds sound.closed inName).trans atName
  have modifiers : stamped.2.arena.modifiers edited.modifiers =
      progress.arena.modifiers decl.modifiers := whole.modifiers_eq inList
  have declared : [stamped.1].flatMap stamped.2.arena.declared = [stamped.1] := by
    have again := constEnum?_eq_some_iff.mpr ⟨atEdited, name, modifiers ▸ const⟩
    rw [declared_of_enum atResult, again]
    rfl
  have names := (visitMembers_names resolve sound progress (Extends.refl _) enumName decl.members
    inMembers).trans (progress.stampDecl_memberNames sound id decl enumName exported inMembers
      fits).symm
  obtain ⟨later, _⟩ := (progress.builds_stampDecl found atDecl enumName exported).sound fits sound
    (List.forall_mem_singleton.mpr (.inl (has_of_header found)))
  refine ⟨later, List.forall_mem_singleton.mpr (has_of_header atCopy), _,
    progress.stampDecl_records resolve file id decl enumName exported, declared.symm, ?_⟩
  intro record member
  rw [List.mem_singleton.mp member]
  have counted := visitMembers_isKept resolve progress enumName decl.members
  exact describes_of_visited atEdited name (modifiers ▸ isExported) counted names rfl rfl

/-- The node that takes the place of an enum is what the record says, if there is one. -/
theorem visitEnum_restates (progress : Progress σ) (sound : progress.arena.WellFormed)
    {id : NodeId} (isEnum : progress.arena.kind? id = some Construct.enumDeclaration.kind)
    (fits : (progress.visitEnum resolve file id).2.arena.Fits) :
    Restated progress (progress.visitEnum resolve file id).2
      [(progress.visitEnum resolve file id).1] := by
  cases chosen : progress.arena.constEnum? id with
  | none =>
    have none := declared_of_enum isEnum
    rw [chosen] at none
    obtain ⟨header, found, _⟩ := header_of_kind isEnum
    obtain ⟨log, same⟩ := progress.visitEnum_of_other resolve file chosen
    rw [same]
    exact .same rfl rfl sound (has_of_header found) none
  | some isConst =>
    obtain ⟨decl, enumName⟩ := isConst
    rw [progress.visitEnum_of_const resolve file chosen] at fits ⊢
    let exported := (progress.arena.modifiers decl.modifiers).contains .exported
    let said := (progress.say (.enumEntered enumName)).say (.constEnumStarted enumName exported)
    have restated := said.stampDecl_restates sound isEnum chosen rfl fits
    exact ⟨restated.sound, restated.has, restated.declares⟩

/-- A node that gets replacements for its children declares what they declare. -/
theorem updateChildren_restates {before after : Progress σ} {id : NodeId} {results : List NodeId}
    (below : Restated before after results) {header : Header}
    (found : after.arena.header? id = some header)
    (entered : after.arena.isEntered id = true)
    (count : results.length = (after.arena.children id).length)
    (fits : (after.updateChildren id results).2.arena.Fits) :
    Restated before (after.updateChildren id results).2
      [(after.updateChildren id results).1] := by
  let updated := after.updateChildren id results
  have present : ∀ result ∈ results, result.isPresent = true :=
    fun result member => (has_iff.mp (below.has result member)).1
  have offers := offers_updateChildren below.sound found count
    (fun result member => .inl (below.has result member)) fits
  have sound : updated.2.arena.WellFormed := offers.sound
  have reads : updated.2.arena.tree updated.1 = _ := offers.reads
  have atKind : updated.2.arena.kind? updated.1 = after.arena.kind? id := by
    rw [← kind?_tree sound, reads, kind?, found]
    rfl
  have again : updated.2.arena.isEntered updated.1 = true := by
    rw [isEntered, atKind]
    exact entered
  have children : updated.2.arena.children updated.1 = results :=
    children_updateChildren count present fits
  have kept := below.declares.extends (after.updateChildren_extends id results) below.sound
    offers.sound below.has
  obtain ⟨records, appended, nodes, described⟩ := kept
  refine ⟨offers.sound, List.forall_mem_singleton.mpr offers.has, records, appended, ?_, described⟩
  rw [nodes, List.flatMap_singleton]
  show _ = updated.2.arena.declared updated.1
  rw [declared_of_entered sound again, children]

end Progress

/-- The tree that takes the place of another declares what the records say. -/
theorem Stamps.restates {id result : NodeId} {before after : Progress σ}
    (stamped : Stamps resolve file id before result after) (sound : before.arena.WellFormed)
    (has : before.arena.Has id) (fits : after.arena.Fits) : Restated before after [result] := by
  induction stamped using Stamps.induct (fun ids before results after =>
    before.arena.WellFormed → (∀ id ∈ ids, before.arena.Has id) → after.arena.Fits →
      Restated before after results) with
  | missing absent => exact absurd has (kind?_eq_none_iff.mp absent)
  | @doc id before kind found isDoc =>
    exact .same rfl rfl sound has (declared_of_doc found isDoc)
  | @enumeration id before kind found _ isEnum =>
    have restated := (before.say _).visitEnum_restates sound (isEnum ▸ found) fits
    exact ⟨restated.sound, restated.has, restated.declares⟩
  | @other id before after kind results found noDoc noEnum below ih =>
    obtain ⟨header, atHeader, _⟩ := header_of_kind found
    have grown : before.arena.Extends after.arena := below.extends
    have room := fits.of_extends (after.updateChildren_extends id results)
    have restated := ih sound (fun child member => sound.child_has member) room
    have entered : after.arena.isEntered id = true :=
      isEntered_iff.mpr ⟨kind, (grown.kind? has).trans found, noDoc, noEnum⟩
    have count : results.length = (after.arena.children id).length := by
      rw [grown.children_eq sound has]
      exact below.length_eq
    have updated := Progress.updateChildren_restates restated (grown.header? atHeader) entered count
      fits
    exact ⟨updated.sound, updated.has, updated.declares⟩
  | nil =>
    rename_i sound _ _
    exact ⟨sound, (fun _ member => by cases member), .none rfl _⟩
  | @cons id ids before between after result results first others ihFirst ihOthers =>
    rename_i sound has fits
    obtain ⟨here, later⟩ := List.forall_mem_cons.mp has
    have grown : between.arena.Extends after.arena := others.extends
    have early := ihFirst sound here (fits.of_extends grown)
    have late := ihOthers early.sound
      (fun other member => first.extends.has (later other member)) fits
    refine ⟨late.sound, ?_, ?_⟩
    · exact List.forall_mem_cons.mpr
        ⟨grown.has (early.has _ (List.mem_singleton_self _)), late.has⟩
    · exact (early.declares.extends grown early.sound late.sound early.has).append late.declares

/-- Below any root, also where there is no node. -/
theorem Stamps.restates_root {root result : NodeId} {before after : Progress σ}
    (stamped : Stamps resolve file root before result after) (sound : before.arena.WellFormed)
    (fits : after.arena.Fits) :
    after.arena.WellFormed ∧
      Declares EnumStampRecord.result after.arena [result] before.records after.records ∧
        ((before.arena.Has root ∧ after.arena.Has result) ∨ (result = root ∧ after = before)) := by
  by_cases has : before.arena.Has root
  · have restated := stamped.restates sound has fits
    exact ⟨restated.sound, restated.declares,
      .inl ⟨has, restated.has result (List.mem_singleton_self _)⟩⟩
  · obtain ⟨rfl, rfl⟩ := stamped.unique (.missing (kind?_eq_none_iff.mpr has))
    exact ⟨sound, .none (declared_of_not_has has) _, .inr ⟨rfl, rfl⟩⟩

end EnumStamp
