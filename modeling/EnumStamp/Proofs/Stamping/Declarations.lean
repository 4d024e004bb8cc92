import EnumStamp.Proofs.Stamping.Sharing
import EnumStamp.Proofs.Tree.Correctness

set_option autoImplicit false

namespace EnumStamp

namespace Arena

def isNamedConst (arena : Arena) (id : NodeId) : Bool :=
  arena.isConstEnum id && (arena.enumName? id).isSome

/-- The const enums with a name that a walk meets from a node on, in the order in which it meets
them. -/
def declared (arena : Arena) (id : NodeId) : List NodeId :=
  ((arena.occurrences id).map Prod.snd).filter arena.isNamedConst

/-- Whether a record says what a declaration does. -/
structure Describes (arena : Arena) (id : NodeId) (record : EnumStampRecord) : Prop where
  enumName : arena.enumName? id = some record.enumName
  exported : record.exported = (arena.declModifiers id).contains .exported
  /-- The members with a simple name, in the order of the declaration, and how many others. -/
  members : ∃ decl, arena.enumDecl? id = some decl ∧
    record.members.map MemberStamp.member = decl.members.filterMap arena.memberName? ∧
      record.kept = decl.members.countP fun member => (arena.memberName? member).isNone

/-- A const enum is told by any present const keyword in its modifier list. -/
theorem isNamedConst_iff {arena : Arena} {id : NodeId} :
    arena.isNamedConst id = true ↔
      arena.kind? id = some Construct.enumDeclaration.kind ∧
        ∃ decl enumName, arena.enumDecl? id = some decl ∧
          arena.identifierText? decl.name = some enumName ∧
            ∃ modifier ∈ decl.modifiers.getD [],
              arena.kind? modifier = some Token.constKeyword.kind := by
  by_cases isEnum : arena.kind? id = some Construct.enumDeclaration.kind
  · unfold isNamedConst
    rw [← isSome_constEnum? isEnum, Option.isSome_iff_exists]
    have const (decl : EnumDecl) : (arena.modifiers decl.modifiers).contains .const = true ↔
        ∃ modifier ∈ decl.modifiers.getD [],
          arena.kind? modifier = some Token.constKeyword.kind := by
      rw [modifiers_contains_const]
      simp only [List.any_eq_true, beq_iff_eq]
    constructor
    · rintro ⟨⟨decl, enumName⟩, chosen⟩
      obtain ⟨atDecl, atName, isConst⟩ := constEnum?_eq_some_iff.mp chosen
      exact ⟨isEnum, decl, enumName, atDecl, atName, (const decl).mp isConst⟩
    · rintro ⟨_, decl, enumName, atDecl, atName, keyword⟩
      exact ⟨(decl, enumName),
        constEnum?_eq_some_iff.mpr ⟨atDecl, atName, (const decl).mpr keyword⟩⟩
  · have other : arena.isConstEnum id = false := by
      simp [isConstEnum, isEnum]
    simp [isNamedConst, other, isEnum]

theorem has_of_enumDecl? {arena : Arena} {id : NodeId} {decl : EnumDecl}
    (atDecl : arena.enumDecl? id = some decl) : arena.Has id := by
  unfold enumDecl? at atDecl
  split at atDecl
  · rename_i stored
    obtain ⟨header, found, _⟩ := Option.bind_eq_some_iff.mp stored
    exact has_of_header found
  · cases atDecl

/-- What a declaration lists are nodes, or no nodes at all. -/
theorem holds_of_enumDecl? {arena : Arena} (sound : arena.WellFormed) {id : NodeId}
    {decl : EnumDecl} (atDecl : arena.enumDecl? id = some decl) :
    (∀ modifier ∈ decl.modifiers.getD [], arena.Holds modifier) ∧ arena.Holds decl.name ∧
      ∀ member ∈ decl.members, arena.Holds member := by
  obtain ⟨header, found⟩ := (has_of_enumDecl? atDecl).header
  have held := slots_hold sound found (payload_of_enumDecl? found atDecl)
  refine ⟨?_, ?_, ?_⟩
  · intro modifier among
    exact held modifier (List.mem_append_left _ among)
  · exact held _ (List.mem_append_right _ (List.mem_cons_self ..))
  · intro member among
    exact held member (List.mem_append_right _ (List.mem_cons_of_mem _ among))

theorem declModifiers_of_decl {arena : Arena} {id : NodeId} {decl : EnumDecl}
    (atDecl : arena.enumDecl? id = some decl) :
    arena.declModifiers id = arena.modifiers decl.modifiers := by
  unfold enumDecl? at atDecl
  split at atDecl
  · rename_i stored
    cases atDecl
    rw [declModifiers, stored]
  · cases atDecl

theorem declared_of_not_entered {arena : Arena} {id : NodeId}
    (stays : arena.isEntered id = false) :
    arena.declared id = if arena.isNamedConst id then [id] else [] := by
  rw [declared, occurrences_of_not_entered stays]
  show [id].filter arena.isNamedConst = _
  rw [List.filter_singleton, Bool.cond_eq_ite]

theorem declared_of_enum {arena : Arena} {id : NodeId}
    (isEnum : arena.kind? id = some Construct.enumDeclaration.kind) :
    [id].flatMap arena.declared = if (arena.constEnum? id).isSome then [id] else [] := by
  have stays : arena.isEntered id = false := by
    rw [isEntered, isEnum]
    rfl
  rw [List.flatMap_singleton, declared_of_not_entered stays, isNamedConst,
    isSome_constEnum? isEnum]

/-- What the walk passes over declares nothing. -/
theorem declared_of_doc {arena : Arena} {id : NodeId} {kind : Kind}
    (found : arena.kind? id = some kind) (isDoc : kind.isDoc = true) :
    [id].flatMap arena.declared = [] := by
  have stays : arena.isEntered id = false := by
    simp [isEntered, found, isDoc]
  have noEnum : kind ≠ Construct.enumDeclaration.kind := by
    rintro rfl
    revert isDoc
    decide
  have other : arena.isNamedConst id = false := by
    simp [isNamedConst, isConstEnum, found, noEnum]
  rw [List.flatMap_singleton, declared_of_not_entered stays, other]
  rfl

/-- Where there is no node nothing is declared. -/
theorem declared_of_not_has {arena : Arena} {id : NodeId} (missing : ¬ arena.Has id) :
    [id].flatMap arena.declared = [] := by
  have absent : arena.kind? id = none := kind?_eq_none_iff.mpr missing
  have stays : arena.isEntered id = false := by
    rw [isEntered, absent]
    rfl
  have other : arena.isNamedConst id = false := by
    simp [isNamedConst, isConstEnum, absent]
  rw [List.flatMap_singleton, declared_of_not_entered stays, other]
  rfl

/-- What is not an enum declares what its children declare. -/
theorem declared_of_entered {arena : Arena} (sound : arena.WellFormed) {id : NodeId}
    (entered : arena.isEntered id = true) :
    arena.declared id = (arena.children id).flatMap arena.declared := by
  obtain ⟨kind, found, _, noEnum⟩ := isEntered_iff.mp entered
  have other : arena.isNamedConst id = false := by
    simp [isNamedConst, isConstEnum, found, noEnum]
  have below (child : NodeId × Nat) :
      (((arena.occurrences child.1).map (Occurrence.below child.2)).map Prod.snd).filter
        arena.isNamedConst = arena.declared child.1 := by
    rw [List.map_map]
    rfl
  rw [declared, occurrences_of_entered sound entered, List.map_cons,
    List.filter_cons_of_neg (by simp [other]), List.map_flatMap, List.filter_flatMap]
  calc
    _ = (arena.children id).zipIdx.flatMap fun child => arena.declared child.1 := by
      simp only [below]
    _ = ((arena.children id).zipIdx.map Prod.fst).flatMap arena.declared := by
      rw [List.flatMap_map]
    _ = (arena.children id).flatMap arena.declared := by
      rw [List.zipIdx_map_fst]

end Arena

/-- A record has been added for each const enum with a name among what some nodes declare; `node`
says which node of a record that is, the declaration before or the one that takes its place. -/
def Declares (node : EnumStampRecord → NodeId) (arena : Arena) (ids : List NodeId)
    (before after : List EnumStampRecord) : Prop :=
  ∃ records, after = before ++ records ∧ records.map node = ids.flatMap arena.declared ∧
    ∀ record ∈ records, arena.Describes (node record) record

section Declares

variable {node : EnumStampRecord → NodeId} {arena : Arena}

theorem Declares.none {ids : List NodeId} (declared : ids.flatMap arena.declared = [])
    (records : List EnumStampRecord) : Declares node arena ids records records := by
  refine ⟨[], (List.append_nil _).symm, ?_, ?_⟩
  · rw [declared]
    rfl
  · intro record member
    cases member

theorem Declares.append {ids others : List NodeId} {before between after : List EnumStampRecord}
    (first : Declares node arena ids before between)
    (second : Declares node arena others between after) :
    Declares node arena (ids ++ others) before after := by
  obtain ⟨early, between, nodes, described⟩ := first
  obtain ⟨late, after, more, alsoDescribed⟩ := second
  refine ⟨early ++ late, ?_, ?_, ?_⟩
  · rw [after, between, List.append_assoc]
  · rw [List.map_append, nodes, more, List.flatMap_append]
  · intro record member
    rcases List.mem_append.mp member with isEarly | isLate
    · exact described record isEarly
    · exact alsoDescribed record isLate

end Declares

/-- The names and the number of those without one, read off the members that were handled. -/
theorem stampNames_of_visited {visited : List Progress.Visited} {names : List (Option String)}
    (counted : ∀ member ∈ visited, member.isKept = member.stamp?.isNone)
    (same : (visited.map fun member => member.stamp?.map MemberStamp.member) = names) :
    (visited.filterMap Progress.Visited.stamp?).map MemberStamp.member = names.filterMap id ∧
      visited.countP Progress.Visited.isKept = names.countP Option.isNone := by
  subst same
  constructor
  · rw [List.map_filterMap, List.filterMap_map]
    rfl
  · rw [List.countP_map]
    apply List.countP_congr
    intro member among
    rw [counted member among]
    exact Eq.to_iff (congrArg (· = true) Option.isNone_map.symm)

/-- A record that is made from the members of a declaration describes it. -/
theorem Arena.describes_of_visited {arena : Arena} {id : NodeId} {decl : EnumDecl}
    {record : EnumStampRecord} {visited : List Progress.Visited}
    (atDecl : arena.enumDecl? id = some decl)
    (atName : arena.identifierText? decl.name = some record.enumName)
    (exported : record.exported = (arena.modifiers decl.modifiers).contains .exported)
    (counted : ∀ member ∈ visited, member.isKept = member.stamp?.isNone)
    (names : (visited.map fun member => member.stamp?.map MemberStamp.member) =
      decl.members.map arena.memberName?)
    (members : record.members = visited.filterMap Progress.Visited.stamp?)
    (kept : record.kept = visited.countP Progress.Visited.isKept) :
    arena.Describes id record := by
  obtain ⟨stampNames, others⟩ := stampNames_of_visited counted names
  rw [List.filterMap_map] at stampNames
  rw [List.countP_map] at others
  refine ⟨?_, ?_, decl, atDecl, ?_, ?_⟩
  · rw [Arena.enumName?, atDecl]
    exact atName
  · rw [Arena.declModifiers_of_decl atDecl, exported]
  · rw [members]
    exact stampNames
  · rw [kept]
    exact others

variable {σ : Type} {resolve : Cache.Resolver σ} {file : Option String}

namespace Progress

/-- The members that get a value are those with a simple name, from left to right. -/
theorem visitMembers_names (resolve : Cache.Resolver σ) {base : Arena} (sound : base.WellFormed)
    (progress : Progress σ) (grown : base.Extends progress.arena) (enumName : String)
    (ids : List NodeId) (held : ∀ id ∈ ids, base.Holds id) :
    ((progress.visitMembers resolve enumName ids).1.map fun member =>
      member.stamp?.map MemberStamp.member) = ids.map base.memberName? := by
  induction ids generalizing progress with
  | nil => rfl
  | cons id ids ih =>
    obtain ⟨here, later⟩ := List.forall_mem_cons.mp held
    let first := progress.visitMember resolve enumName id
    have larger : base.Extends first.2.arena :=
      grown.trans (progress.visitMember_extends enumName id)
    have others := ih first.2 larger later
    have same := grown.memberName?_of_holds sound.closed here
    have own : first.1.stamp?.map MemberStamp.member = base.memberName? id := by
      cases named : base.memberName? id with
      | none =>
        have stays := progress.visitMember_of_none resolve enumName (same.trans named)
        exact congrArg (fun visited => visited.1.stamp?.map MemberStamp.member) stays
      | some name =>
        obtain ⟨member, atMember, _⟩ := Arena.memberName?_eq_some_iff.mp (same.trans named)
        have stamped := progress.visitMember_of_name resolve enumName atMember (same.trans named)
        exact congrArg (fun visited => visited.1.stamp?.map MemberStamp.member) stamped
    rw [List.map_cons, ← own, ← others]
    rfl

/-- The record of an enum that is stamped. -/
theorem stampDecl_records (resolve : Cache.Resolver σ) (file : Option String)
    (progress : Progress σ) (id : NodeId) (decl : EnumDecl) (enumName : String)
    (exported : Bool) :
    let visited := (progress.visitMembers resolve enumName decl.members).1
    let stamped := progress.stampDecl resolve file id decl enumName exported
    stamped.2.records = progress.records ++
      [{ file
         enumName
         exported
         source := id
         result := stamped.1
         members := visited.filterMap Visited.stamp?
         kept := visited.countP Visited.isKept }] := by
  have kept : (progress.visitMembers resolve enumName decl.members).2.records = progress.records :=
    progress.visitMembers_records enumName decl.members
  exact congrArg (· ++ _) kept

/-- A const enum with a name gets a record, and no other enum does. -/
theorem visitEnum_declares {base : Arena} (sound : base.WellFormed) (progress : Progress σ)
    (grown : base.Extends progress.arena) {id : NodeId}
    (isEnum : base.kind? id = some Construct.enumDeclaration.kind) :
    Declares EnumStampRecord.source base [id] progress.records
      (progress.visitEnum resolve file id).2.records := by
  obtain ⟨header, atHeader, _⟩ := Arena.header_of_kind isEnum
  have same := grown.constEnum?_eq sound.closed (Arena.has_of_header atHeader)
  have declared := Arena.declared_of_enum isEnum
  cases found : base.constEnum? id with
  | none =>
    obtain ⟨log, unchanged⟩ := progress.visitEnum_of_other resolve file (same.trans found)
    rw [unchanged]
    rw [found] at declared
    exact .none declared _
  | some isConst =>
    obtain ⟨decl, enumName⟩ := isConst
    obtain ⟨atDecl, atName, _⟩ := Arena.constEnum?_eq_some_iff.mp found
    obtain ⟨inList, _, inMembers⟩ := Arena.holds_of_enumDecl? sound atDecl
    rw [found] at declared
    rw [progress.visitEnum_of_const resolve file (same.trans found)]
    let exported := (progress.arena.modifiers decl.modifiers).contains .exported
    let said := (progress.say (.enumEntered enumName)).say (.constEnumStarted enumName exported)
    have names := visitMembers_names resolve sound said grown enumName decl.members inMembers
    have modifiers : progress.arena.modifiers decl.modifiers = base.modifiers decl.modifiers :=
      grown.modifiers_eq inList
    have added := said.stampDecl_records resolve file id decl enumName exported
    refine ⟨_, added, ?_, ?_⟩
    · rw [declared]
      rfl
    · intro record member
      rw [List.mem_singleton.mp member]
      have same : exported = (base.modifiers decl.modifiers).contains .exported := by
        rw [← modifiers]
      have counted := visitMembers_isKept resolve said enumName decl.members
      exact Arena.describes_of_visited atDecl atName same counted names rfl rfl

end Progress

/-- A tree gets a record for each const enum with a name that the walk meets, as often and in the
order in which it meets them. -/
theorem Stamps.declares {base : Arena} (sound : base.WellFormed) {id result : NodeId}
    {before after : Progress σ} (stamped : Stamps resolve file id before result after)
    (grown : base.Extends before.arena) (has : base.Has id) :
    Declares EnumStampRecord.source base [id] before.records after.records := by
  induction stamped using Stamps.induct (fun ids before results after =>
    base.Extends before.arena → (∀ id ∈ ids, base.Has id) →
      Declares EnumStampRecord.source base ids before.records after.records) with
  | missing absent => exact absurd (grown.has has) (Arena.kind?_eq_none_iff.mp absent)
  | @doc id before kind found isDoc =>
    have atKind : base.kind? id = some kind := (grown.kind?_of_holds (.inl has)).symm.trans found
    exact .none (Arena.declared_of_doc atKind isDoc) _
  | @enumeration id before kind found _ isEnum =>
    have atKind : base.kind? id = some kind := (grown.kind?_of_holds (.inl has)).symm.trans found
    exact (before.say _).visitEnum_declares sound grown (isEnum ▸ atKind)
  | @other id before after kind results found noDoc noEnum below ih =>
    have atKind : base.kind? id = some kind := (grown.kind?_of_holds (.inl has)).symm.trans found
    have entered : base.isEntered id = true := Arena.isEntered_iff.mpr ⟨kind, atKind, noDoc, noEnum⟩
    have children : before.arena.children id = base.children id := grown.children_eq sound has
    rw [children] at ih
    obtain ⟨records, appended, sources, described⟩ :=
      ih grown fun child member => sound.child_has member
    refine ⟨records, appended, ?_, described⟩
    rw [List.flatMap_singleton, Arena.declared_of_entered sound entered, sources]
  | nil =>
    refine ⟨[], (List.append_nil _).symm, rfl, ?_⟩
    intro record member
    cases member
  | cons first others ihFirst ihOthers =>
    rename_i grown has
    have early := ihFirst grown (has _ (List.mem_cons_self ..))
    have late := ihOthers (grown.trans first.extends)
      fun other member => has other (List.mem_cons_of_mem _ member)
    exact early.append late

/-- Below any root, also where there is no node. -/
theorem Stamps.declares_root {root result : NodeId} {before after : Progress σ}
    (stamped : Stamps resolve file root before result after) (sound : before.arena.WellFormed) :
    Declares EnumStampRecord.source before.arena [root] before.records after.records := by
  by_cases has : before.arena.Has root
  · exact stamped.declares sound (Arena.Extends.refl _) has
  · obtain ⟨_, rfl⟩ := stamped.unique (.missing (Arena.kind?_eq_none_iff.mpr has))
    exact .none (Arena.declared_of_not_has has) _

/-- A walk below any root of a well-formed arena, with any cache, adds a record for each const enum
with a name that it meets, and it asks for the values of their members in the order of the
records. -/
theorem Stamper.stamp_declares (resolve : Cache.Resolver σ) (stamper : Stamper σ) (mode : Mode)
    {arena : Arena} (sound : arena.WellFormed) (root : NodeId) :
    ∃ walked, stamper.stamp resolve mode arena root = some walked ∧
      walked.stamper.records = stamper.records ++ walked.records ∧
      walked.records.map EnumStampRecord.source =
        ((arena.occurrences root).map Prod.snd).filter arena.isNamedConst ∧
      (∀ id, arena.isNamedConst id = true ↔
        arena.kind? id = some Construct.enumDeclaration.kind ∧
          ∃ decl enumName, arena.enumDecl? id = some decl ∧
            arena.identifierText? decl.name = some enumName ∧
              ∃ modifier ∈ decl.modifiers.getD [],
                arena.kind? modifier = some Token.constKeyword.kind) ∧
      (∀ record ∈ walked.records, arena.Describes record.source record ∧ record.Keyed) ∧
      (mode.consult arena root).answers resolve stamper.cache =
        walked.records.flatMap fun record =>
          record.members.map fun stamp => (stamp.key, stamp.value) := by
  obtain ⟨result, final, stamped, stamps⟩ := stamper.exists_stamp resolve mode sound root
  have booked := Stamper.stamp_booked resolve stamps
  obtain ⟨records, all, sources, described⟩ := stamped.declares_root sound
  have same : final.records = records := all
  rw [List.flatMap_singleton, ← same] at sources
  refine ⟨_, stamps, rfl, sources, fun id => Arena.isNamedConst_iff, ?_, booked.listed.symm⟩
  intro record member
  exact ⟨described record (same ▸ member), booked.keyed record member⟩

/-- The const enums are met in the order of the file, the one in the namespace before the one after
it, and the cache is asked for their members with simple names in that order. -/
theorem Stamper.stamp_declares_scopes :
    Arena.scopes.WellFormed ∧
      ∃ walked,
        (create default CallLog.empty).1.stamp CallLog.resolve .file Arena.scopes
          (.ofPosition 16) = some walked ∧
        walked.records.map EnumStampRecord.source = [.ofPosition 7, .ofPosition 15] ∧
        walked.records.flatMap (fun record => record.members.map MemberStamp.key) =
          ["A_X", "B_X"] := by
  have sound : Arena.scopes.WellFormed := by decide
  refine ⟨sound, ?_⟩
  obtain ⟨walked, stamps, _, sources, _, _, asked⟩ := stamp_declares CallLog.resolve
    (create default CallLog.empty).1 .file sound (.ofPosition 16)
  refine ⟨walked, stamps, ?_, ?_⟩
  · rw [sources]
    decide +kernel
  · have keys := congrArg (List.map Prod.fst) asked
    rw [List.map_flatMap] at keys
    simp only [List.map_map, Function.comp_def] at keys
    rw [← keys]
    decide +kernel

end EnumStamp
