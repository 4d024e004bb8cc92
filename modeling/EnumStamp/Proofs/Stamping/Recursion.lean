import EnumStamp.Proofs.Arena.Extends
import EnumStamp.Stamping.Walk

/-!
Recursion: stamping a tree by direct recursion instead of with a stack of frames. One state goes
through all calls: the arena, the cache, the records and the events. Main statements: the recursion
has at most one outcome (`Stamps.unique`), and it has one below every node of a well-formed arena
(`exists_stamps`).
-/

set_option autoImplicit false

namespace EnumStamp

/-- The declaration and the name of an enum that is to be stamped: it has a const modifier and an
identifier for its name. -/
def Arena.constEnum? (arena : Arena) (id : NodeId) : Option (EnumDecl × String) := do
  let decl ← arena.enumDecl? id
  let enumName ← arena.identifierText? decl.name
  if (arena.modifiers decl.modifiers).contains .const then some (decl, enumName) else none

theorem Arena.constEnum?_eq_some_iff {arena : Arena} {id : NodeId} {decl : EnumDecl}
    {enumName : String} :
    arena.constEnum? id = some (decl, enumName) ↔
      arena.enumDecl? id = some decl ∧ arena.identifierText? decl.name = some enumName ∧
        (arena.modifiers decl.modifiers).contains .const = true := by
  simp only [Arena.constEnum?, Option.bind_eq_bind, Option.bind_eq_some_iff]
  constructor
  · rintro ⟨found, atDecl, name, atName, chosen⟩
    split at chosen
    · rename_i const
      cases chosen
      exact ⟨atDecl, atName, const⟩
    · cases chosen
  · rintro ⟨atDecl, atName, const⟩
    exact ⟨decl, atDecl, enumName, atName, if_pos const⟩

/-- Only an enum member can have a name, and it has the text of an identifier for it. -/
theorem Arena.memberName?_eq_some_iff {arena : Arena} {id : NodeId} {name : String} :
    arena.memberName? id = some name ↔
      ∃ member, arena.enumMember? id = some member ∧
        arena.kind? member.name = some Token.identifier.kind ∧
        arena.identifierText? member.name = some name := by
  simp only [Arena.memberName?, Option.bind_eq_bind, Option.bind_eq_some_iff]
  refine exists_congr fun member => and_congr_right fun _ => ?_
  split
  · rename_i plain
    simp only [plain, true_and]
  · rename_i other
    simp only [other, false_and, reduceCtorEq]

/-- How far a run has come; the lists have the latest last. -/
structure Progress (σ : Type) where
  arena : Arena
  cache : σ
  records : List EnumStampRecord
  log : Array Event

namespace Progress

variable {σ : Type}

def say (progress : Progress σ) (event : Event) : Progress σ :=
  { progress with log := progress.log.push event }

/-- What became of a member: it got a value, or it was kept, or it was passed over uncounted. -/
inductive Fate where
  | stamped (stamp : MemberStamp)
  | kept
  | passed

/-- The node that takes a member's place, and what became of the member. -/
abbrev Visited := NodeId × Fate

def Visited.stamp? : Visited → Option MemberStamp
  | (_, .stamped stamp) => some stamp
  | (_, .kept) => none
  | (_, .passed) => none

def Visited.isKept : Visited → Bool
  | (_, .kept) => true
  | (_, .stamped _) => false
  | (_, .passed) => false

def visitMember (resolve : Cache.Resolver σ) (enumName : String) (id : NodeId)
    (progress : Progress σ) : Visited × Progress σ :=
  match progress.arena.memberName? id with
  | none => ((id, .kept), progress.say (.memberKept enumName id))
  | some name =>
    match progress.arena.enumMember? id with
    | none => ((id, .passed), progress)
    | some member =>
      let key := Cache.key enumName name
      let (resolved, cache) := resolve key progress.cache
      let (arena, initializer) := progress.arena.createString resolved.value
      let (arena, result) := arena.updateEnumMember id { member with initializer }
      let log := progress.log.push (.memberStarted enumName name) ++ resolved.events
      ((result, .stamped { member := name, key, value := resolved.value }),
        { progress with arena, cache, log := log.push (.memberStamped name resolved.value) })

def visitMembers (resolve : Cache.Resolver σ) (enumName : String) :
    List NodeId → Progress σ → List Visited × Progress σ
  | [], progress => ([], progress)
  | id :: ids, progress =>
    let (first, progress) := progress.visitMember resolve enumName id
    let (others, progress) := visitMembers resolve enumName ids progress
    (first :: others, progress)

/-- Handles a const enum with a name: its members are handled, and it is copied with them. -/
def stampDecl (resolve : Cache.Resolver σ) (file : Option String) (id : NodeId) (decl : EnumDecl)
    (enumName : String) (exported : Bool) (progress : Progress σ) : NodeId × Progress σ :=
  let (visited, progress) := progress.visitMembers resolve enumName decl.members
  let (arena, result) :=
    progress.arena.updateEnum id { decl with members := visited.map Prod.fst }
  let record : EnumStampRecord :=
    { file
      enumName
      exported
      source := id
      result
      members := visited.filterMap Visited.stamp?
      kept := visited.countP Visited.isKept }
  (result,
    { arena
      cache := progress.cache
      records := progress.records ++ [record]
      log := progress.log.push (.constEnumFinished enumName) })

def visitEnum (resolve : Cache.Resolver σ) (file : Option String) (id : NodeId)
    (progress : Progress σ) : NodeId × Progress σ :=
  match progress.arena.enumDecl? id with
  | none => (id, progress)
  | some decl =>
    match progress.arena.identifierText? decl.name with
    | none => (id, progress.say (.namelessEnum id))
    | some enumName =>
      let progress := progress.say (.enumEntered enumName)
      let modifiers := progress.arena.modifiers decl.modifiers
      if modifiers.contains .const then
        let exported := modifiers.contains .exported
        (progress.say (.constEnumStarted enumName exported)).stampDecl resolve file id decl enumName
          exported
      else (id, progress.say (.plainEnum enumName))

/-- Gives a node the replacements of its children. -/
def updateChildren (progress : Progress σ) (id : NodeId) (children : List NodeId) :
    NodeId × Progress σ :=
  let (arena, result) := progress.arena.updateChildren id children
  let warning := progress.arena.childMismatch? id children
  (result, { progress with arena, log := progress.log ++ warning.toList })

end Progress

mutual

/-- Stamping the tree below a node: `Stamps resolve file id before result after` says that the
recursion entered at `id` in the state `before` ends with `result` for the node's replacement and
leaves the state `after`. -/
inductive Stamps {σ : Type} (resolve : Cache.Resolver σ) (file : Option String) :
    NodeId → Progress σ → NodeId → Progress σ → Prop where
  | missing {id : NodeId} {progress : Progress σ} (absent : progress.arena.kind? id = none) :
      Stamps resolve file id progress id progress
  | doc {id : NodeId} {progress : Progress σ} {kind : Kind}
      (found : progress.arena.kind? id = some kind) (isDoc : kind.isDoc = true) :
      Stamps resolve file id progress id
        ((progress.say (.nodeEntered id kind.name)).say (.docSkipped id))
  | enumeration {id : NodeId} {progress : Progress σ} {kind : Kind}
      (found : progress.arena.kind? id = some kind) (noDoc : kind.isDoc = false)
      (isEnum : kind = Construct.enumDeclaration.kind) :
      Stamps resolve file id progress
        ((progress.say (.nodeEntered id kind.name)).visitEnum resolve file id).1
        ((progress.say (.nodeEntered id kind.name)).visitEnum resolve file id).2
  | other {id : NodeId} {progress after : Progress σ} {kind : Kind} {results : List NodeId}
      (found : progress.arena.kind? id = some kind) (noDoc : kind.isDoc = false)
      (noEnum : kind ≠ Construct.enumDeclaration.kind)
      (below : StampsAll resolve file (progress.arena.children id)
        (progress.say (.nodeEntered id kind.name)) results after) :
      Stamps resolve file id progress (after.updateChildren id results).1
        (after.updateChildren id results).2

inductive StampsAll {σ : Type} (resolve : Cache.Resolver σ) (file : Option String) :
    List NodeId → Progress σ → List NodeId → Progress σ → Prop where
  | nil {progress : Progress σ} : StampsAll resolve file [] progress [] progress
  | cons {id : NodeId} {ids : List NodeId} {before between after : Progress σ}
      {result : NodeId} {results : List NodeId}
      (first : Stamps resolve file id before result between)
      (others : StampsAll resolve file ids between results after) :
      StampsAll resolve file (id :: ids) before (result :: results) after

end

variable {σ : Type} {resolve : Cache.Resolver σ} {file : Option String}

/-- Induction on the recursion: what holds of a node may use what holds of its children in turn,
which is `all`. -/
@[elab_as_elim]
theorem Stamps.induct (all : List NodeId → Progress σ → List NodeId → Progress σ → Prop)
    {motive : ∀ id before result after, Stamps resolve file id before result after → Prop}
    (missing : ∀ {id : NodeId} {progress : Progress σ} (absent : progress.arena.kind? id = none),
      motive id progress id progress (.missing absent))
    (doc : ∀ {id : NodeId} {progress : Progress σ} {kind : Kind}
      (found : progress.arena.kind? id = some kind) (isDoc : kind.isDoc = true),
      motive id progress id ((progress.say (.nodeEntered id kind.name)).say (.docSkipped id))
        (.doc found isDoc))
    (enumeration : ∀ {id : NodeId} {progress : Progress σ} {kind : Kind}
      (found : progress.arena.kind? id = some kind) (noDoc : kind.isDoc = false)
      (isEnum : kind = Construct.enumDeclaration.kind),
      motive id progress
        ((progress.say (.nodeEntered id kind.name)).visitEnum resolve file id).1
        ((progress.say (.nodeEntered id kind.name)).visitEnum resolve file id).2
        (.enumeration found noDoc isEnum))
    (other : ∀ {id : NodeId} {progress after : Progress σ} {kind : Kind} {results : List NodeId}
      (found : progress.arena.kind? id = some kind) (noDoc : kind.isDoc = false)
      (noEnum : kind ≠ Construct.enumDeclaration.kind)
      (below : StampsAll resolve file (progress.arena.children id)
        (progress.say (.nodeEntered id kind.name)) results after),
      all (progress.arena.children id) (progress.say (.nodeEntered id kind.name)) results after →
      motive id progress (after.updateChildren id results).1 (after.updateChildren id results).2
        (.other found noDoc noEnum below))
    (nil : ∀ {progress : Progress σ}, all [] progress [] progress)
    (cons : ∀ {id : NodeId} {ids : List NodeId} {before between after : Progress σ}
      {result : NodeId} {results : List NodeId}
      (first : Stamps resolve file id before result between)
      (_others : StampsAll resolve file ids between results after),
      motive id before result between first → all ids between results after →
      all (id :: ids) before (result :: results) after)
    {id : NodeId} {before : Progress σ} {result : NodeId} {after : Progress σ}
    (stamped : Stamps resolve file id before result after) :
    motive id before result after stamped :=
  @Stamps.rec σ resolve file motive
    (fun ids before results after _ => all ids before results after)
    missing doc enumeration other nil cons id before result after stamped

theorem StampsAll.length_eq {ids results : List NodeId} {before after : Progress σ}
    (stamped : StampsAll resolve file ids before results after) : results.length = ids.length := by
  induction ids generalizing results before with
  | nil =>
    cases stamped
    rfl
  | cons id ids ih =>
    cases stamped with
    | cons first others => rw [List.length_cons, List.length_cons, ih others]

/-- The recursion has at most one outcome. -/
theorem Stamps.unique {id first second : NodeId} {before after last : Progress σ}
    (one : Stamps resolve file id before first after)
    (two : Stamps resolve file id before second last) : first = second ∧ after = last := by
  induction one using Stamps.induct (fun ids before results after =>
    ∀ others last, StampsAll resolve file ids before others last →
      results = others ∧ after = last) generalizing second last with
  | missing absent =>
    cases two with
    | missing => exact ⟨rfl, rfl⟩
    | doc found => rw [absent] at found; cases found
    | enumeration found => rw [absent] at found; cases found
    | other found => rw [absent] at found; cases found
  | doc found isDoc =>
    cases two with
    | missing absent => rw [absent] at found; cases found
    | doc again =>
      cases found.symm.trans again
      exact ⟨rfl, rfl⟩
    | enumeration again noDoc =>
      cases found.symm.trans again
      rw [isDoc] at noDoc
      cases noDoc
    | other again noDoc =>
      cases found.symm.trans again
      rw [isDoc] at noDoc
      cases noDoc
  | enumeration found noDoc isEnum =>
    cases two with
    | missing absent => rw [absent] at found; cases found
    | doc again isDoc =>
      cases found.symm.trans again
      rw [isDoc] at noDoc
      cases noDoc
    | enumeration again =>
      cases found.symm.trans again
      exact ⟨rfl, rfl⟩
    | other again _ noEnum =>
      cases found.symm.trans again
      exact absurd isEnum noEnum
  | other found noDoc noEnum below ih =>
    cases two with
    | missing absent => rw [absent] at found; cases found
    | doc again isDoc =>
      cases found.symm.trans again
      rw [isDoc] at noDoc
      cases noDoc
    | enumeration again _ isEnum =>
      cases found.symm.trans again
      exact absurd isEnum noEnum
    | other again _ _ belowAgain =>
      cases found.symm.trans again
      obtain ⟨rfl, rfl⟩ := ih _ _ belowAgain
      exact ⟨rfl, rfl⟩
  | nil =>
    rename_i again
    cases again
    exact ⟨rfl, rfl⟩
  | cons first others ihFirst ihOthers =>
    rename_i again
    cases again with
    | cons firstAgain othersAgain =>
      obtain ⟨rfl, rfl⟩ := ihFirst firstAgain
      obtain ⟨rfl, rfl⟩ := ihOthers _ _ othersAgain
      exact ⟨rfl, rfl⟩

namespace Progress

/-- A member with a name gets the value of its key. -/
theorem visitMember_of_name (resolve : Cache.Resolver σ) (progress : Progress σ)
    (enumName : String) {id : NodeId} {member : EnumMember} {name : String}
    (atMember : progress.arena.enumMember? id = some member)
    (atName : progress.arena.memberName? id = some name) :
    progress.visitMember resolve enumName id =
      let answer := resolve (Cache.key enumName name) progress.cache
      let created := progress.arena.createString answer.1.value
      let updated := created.1.updateEnumMember id { member with initializer := created.2 }
      let log := progress.log.push (.memberStarted enumName name) ++ answer.1.events
      ((updated.2, .stamped ⟨name, Cache.key enumName name, answer.1.value⟩),
        { progress with
          arena := updated.1
          cache := answer.2
          log := log.push (.memberStamped name answer.1.value) }) := by
  simp only [visitMember, atMember, atName]

/-- A member without a name is kept. -/
theorem visitMember_of_none (resolve : Cache.Resolver σ) (progress : Progress σ)
    (enumName : String) {id : NodeId}
    (noName : progress.arena.memberName? id = none) :
    progress.visitMember resolve enumName id =
      ((id, .kept), progress.say (.memberKept enumName id)) := by
  rw [visitMember, noName]

/-- No member is passed over: every one that has no stamp is counted. -/
theorem visitMember_isKept (resolve : Cache.Resolver σ) (progress : Progress σ) (enumName : String)
    (id : NodeId) :
    let visited := (progress.visitMember resolve enumName id).1
    visited.isKept = visited.stamp?.isNone := by
  cases atName : progress.arena.memberName? id with
  | none =>
    rw [progress.visitMember_of_none resolve enumName atName]
    rfl
  | some name =>
    obtain ⟨member, atMember, _⟩ := Arena.memberName?_eq_some_iff.mp atName
    rw [progress.visitMember_of_name resolve enumName atMember atName]
    rfl

theorem visitMembers_isKept (resolve : Cache.Resolver σ) (progress : Progress σ)
    (enumName : String) (ids : List NodeId) :
    ∀ visited ∈ (progress.visitMembers resolve enumName ids).1,
      visited.isKept = visited.stamp?.isNone := by
  induction ids generalizing progress with
  | nil =>
    intro visited member
    cases member
  | cons id ids ih =>
    exact List.forall_mem_cons.mpr ⟨progress.visitMember_isKept resolve enumName id, ih _⟩

theorem visitMembers_cons (progress : Progress σ) (enumName : String) (id : NodeId)
    (ids : List NodeId) :
    progress.visitMembers resolve enumName (id :: ids) =
      let (first, between) := progress.visitMember resolve enumName id
      let (others, after) := between.visitMembers resolve enumName ids
      (first :: others, after) := rfl

theorem visitMember_extends (progress : Progress σ) (enumName : String) (id : NodeId) :
    progress.arena.Extends (progress.visitMember resolve enumName id).2.arena := by
  cases atName : progress.arena.memberName? id with
  | none =>
    rw [progress.visitMember_of_none resolve enumName atName]
    exact Arena.Extends.refl _
  | some name =>
    obtain ⟨member, atMember, _⟩ := Arena.memberName?_eq_some_iff.mp atName
    rw [progress.visitMember_of_name resolve enumName atMember atName]
    exact (Arena.extends_createString _ _).trans (Arena.extends_update _ _ _)

theorem visitMembers_extends (progress : Progress σ) (enumName : String) (ids : List NodeId) :
    progress.arena.Extends (progress.visitMembers resolve enumName ids).2.arena := by
  induction ids generalizing progress with
  | nil => exact Arena.Extends.refl _
  | cons id ids ih => exact (progress.visitMember_extends enumName id).trans (ih _)

/-- A const enum with a name is stamped; nothing but events comes before that. -/
theorem visitEnum_of_const (resolve : Cache.Resolver σ) (file : Option String)
    (progress : Progress σ) {id : NodeId} {decl : EnumDecl}
    {enumName : String} (isConst : progress.arena.constEnum? id = some (decl, enumName)) :
    progress.visitEnum resolve file id =
      let exported := (progress.arena.modifiers decl.modifiers).contains .exported
      ((progress.say (.enumEntered enumName)).say (.constEnumStarted enumName exported)).stampDecl
        resolve file id decl enumName exported := by
  obtain ⟨atDecl, atName, const⟩ := Arena.constEnum?_eq_some_iff.mp isConst
  simp only [visitEnum, atDecl, atName]
  exact if_pos const

/-- Any other enum stays as it is; only events are noted. -/
theorem visitEnum_of_other (resolve : Cache.Resolver σ) (file : Option String)
    (progress : Progress σ) {id : NodeId}
    (other : progress.arena.constEnum? id = none) :
    ∃ log, progress.visitEnum resolve file id = (id, { progress with log }) := by
  unfold visitEnum
  split
  · exact ⟨_, rfl⟩
  · rename_i decl atDecl
    split
    · exact ⟨_, rfl⟩
    · rename_i enumName atName
      by_cases const : (progress.arena.modifiers decl.modifiers).contains .const = true
      · rw [Arena.constEnum?_eq_some_iff.mpr ⟨atDecl, atName, const⟩] at other
        cases other
      · exact ⟨_, if_neg const⟩

theorem stampDecl_extends (progress : Progress σ) (id : NodeId) (decl : EnumDecl)
    (enumName : String) (exported : Bool) :
    progress.arena.Extends
      (progress.stampDecl resolve file id decl enumName exported).2.arena :=
  (visitMembers_extends progress enumName decl.members).trans (Arena.extends_update _ _ _)

theorem visitEnum_extends (progress : Progress σ) (id : NodeId) :
    progress.arena.Extends (progress.visitEnum resolve file id).2.arena := by
  cases found : progress.arena.constEnum? id with
  | none =>
    obtain ⟨log, same⟩ := progress.visitEnum_of_other resolve file found
    rw [same]
    exact Arena.Extends.refl _
  | some isConst =>
    obtain ⟨decl, enumName⟩ := isConst
    rw [progress.visitEnum_of_const resolve file found]
    exact stampDecl_extends ((progress.say _).say _) _ _ _ _

theorem updateChildren_extends (progress : Progress σ) (id : NodeId) (children : List NodeId) :
    progress.arena.Extends (progress.updateChildren id children).2.arena :=
  Arena.extends_updateChildren _ _ _

end Progress

/-- The recursion adds nodes and changes none. -/
theorem Stamps.extends {id result : NodeId} {before after : Progress σ}
    (stamped : Stamps resolve file id before result after) :
    before.arena.Extends after.arena := by
  induction stamped using Stamps.induct (fun _ before _ after =>
    before.arena.Extends after.arena) with
  | missing => exact Arena.Extends.refl _
  | doc => exact Arena.Extends.refl _
  | enumeration => exact Progress.visitEnum_extends (Progress.say _ _) _
  | other _ _ _ _ ih => exact ih.trans (Progress.updateChildren_extends _ _ _)
  | nil => exact Arena.Extends.refl _
  | cons _ _ ihFirst ihOthers => exact ihFirst.trans ihOthers

theorem StampsAll.extends {ids results : List NodeId} {before after : Progress σ}
    (stamped : StampsAll resolve file ids before results after) :
    before.arena.Extends after.arena := by
  induction ids generalizing results before with
  | nil =>
    cases stamped
    exact Arena.Extends.refl _
  | cons id ids ih =>
    cases stamped with
    | cons first others => exact first.extends.trans (ih others)

/-- If the recursion comes to an end below each of some nodes in every larger arena, it comes to an
end below all of them in turn. -/
theorem exists_stampsAll {base : Arena} {ids : List NodeId}
    (each : ∀ id ∈ ids, ∀ before : Progress σ, base.Extends before.arena →
      ∃ result after, Stamps resolve file id before result after)
    (before : Progress σ) (grown : base.Extends before.arena) :
    ∃ results after, StampsAll resolve file ids before results after := by
  induction ids generalizing before with
  | nil => exact ⟨[], before, .nil⟩
  | cons id ids ih =>
    obtain ⟨result, between, first⟩ := each id (List.mem_cons_self ..) before grown
    obtain ⟨results, after, others⟩ :=
      ih (fun other member => each other (List.mem_cons_of_mem _ member)) between
        (grown.trans first.extends)
    exact ⟨result :: results, after, .cons first others⟩

/-- Below a node of a well-formed arena the recursion comes to an end, also after the arena has
grown: it only enters nodes that were there before, and children come before their parents. -/
theorem exists_stamps {base : Arena} (sound : base.WellFormed) {id : NodeId} (has : base.Has id)
    (before : Progress σ) (grown : base.Extends before.arena) :
    ∃ result after, Stamps resolve file id before result after := by
  induction position : id.position using Nat.strongRecOn generalizing id before with
  | ind position ih =>
    obtain ⟨header, found⟩ := (grown.has has).header
    have atKind : before.arena.kind? id = some header.kind := by
      rw [Arena.kind?, found, Option.map_some]
    by_cases isDoc : header.kind.isDoc = true
    · exact ⟨_, _, .doc atKind isDoc⟩
    · rw [Bool.not_eq_true] at isDoc
      by_cases isEnum : header.kind = Construct.enumDeclaration.kind
      · exact ⟨_, _, .enumeration atKind isDoc isEnum⟩
      · have same : before.arena.children id = base.children id := grown.children_eq sound has
        have below : ∀ child ∈ before.arena.children id, ∀ before : Progress σ,
            base.Extends before.arena →
            ∃ result after, Stamps resolve file child before result after := by
          rw [same]
          intro child member state larger
          have lower := sound.child_lt member
          exact ih child.position (by omega) (sound.child_has member) state larger rfl
        obtain ⟨results, after, stamped⟩ :=
          exists_stampsAll below (before.say (.nodeEntered id header.kind.name)) grown
        exact ⟨_, _, .other atKind isDoc isEnum stamped⟩

end EnumStamp
