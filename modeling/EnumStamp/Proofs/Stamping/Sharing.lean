import Mathlib.Data.List.Forall2
import EnumStamp.Proofs.Arena.Children
import EnumStamp.Proofs.Stamping.Occurrences
import EnumStamp.Proofs.Stamping.Turns

set_option autoImplicit false

namespace EnumStamp

open Arena

namespace Arena

/-- A node that was added later is another one. -/
theorem ne_of_size_le {arena : Arena} {id other : NodeId} (has : arena.Has id)
    (later : arena.size ≤ other.position) : other ≠ id := by
  have lower := (has_iff.mp has).2
  rintro rfl
  omega

theorem Extends.constEnum?_eq {before after : Arena} (grown : before.Extends after)
    (closed : before.Closed) {id : NodeId} (has : before.Has id) :
    after.constEnum? id = before.constEnum? id := by
  rw [constEnum?, constEnum?, (grown.keeps closed has).enumDecl?]
  cases atDecl : before.enumDecl? id with
  | none => rfl
  | some decl =>
    obtain ⟨header, found⟩ := has.header
    have stored : before.payload? id = some (.enumeration decl) :=
      (payload?_of_header? found).trans (payload_of_enumDecl? found atDecl)
    have name : before.Holds decl.name :=
      closed.holds_slot stored (List.mem_append_right _ (List.mem_cons_self ..))
    have list : after.modifiers decl.modifiers = before.modifiers decl.modifiers :=
      grown.modifiers_eq fun _ member => closed.holds_slot stored (List.mem_append_left _ member)
    simp only [Option.bind_eq_bind, Option.bind_some, grown.identifierText?_of_holds closed name,
      list]

/-- An enum node is to be stamped if it is a const enum with a name. -/
theorem isSome_constEnum? {arena : Arena} {id : NodeId}
    (isEnum : arena.kind? id = some Construct.enumDeclaration.kind) :
    (arena.constEnum? id).isSome = (arena.isConstEnum id && (arena.enumName? id).isSome) := by
  unfold constEnum? isConstEnum enumName? declModifiers enumDecl?
  rw [isEnum]
  cases arena.payload? id with
  | none => rfl
  | some payload =>
    cases payload with
    | enumeration decl =>
      cases atName : arena.identifierText? decl.name with
      | none => simp [atName]
      | some name =>
        by_cases const : Modifier.const ∈ arena.modifiers decl.modifiers <;>
          simp [atName, const]
    | _ => simp

/-- An enum node is effective if it is to be stamped and some member has a simple name. -/
theorem isEffective_eq {arena : Arena} {id : NodeId}
    (isEnum : arena.kind? id = some Construct.enumDeclaration.kind) :
    arena.isEffective id =
      ((arena.constEnum? id).isSome && decide (0 < arena.namedMembers id)) := by
  rw [isEffective, isSome_constEnum? isEnum]

/-- What takes the place of the node `id` of the base, read off a later arena: at each path below it
stands a new node if an effective enum occurs there or below, and else what stood there before. -/
def Replaces (base : Arena) (id : NodeId) (after : Arena) (result : NodeId) : Prop :=
  ∀ occurrence ∈ base.occurrences id, ∃ other, after.nodeAt? result occurrence.1 = some other ∧
    after.Has other ∧
    if base.isAffected occurrence.2 then base.size ≤ other.position else other = occurrence.2

/-- Nodes of the base have been stamped, which has taken the arena from one state to another. -/
structure Shares (base : Arena) (ids : List NodeId) (before : Arena) (results : List NodeId)
    (after : Arena) : Prop where
  size : after.size = before.size + (ids.map base.growth).sum
  kept : ids.any base.isAffected = false → results = ids ∧ after = before
  replaced : List.Forall₂ (fun id result => base.Replaces id after result) ids results

end Arena

variable {σ : Type} {resolve : Cache.Resolver σ} {file : Option String}

namespace Progress

/-- A member with a simple name gets a new literal, which is why it is copied. -/
theorem visitMember_shares {base : Arena} (sound : base.WellFormed) (progress : Progress σ)
    (grown : base.Extends progress.arena) (enumName : String) {id : NodeId} {name : String}
    (named : base.memberName? id = some name)
    (fits : (progress.visitMember resolve enumName id).2.arena.Fits) :
    (progress.visitMember resolve enumName id).2.arena.size = progress.arena.size + 2 ∧
      base.size ≤ (progress.visitMember resolve enumName id).1.1.position := by
  obtain ⟨member, atMember, _⟩ := memberName?_eq_some_iff.mp named
  obtain ⟨header, found, stored⟩ := payload_of_enumMember? atMember
  have keeps := grown.keeps sound.closed (has_of_header found)
  rw [progress.visitMember_of_name resolve enumName (keeps.enumMember?.trans atMember)
    (keeps.memberName?.trans named)] at fits ⊢
  let value := (resolve (Cache.key enumName name) progress.cache).1.value
  let created := progress.arena.createString value
  have room : created.1.Fits := fits.of_extends (extends_update _ _ _)
  have before : progress.arena.Fits := room.of_extends (extends_createString _ _)
  have fresh : created.2.position = progress.arena.size := position_appendWith before
  have present : created.2.isPresent = true := (has_iff.mp (has_appendWith before)).1
  have initializer : base.Holds member.initializer :=
    slots_hold sound found stored _ (List.mem_cons_of_mem _ (List.mem_singleton_self _))
  have differs : Payload.enumMember { member with initializer := created.2 } ≠
      .enumMember member := by
    intro same
    have initial : member.initializer = created.2 := by
      injection same with same
      exact congrArg EnumMember.initializer same.symm
    have lower := initializer.position_lt (initial ▸ present)
    have more := grown.size_le
    rw [initial, fresh] at lower
    omega
  have larger : progress.arena.Extends created.1 := extends_createString _ _
  have copied : created.1.updateEnumMember id { member with initializer := created.2 } =
      created.1.appendWith header (.enumMember { member with initializer := created.2 }) id :=
    update_of_ne (larger.header? (grown.header? found))
      (larger.payloadAt? (grown.payloadAt? stored)) rfl differs
  have size : created.1.size = progress.arena.size + 1 := size_appendWith _ _ _ _
  dsimp only
  rw [copied, size_appendWith, position_appendWith room, size]
  have more := grown.size_le
  omega

/-- The members of an enum grow by two nodes for each that has a simple name, and if there is one,
the members are no longer the same. -/
theorem visitMembers_shares {base : Arena} (sound : base.WellFormed) (progress : Progress σ)
    (grown : base.Extends progress.arena) (enumName : String) (ids : List NodeId)
    (held : ∀ id ∈ ids, base.Holds id)
    (fits : (progress.visitMembers resolve enumName ids).2.arena.Fits) :
    (progress.visitMembers resolve enumName ids).2.arena.size =
        progress.arena.size + 2 * base.namedAmong ids ∧
      (base.namedAmong ids = 0 →
        (progress.visitMembers resolve enumName ids).1.map Prod.fst = ids ∧
        (progress.visitMembers resolve enumName ids).2.arena = progress.arena) ∧
      (0 < base.namedAmong ids →
        (progress.visitMembers resolve enumName ids).1.map Prod.fst ≠ ids) := by
  induction ids generalizing progress with
  | nil => exact ⟨rfl, fun _ => ⟨rfl, rfl⟩, fun positive => absurd positive (Nat.lt_irrefl 0)⟩
  | cons id ids ih =>
    obtain ⟨here, later⟩ := List.forall_mem_cons.mp held
    let first := progress.visitMember resolve enumName id
    let others := first.2.visitMembers resolve enumName ids
    have both : progress.visitMembers resolve enumName (id :: ids) =
        (first.1 :: others.1, others.2) := rfl
    have larger : base.Extends first.2.arena :=
      grown.trans (progress.visitMember_extends enumName id)
    obtain ⟨size, plain, changed⟩ := ih first.2 larger later fits
    rw [both, List.map_cons, namedAmong, List.countP_cons, ← namedAmong]
    cases named : base.memberName? id with
    | none =>
      have stays : first = ((id, .kept), progress.say (.memberKept enumName id)) :=
        progress.visitMember_of_none resolve enumName
          ((grown.memberName?_of_holds sound.closed here).trans named)
      have same : first.2.arena = progress.arena := by rw [stays]; rfl
      have result : first.1.1 = id := by rw [stays]
      simp only [Option.isSome_none, Bool.false_eq_true, if_false, Nat.add_zero, result]
      refine ⟨same ▸ size, fun zero => ?_, fun positive tails => ?_⟩
      · exact ⟨congrArg (id :: ·) (plain zero).1, (plain zero).2.trans same⟩
      · exact changed positive (List.cons.inj tails).2
    | some name =>
      have room : first.2.arena.Fits := fits.of_extends (first.2.visitMembers_extends enumName ids)
      have copied : first.2.arena.size = progress.arena.size + 2 ∧
          base.size ≤ first.1.1.position :=
        progress.visitMember_shares sound grown enumName named room
      simp only [Option.isSome_some, if_true]
      refine ⟨size.trans (by omega), fun zero => absurd zero (by omega), fun _ same => ?_⟩
      obtain ⟨member, atMember, _⟩ := memberName?_eq_some_iff.mp named
      obtain ⟨header, found, _⟩ := payload_of_enumMember? atMember
      exact ne_of_size_le (has_of_header found) copied.2 (List.cons.inj same).1

/-- An enum with some members, as it is when its turn comes, is copied if a member has a simple
name, and else it stays as it is. -/
theorem stampDecl_shares {base : Arena} (sound : base.WellFormed) (progress : Progress σ)
    (grown : base.Extends progress.arena) {id : NodeId} {header : Header} {decl : EnumDecl}
    (found : base.header? id = some header)
    (stored : base.payloadAt? header = some (.enumeration decl)) (enumName : String)
    (exported : Bool)
    (fits : (progress.stampDecl resolve file id decl enumName exported).2.arena.Fits) :
    let stamped := progress.stampDecl resolve file id decl enumName exported
    if 0 < base.namedAmong decl.members then
      stamped.2.arena.size = progress.arena.size + (2 * base.namedAmong decl.members + 1) ∧
      base.size ≤ stamped.1.position ∧ stamped.2.arena.Has stamped.1
    else stamped.1 = id ∧ stamped.2.arena = progress.arena := by
  intro stamped
  let visited := progress.visitMembers resolve enumName decl.members
  let edited := Payload.enumeration { decl with members := visited.1.map Prod.fst }
  have room : visited.2.arena.Fits := fits.of_extends (extends_update _ _ _)
  have larger : base.Extends visited.2.arena :=
    grown.trans (progress.visitMembers_extends enumName decl.members)
  have copy : visited.2.arena.updateEnum id { decl with members := visited.1.map Prod.fst } =
      if edited = .enumeration decl then (visited.2.arena, id)
      else visited.2.arena.appendWith header edited id :=
    update_eq (larger.header? found) (larger.payloadAt? stored) rfl
  have members : ∀ member ∈ decl.members, base.Holds member := fun member among =>
    slots_hold sound found stored member
      (List.mem_append_right _ (List.mem_cons_of_mem _ among))
  obtain ⟨size, plain, changed⟩ :=
    progress.visitMembers_shares sound grown enumName decl.members members room
  split
  · rename_i positive
    have differs : edited ≠ .enumeration decl := by
      intro same
      injection same with same
      exact changed positive (congrArg EnumDecl.members same)
    rw [if_neg differs] at copy
    have made : stamped.2.arena = (visited.2.arena.appendWith header edited id).1 :=
      congrArg Prod.fst copy
    have result : stamped.1 = (visited.2.arena.appendWith header edited id).2 :=
      congrArg Prod.snd copy
    have grew : visited.2.arena.size =
        progress.arena.size + 2 * base.namedAmong decl.members := size
    have more := larger.size_le
    rw [made, result, size_appendWith, position_appendWith room]
    exact ⟨by omega, more, has_appendWith room⟩
  · rename_i none
    obtain ⟨unchanged, still⟩ := plain (Nat.eq_zero_of_not_pos none)
    have same : edited = .enumeration decl := by
      simp only [edited, visited, unchanged]
    rw [if_pos same] at copy
    exact ⟨congrArg Prod.snd copy, (congrArg Prod.fst copy).trans still⟩

/-- An effective enum grows by its members and its copy, and any other enum stays as it is. -/
theorem visitEnum_shares {base : Arena} (sound : base.WellFormed) (progress : Progress σ)
    (grown : base.Extends progress.arena) {id : NodeId}
    (isEnum : base.kind? id = some Construct.enumDeclaration.kind)
    (fits : (progress.visitEnum resolve file id).2.arena.Fits) :
    if base.isEffective id then
      (progress.visitEnum resolve file id).2.arena.size =
        progress.arena.size + (2 * base.namedMembers id + 1) ∧
      base.size ≤ (progress.visitEnum resolve file id).1.position ∧
      (progress.visitEnum resolve file id).2.arena.Has (progress.visitEnum resolve file id).1
    else
      (progress.visitEnum resolve file id).1 = id ∧
      (progress.visitEnum resolve file id).2.arena = progress.arena := by
  obtain ⟨header, found, _⟩ := header_of_kind isEnum
  have same := grown.constEnum?_eq sound.closed (has_of_header found)
  rw [isEffective_eq isEnum]
  cases chosen : base.constEnum? id with
  | none =>
    obtain ⟨log, stays⟩ := progress.visitEnum_of_other resolve file (same.trans chosen)
    rw [stays]
    exact ⟨rfl, rfl⟩
  | some isConst =>
    obtain ⟨decl, enumName⟩ := isConst
    have atDecl := (constEnum?_eq_some_iff.mp chosen).1
    have named : base.namedMembers id = base.namedAmong decl.members := by
      rw [namedMembers, atDecl]
      rfl
    rw [progress.visitEnum_of_const resolve file (same.trans chosen)] at fits ⊢
    have stamped := stampDecl_shares sound ((progress.say _).say _) grown found
      (payload_of_enumDecl? found atDecl) enumName _ fits
    simp only [named, Option.isSome_some, Bool.true_and, decide_eq_true_eq]
    exact stamped

end Progress

namespace Arena

variable {base mid after : Arena} {id result : NodeId}

theorem Replaces.self (replaces : base.Replaces id after result) :
    after.Has result ∧ if base.isAffected id then base.size ≤ result.position else result = id := by
  obtain ⟨other, found, has, what⟩ := replaces _ (base.mem_occurrences_self id)
  cases found
  exact ⟨has, what⟩

theorem Replaces.extends (replaces : base.Replaces id mid result) (sound : mid.WellFormed)
    (grown : mid.Extends after) : base.Replaces id after result := by
  intro occurrence member
  obtain ⟨other, found, has, what⟩ := replaces occurrence member
  exact ⟨other, (grown.nodeAt?_eq sound replaces.self.1 _).trans found, grown.has has, what⟩

/-- New nodes are no nodes of the base, so it shows whether a node was replaced. -/
theorem eq_iff_of_replaced
    (what : if base.isAffected id then base.size ≤ result.position else result = id) :
    result = id ↔ base.isAffected id = false := by
  cases affected : base.isAffected id with
  | false =>
    rw [affected] at what
    exact ⟨fun _ => rfl, fun _ => what⟩
  | true =>
    rw [affected, if_pos rfl] at what
    have other : result ≠ id := ne_of_size_le (has_of_isAffected affected) what
    exact ⟨fun same => absurd same other, fun none => nomatch none⟩

/-- What takes the place of a node that is not entered is all that has to be known of it. -/
theorem replaces_of_not_entered (stays : base.isEntered id = false) (has : after.Has result)
    (what : if base.isAffected id then base.size ≤ result.position else result = id) :
    base.Replaces id after result := by
  intro occurrence member
  rw [occurrences_of_not_entered stays, List.mem_singleton] at member
  rw [member]
  exact ⟨result, rfl, has, what⟩

theorem exists_of_forall₂ {α β : Type} {related : α → β → Prop} {first : List α} {second : List β}
    (all : List.Forall₂ related first second) {index : Nat} {entry : α}
    (found : first[index]? = some entry) :
    ∃ other, second[index]? = some other ∧ related entry other := by
  induction all generalizing index with
  | nil => cases found
  | cons head _ ih =>
    cases index with
    | zero =>
      cases found
      exact ⟨_, rfl, head⟩
    | succ index => exact ih found

/-- A node whose children were replaced has the replacements in the places of its children. -/
theorem replaces_of_entered (sound : base.WellFormed) (entered : base.isEntered id = true)
    (has : after.Has result)
    (what : if base.isAffected id then base.size ≤ result.position else result = id)
    (below : List.Forall₂ (fun child result => base.Replaces child after result)
      (base.children id) (after.children result)) : base.Replaces id after result := by
  intro occurrence member
  rw [occurrences_of_entered sound entered] at member
  rcases List.mem_cons.mp member with rfl | deeper
  · exact ⟨result, rfl, has, what⟩
  · obtain ⟨⟨child, index⟩, isChild, isBelow⟩ := List.mem_flatMap.mp deeper
    obtain ⟨inner, among, rfl⟩ := List.mem_map.mp isBelow
    obtain ⟨replacement, atIndex, replaces⟩ :=
      exists_of_forall₂ below (List.mem_zipIdx_iff_getElem?.mp isChild)
    obtain ⟨other, found, hasOther, whatOther⟩ := replaces inner among
    refine ⟨other, ?_, hasOther, whatOther⟩
    exact (congrArg (Option.bind · fun child => after.nodeAt? child inner.1) atIndex).trans found

theorem shares_of_not_entered {before : Arena} (stays : base.isEntered id = false)
    (has : after.Has result)
    (what : if base.isEffective id then
        after.size = before.size + (2 * base.namedMembers id + 1) ∧ base.size ≤ result.position
      else result = id ∧ after = before) : base.Shares [id] before [result] after := by
  have growth : ([id].map base.growth).sum = base.growth id := List.sum_singleton
  have affected : [id].any base.isAffected = base.isAffected id := by simp
  cases effective : base.isEffective id with
  | true =>
    rw [effective, if_pos rfl] at what
    have isAffected := (isAffected_of_not_entered stays).trans effective
    refine ⟨?_, fun none => ?_, .cons (replaces_of_not_entered stays has ?_) .nil⟩
    · rw [growth, growth_of_not_entered stays, effective]
      exact what.1
    · rw [affected, isAffected] at none
      cases none
    · rw [isAffected]
      exact what.2
  | false =>
    rw [effective] at what
    obtain ⟨rfl, rfl⟩ := what
    have isAffected := (isAffected_of_not_entered stays).trans effective
    refine ⟨?_, fun _ => ⟨rfl, rfl⟩, .cons (replaces_of_not_entered stays has ?_) .nil⟩
    · rw [growth, growth_of_not_entered stays, effective]
      rfl
    · rw [isAffected]
      rfl

/-- If one of some nodes has an effective enum at or below it, its replacement is another node. -/
theorem results_ne {ids results : List NodeId}
    (replaced : List.Forall₂ (fun id result => base.Replaces id after result) ids results)
    (affected : ids.any base.isAffected = true) : results ≠ ids := by
  obtain ⟨child, member, isAffected⟩ := List.any_eq_true.mp affected
  obtain ⟨index, found⟩ := List.mem_iff_getElem?.mp member
  obtain ⟨other, atIndex, replaces⟩ := exists_of_forall₂ replaced found
  rintro rfl
  cases found.symm.trans atIndex
  have unaffected := (eq_iff_of_replaced replaces.self.2).mp rfl
  rw [isAffected] at unaffected
  cases unaffected

theorem has_of_replaced {ids results : List NodeId}
    (replaced : List.Forall₂ (fun id result => base.Replaces id after result) ids results) :
    ∀ result ∈ results, after.Has result := by
  induction replaced with
  | nil => exact fun _ member => nomatch member
  | cons head _ ih => exact List.forall_mem_cons.mpr ⟨head.self.1, ih⟩

/-- A node is copied with the replacements of its children if one of them is new. -/
theorem shares_of_entered {before : Arena} {results : List NodeId} (sound : base.WellFormed)
    (entered : base.isEntered id = true) (grown : base.Extends mid) (middle : mid.WellFormed)
    (below : base.Shares (base.children id) before results mid)
    (fits : (mid.updateChildren id results).1.Fits) :
    base.Shares [id] before [(mid.updateChildren id results).2]
      (mid.updateChildren id results).1 := by
  obtain ⟨kind, found, _⟩ := isEntered_iff.mp entered
  have has := has_of_kind found
  have same : mid.children id = base.children id := grown.children_eq sound has
  have growth : ([id].map base.growth).sum = base.growth id := List.sum_singleton
  have affected : [id].any base.isAffected = (base.children id).any base.isAffected := by
    simp [isAffected_of_entered entered sound]
  have size := below.size
  cases some : (base.children id).any base.isAffected with
  | false =>
    obtain ⟨rfl, rfl⟩ := below.kept some
    rw [← same, updateChildren_children]
    refine ⟨?_, fun _ => ⟨rfl, rfl⟩,
      .cons (replaces_of_entered sound entered (grown.has has) ?_ ?_) .nil⟩
    · rw [growth, growth_of_entered entered sound, some, if_neg Bool.false_ne_true, Nat.zero_add]
      exact size
    · rw [isAffected_of_entered entered sound, some]
      rfl
    · rw [same]
      exact below.replaced
  | true =>
    have differs : results ≠ mid.children id := by
      rw [same]
      exact results_ne below.replaced some
    have count : results.length = (mid.children id).length := by
      rw [same, below.replaced.length_eq]
    have present : ∀ result ∈ results, result.isPresent = true :=
      fun result member => (has_iff.mp (has_of_replaced below.replaced result member)).1
    obtain ⟨more, position, hasCopy, children⟩ := updateChildren_of_ne count present differs fits
    have larger := extends_updateChildren mid id results
    refine ⟨?_, fun none => ?_, .cons (replaces_of_entered sound entered hasCopy ?_ ?_) .nil⟩
    · rw [growth, growth_of_entered entered sound, some, if_pos rfl]
      omega
    · rw [affected, some] at none
      cases none
    · rw [isAffected_of_entered entered sound, some, if_pos rfl, position]
      exact grown.size_le
    · rw [children]
      exact below.replaced.imp fun _ _ replaces => replaces.extends middle larger

/-- Nodes are stamped one after another. -/
theorem Shares.cons {before : Arena} {ids results : List NodeId}
    (first : base.Shares [id] before [result] mid) (others : base.Shares ids mid results after)
    (middle : mid.WellFormed) (grown : mid.Extends after) :
    base.Shares (id :: ids) before (result :: results) after := by
  refine ⟨?_, fun none => ?_, .cons ?_ others.replaced⟩
  · have early := first.size
    have late := others.size
    simp only [List.map_cons, List.map_nil, List.sum_cons, List.sum_nil] at early ⊢
    omega
  · rw [List.any_cons, Bool.or_eq_false_iff] at none
    obtain ⟨same, kept⟩ := first.kept (by simpa using none.1)
    obtain ⟨rest, still⟩ := others.kept none.2
    exact ⟨by rw [rest, (List.cons.inj same).1], still.trans kept⟩
  · cases first.replaced with
    | cons replaces _ => exact replaces.extends middle grown

end Arena

/-- Stamping below a node copies what it has to and nothing else. -/
theorem Stamps.shares {base : Arena} (sound : base.WellFormed) {id result : NodeId}
    {before after : Progress σ} (stamped : Stamps resolve file id before result after)
    (has : base.Has id) (grown : base.Extends before.arena) (start : before.arena.WellFormed)
    (fits : after.arena.Fits) : base.Shares [id] before.arena [result] after.arena := by
  -- What occurs below a node is read in the arena of the root, while the arena of the run grows.
  induction stamped using Stamps.induct (fun ids before results after =>
    (∀ id ∈ ids, base.Has id) → base.Extends before.arena → before.arena.WellFormed →
      after.arena.Fits → base.Shares ids before.arena results after.arena) with
  | missing absent => exact absurd (grown.has has) (kind?_eq_none_iff.mp absent)
  | @doc id before kind found isDoc =>
    rw [grown.kind? has] at found
    have noEnum : kind ≠ Construct.enumDeclaration.kind := by
      rintro rfl
      cases isDoc
    have effective : base.isEffective id = false := by
      simp [isEffective, isConstEnum, found, noEnum]
    apply shares_of_not_entered (by simp [isEntered, found, isDoc]) (grown.has has)
    rw [effective]
    exact ⟨rfl, rfl⟩
  | @enumeration id before kind found noDoc isEnum =>
    rw [grown.kind? has, isEnum] at found
    have stays : base.isEntered id = false := by simp [isEntered, found]
    have visited := Progress.visitEnum_shares sound (before.say _) grown found fits
    cases effective : base.isEffective id with
    | true =>
      rw [effective, if_pos rfl] at visited
      refine shares_of_not_entered stays visited.2.2 ?_
      rw [effective]
      exact ⟨visited.1, visited.2.1⟩
    | false =>
      rw [effective, if_neg Bool.false_ne_true] at visited
      refine shares_of_not_entered stays ?_ ?_
      · rw [visited.1, visited.2]
        exact grown.has has
      · rw [effective]
        exact visited
  | @other id before after kind results found noDoc noEnum below ih =>
    rw [grown.kind? has] at found
    have same : before.arena.children id = base.children id := grown.children_eq sound has
    rw [same] at below ih
    have inside : ∀ child ∈ base.children id, base.Has child := fun _ member =>
      sound.child_has member
    have room : after.arena.Fits := fits.of_extends (extends_updateChildren _ _ _)
    obtain ⟨middle, _⟩ := below.builds.sound room start fun child member =>
      .inl (grown.has (inside child member))
    exact shares_of_entered sound (isEntered_iff.mpr ⟨kind, found, noDoc, noEnum⟩)
      (grown.trans below.extends) middle (ih inside grown start room) fits
  | nil => exact ⟨rfl, fun _ => ⟨rfl, rfl⟩, .nil⟩
  | cons first others ihFirst ihOthers =>
    rename_i inside grown start fits
    obtain ⟨here, later⟩ := List.forall_mem_cons.mp inside
    have room := fits.of_extends others.extends
    obtain ⟨middle, _⟩ := first.builds.sound room start (by simpa using .inl (grown.has here))
    exact (ihFirst here grown start room).cons
      (ihOthers later (grown.trans first.extends) middle fits) middle others.extends

namespace Stamper

/-- Stamping below a root of a well-formed arena always has an outcome. Unless the arena outgrows
the handles, it has added as many nodes as the growth of the root says; at each path that the walk
has met stands what stood there before if no effective enum occurs there or below, and else a node
that was added; and the root is the same just if the arena is, which is so if no effective enum was
met. -/
theorem stamp_shares (stamper : Stamper σ) (resolve : Cache.Resolver σ) (mode : Mode)
    {arena : Arena} (sound : arena.WellFormed) (root : NodeId) :
    ∃ walked, stamper.stamp resolve mode arena root = some walked ∧
      (walked.arena.Fits →
        walked.arena.size = arena.size + arena.growth root ∧
        (∀ path other, (path, other) ∈ arena.occurrences root →
          ∃ replacement, walked.arena.nodeAt? walked.root path = some replacement ∧
            (replacement = other ↔ arena.isAffected other = false) ∧
            (arena.isAffected other = true →
              arena.size ≤ replacement.position ∧ walked.arena.Has replacement)) ∧
        (walked.root = root ↔ walked.arena = arena) ∧
        (walked.root = root ↔ arena.isAffected root = false)) := by
  obtain ⟨result, final, stamped, stamps⟩ := stamper.exists_stamp resolve mode sound root
  refine ⟨_, stamps, fun fits => ?_⟩
  by_cases has : arena.Has root
  · have shares : arena.Shares [root] arena [result] final.arena :=
      stamped.shares sound has (Extends.refl _) sound fits
    obtain ⟨size, kept, replaced⟩ := shares
    obtain ⟨replaces⟩ := List.forall₂_cons.mp replaced
    have sameRoot : result = root ↔ arena.isAffected root = false :=
      eq_iff_of_replaced replaces.self.2
    refine ⟨size.trans (by simp), fun path other member => ?_, ⟨fun same => ?_, fun same => ?_⟩,
      sameRoot⟩
    · obtain ⟨replacement, found, hasReplacement, what⟩ := replaces (path, other) member
      refine ⟨replacement, found, eq_iff_of_replaced what, fun affected => ?_⟩
      rw [if_pos affected] at what
      exact ⟨what, hasReplacement⟩
    · exact (kept (by simpa using sameRoot.mp same)).2
    · apply sameRoot.mpr
      by_contra affected
      rw [Bool.not_eq_false] at affected
      obtain ⟨hasResult, new⟩ := replaces.self
      rw [if_pos affected] at new
      have inside : result.position < final.arena.size := (has_iff.mp hasResult).2
      rw [show final.arena = arena from same] at inside
      omega
  · obtain ⟨rfl, rfl⟩ := stamped.unique (.missing (kind?_eq_none_iff.mpr has))
    have stays : arena.isEntered result = false := by
      rw [isEntered, kind?_eq_none_iff.mpr has]
      rfl
    have unaffected : arena.isAffected result = false := by
      rw [← Bool.not_eq_true]
      exact fun affected => has (has_of_isAffected affected)
    have ineffective := (isAffected_of_not_entered stays).symm.trans unaffected
    refine ⟨?_, fun path other member => ?_, ⟨fun _ => rfl, fun _ => rfl⟩,
      ⟨fun _ => unaffected, fun _ => rfl⟩⟩
    · rw [growth_of_not_entered stays, ineffective]
      rfl
    · rw [occurrences_of_not_entered stays, List.mem_singleton] at member
      cases member
      exact ⟨_, rfl, ⟨fun _ => unaffected, fun _ => rfl⟩, fun affected =>
        absurd affected (by rw [unaffected]; exact Bool.false_ne_true)⟩

/-- Each const enum adds a literal and a member for `X` and its own copy, and the block, the
namespace and the file are copied above the first of them. The plain enum stays. -/
theorem stamp_shares_scopes :
    Arena.scopes.WellFormed ∧
      ∃ walked, numbered.stamp OwnCache.resolve .file Arena.scopes (.ofPosition 16) = some walked ∧
        walked.arena.Fits ∧ walked.arena.size = 26 ∧ walked.root ≠ .ofPosition 16 ∧
        walked.arena.nodeAt? walked.root [1] = some (.ofPosition 11) ∧
        ∃ copy, walked.arena.nodeAt? walked.root [0, 1, 0] = some copy ∧ 17 ≤ copy.position := by
  have sound : Arena.scopes.WellFormed := by decide
  obtain ⟨walked, stamps, shares⟩ :=
    numbered.stamp_shares OwnCache.resolve .file sound (.ofPosition 16)
  have small : (numbered.stamp OwnCache.resolve .file Arena.scopes (.ofPosition 16)).all
      (fun walked => decide walked.arena.Fits) = true := by decide +kernel
  rw [stamps, Option.all_some, decide_eq_true_eq] at small
  obtain ⟨size, replaced, _, same⟩ := shares small
  have growth : Arena.scopes.growth (.ofPosition 16) = 9 := by decide +kernel
  have affected : Arena.scopes.isAffected (.ofPosition 16) = true := by decide +kernel
  obtain ⟨plain, atPlain, stays, _⟩ := replaced [1] (.ofPosition 11) (by decide +kernel)
  obtain ⟨copy, atCopy, _, new⟩ := replaced [0, 1, 0] (.ofPosition 7) (by decide +kernel)
  obtain ⟨later, _⟩ := new (by decide +kernel)
  have unaffected : Arena.scopes.isAffected (.ofPosition 11) = false := by decide +kernel
  refine ⟨sound, walked, stamps, small, size.trans (by rw [growth]; rfl), fun kept => ?_,
    stays.mpr unaffected ▸ atPlain, copy, atCopy, later⟩
  rw [same.mp kept] at affected
  cases affected

end Stamper

end EnumStamp
