import EnumStamp.Proofs.Stamping.Ledger
import EnumStamp.Proofs.Tree.Stamped

set_option autoImplicit false

namespace EnumStamp

/-- Whether the values of stamps are those of a table. -/
def Agrees (values : String → String) (stamps : List MemberStamp) : Prop :=
  ∀ stamp ∈ stamps, values stamp.key = stamp.value

theorem Agrees.of_prefix {values : String → String} {early late : List EnumStampRecord}
    (agrees : Agrees values (stampsOf late)) (kept : early <+: late) :
    Agrees values (stampsOf early) := by
  obtain ⟨more, rfl⟩ := kept
  intro stamp member
  apply agrees
  rw [stampsOf, List.flatMap_append]
  exact List.mem_append_left _ member

/-- A slot with the tree that is to be in it. -/
structure Arena.Fills (arena : Arena) (slots : List NodeId) (trees : List Tree) : Prop where
  sound : arena.WellFormed
  holds : ∀ slot ∈ slots, arena.Holds slot
  reads : slots.map arena.tree = trees

theorem Arena.Offers.fills {arena : Arena} {id : NodeId} {tree : Tree}
    (offers : arena.Offers id tree) : arena.Fills [id] [tree] where
  sound := offers.sound
  holds := by
    intro slot member
    rw [List.mem_singleton.mp member]
    exact .inl offers.has
  reads := congrArg (fun tree => [tree]) offers.reads

/-- A slot that was filled stays filled while more slots are. -/
theorem Arena.Fills.cons {before after : Arena} {slot : NodeId} {slots : List NodeId} {tree : Tree}
    {trees : List Tree} (first : before.Fills [slot] [tree]) (grown : before.Extends after)
    (others : after.Fills slots trees) : after.Fills (slot :: slots) (tree :: trees) where
  sound := others.sound
  holds := by
    intro other member
    rcases List.mem_cons.mp member with rfl | later
    · exact (first.holds _ (List.mem_singleton_self _)).extends grown
    · exact others.holds other later
  reads := by
    have kept := grown.tree_slot first.sound (first.holds _ (List.mem_singleton_self _))
    have reads : before.tree slot = tree := (List.cons.inj first.reads).1
    rw [List.map_cons, kept, reads, others.reads]

/-- An enum that is given other members is copied with their trees in the place of those of its
own. -/
theorem Arena.Fills.offers_members {before after : Arena} {members : List NodeId}
    {trees : List Tree} (fills : after.Fills members trees) (grown : before.Extends after)
    (sound : before.WellFormed) {id : NodeId} {header : Header} {decl : EnumDecl}
    (found : before.header? id = some header)
    (stored : before.payloadAt? header = some (.enumeration decl))
    (fits : (after.updateEnum id { decl with members }).1.Fits) :
    (after.updateEnum id { decl with members }).1.Offers
      (after.updateEnum id { decl with members }).2
      (.node (header.label (some (.enumeration decl)))
        ((decl.modifiers.getD []).map before.tree ++ before.tree decl.name :: trees)) := by
  have held := slots_hold sound found stored
  have inList : ∀ id ∈ decl.modifiers.getD [], before.Holds id :=
    fun other member => held other (List.mem_append_left _ member)
  have inName : before.Holds decl.name :=
    held _ (List.mem_append_right _ (List.mem_cons_self ..))
  have copied := offers_update fills.sound fits (grown.header? found) (grown.payloadAt? stored) rfl
    rfl (by
      intro slot isSlot
      rcases List.mem_append.mp isSlot with modifier | rest
      · exact (inList slot modifier).extends grown
      · rcases List.mem_cons.mp rest with rfl | member
        · exact inName.extends grown
        · exact fills.holds slot member)
  have modifiers : (decl.modifiers.getD []).map after.tree =
      (decl.modifiers.getD []).map before.tree :=
    grown.map_tree sound (fun tree => tree) inList
  have slots : (Payload.enumeration { decl with members }).slots.map after.tree =
      (decl.modifiers.getD []).map before.tree ++ before.tree decl.name :: trees := by
    rw [Payload.slots, List.map_append, List.map_cons, fills.reads, modifiers,
      grown.tree_slot sound inName]
  rw [← slots]
  exact copied

/-- A node that is given replacements for its children is copied with their trees. -/
theorem Arena.Fills.offers_children {before after : Arena} {results : List NodeId}
    {trees : List Tree} (fills : after.Fills results trees) (grown : before.Extends after)
    (sound : before.WellFormed) {id : NodeId} {header : Header}
    (found : before.header? id = some header)
    (count : results.length = (before.children id).length)
    (fits : (after.updateChildren id results).1.Fits) :
    (after.updateChildren id results).1.Offers (after.updateChildren id results).2
      (.node (header.label (before.payloadAt? header))
        ((Payload.fillPresent (before.slotsAt header) results).map after.tree)) := by
  have children : after.children id = before.children id :=
    grown.children_eq sound (has_of_header found)
  have payload : after.payloadAt? header = before.payloadAt? header :=
    grown.payloadAt?_eq (sound.isPlaced found)
  have slots : after.slotsAt header = before.slotsAt header := by
    rw [slotsAt, payload, slotsAt]
  have copied := offers_updateChildren fills.sound (grown.header? found)
    (count.trans (congrArg List.length children.symm)) fills.holds fits
  rw [payload, slots] at copied
  exact copied

variable {σ : Type} {resolve : Cache.Resolver σ} {file : Option String} {values : String → String}

namespace Progress

/-- A member with a simple name is copied with the value on record. -/
theorem visitMember_offers (progress : Progress σ) (sound : progress.arena.WellFormed)
    (enumName : String) {id : NodeId} {name : String}
    (atName : progress.arena.memberName? id = some name)
    (fits : (progress.visitMember resolve enumName id).2.arena.Fits)
    (agrees : Agrees values (progress.visitMember resolve enumName id).1.stamp?.toList) :
    (progress.visitMember resolve enumName id).2.arena.Offers
      (progress.visitMember resolve enumName id).1.1
      ((progress.arena.tree id).stampedMember values enumName) := by
  obtain ⟨member, atMember, _⟩ := Arena.memberName?_eq_some_iff.mp atName
  obtain ⟨header, found, stored⟩ := Arena.payload_of_enumMember? atMember
  rw [progress.visitMember_of_name resolve enumName atMember atName] at fits agrees ⊢
  let answer := resolve (Cache.key enumName name) progress.cache
  let created := progress.arena.createString answer.1.value
  have value : values (Cache.key enumName name) = answer.1.value :=
    agrees _ (List.mem_singleton_self _)
  have grown : progress.arena.Extends created.1 := Arena.extends_createString _ _
  have literal := Arena.offers_createString sound answer.1.value
    (fits.of_extends (Arena.extends_update _ _ _))
  have inPool := sound.isPlaced found
  have atCreated : created.1.payloadAt? header = some (.enumMember member) :=
    (grown.payloadAt?_eq inPool).trans stored
  have name : progress.arena.Holds member.name :=
    Arena.slotsAt_holds sound found _ (Arena.slotsAt_of_payload stored ▸ List.mem_cons_self ..)
  have copied := Arena.offers_update literal.sound fits (grown.header? found) atCreated rfl rfl (by
    intro slot isSlot
    rcases List.mem_cons.mp isSlot with rfl | isLast
    · exact name.extends grown
    · cases List.mem_singleton.mp isLast
      exact .inl literal.has)
  rw [Arena.stampedMember_of_name sound values enumName found stored atName, value]
  have slots : [created.1.tree member.name, created.1.tree created.2] =
      [progress.arena.tree member.name, Tree.string answer.1.value] := by
    rw [grown.tree_slot sound name, literal.reads]
    rfl
  rw [← slots]
  exact copied

/-- Any member's slot gets the stamped tree of the member. -/
theorem visitMember_fills (progress : Progress σ) (sound : progress.arena.WellFormed)
    (enumName : String) {id : NodeId} (holds : progress.arena.Holds id)
    (fits : (progress.visitMember resolve enumName id).2.arena.Fits)
    (agrees : Agrees values (progress.visitMember resolve enumName id).1.stamp?.toList) :
    (progress.visitMember resolve enumName id).2.arena.Fills
      [(progress.visitMember resolve enumName id).1.1]
      [(progress.arena.tree id).stampedMember values enumName] := by
  cases atName : progress.arena.memberName? id with
  | none =>
    rw [progress.visitMember_of_none resolve enumName atName,
      Arena.stampedMember_of_none sound values enumName atName]
    refine ⟨sound, ?_, rfl⟩
    intro slot member
    rw [List.mem_singleton.mp member]
    exact holds
  | some name =>
    exact (progress.visitMember_offers sound enumName atName fits agrees).fills

/-- The slots with the members of an enum get the stamped trees of the members. -/
theorem visitMembers_fills (progress : Progress σ) (sound : progress.arena.WellFormed)
    (enumName : String) (ids : List NodeId) (held : ∀ id ∈ ids, progress.arena.Holds id)
    (fits : (progress.visitMembers resolve enumName ids).2.arena.Fits)
    (agrees : Agrees values ((progress.visitMembers resolve enumName ids).1.filterMap Visited.stamp?)) :
    (progress.visitMembers resolve enumName ids).2.arena.Fills
      ((progress.visitMembers resolve enumName ids).1.map Prod.fst)
      (ids.map fun id => (progress.arena.tree id).stampedMember values enumName) := by
  induction ids generalizing progress with
  | nil => exact ⟨sound, (fun _ member => by cases member), rfl⟩
  | cons id ids ih =>
    let first := progress.visitMember resolve enumName id
    let others := first.2.visitMembers resolve enumName ids
    have grown : progress.arena.Extends first.2.arena := progress.visitMember_extends enumName id
    have more : first.2.arena.Extends others.2.arena := first.2.visitMembers_extends enumName ids
    have firstAgrees : Agrees values first.1.stamp?.toList := by
      intro stamp member
      apply agrees
      rw [visitMembers_cons]
      exact List.mem_filterMap.mpr ⟨first.1, List.mem_cons_self .., Option.mem_toList.mp member⟩
    have othersAgree : Agrees values (others.1.filterMap Visited.stamp?) := by
      intro stamp member
      obtain ⟨visited, among, same⟩ := List.mem_filterMap.mp member
      exact agrees stamp (List.mem_filterMap.mpr ⟨visited, List.mem_cons_of_mem _ among, same⟩)
    have early := progress.visitMember_fills sound enumName (held id (List.mem_cons_self ..))
      (fits.of_extends more) firstAgrees
    have late := ih first.2 early.sound
      (fun other member => (held other (List.mem_cons_of_mem _ member)).extends grown) fits
      othersAgree
    have same : ids.map (fun id => (first.2.arena.tree id).stampedMember values enumName) =
        ids.map fun id => (progress.arena.tree id).stampedMember values enumName :=
      grown.map_tree sound (Tree.stampedMember values enumName)
        fun other member => held other (List.mem_cons_of_mem _ member)
    rw [same] at late
    exact early.cons more late

/-- An enum that is stamped is copied with the stamped trees of its members. -/
theorem visitEnum_offers (progress : Progress σ) (sound : progress.arena.WellFormed) {id : NodeId}
    {header : Header} (found : progress.arena.header? id = some header)
    (isDoc : header.kind.isDoc = false) (isEnum : header.kind = Construct.enumDeclaration.kind)
    (fits : (progress.visitEnum resolve file id).2.arena.Fits)
    (agrees : Agrees values (stampsOf (progress.visitEnum resolve file id).2.records)) :
    (progress.visitEnum resolve file id).2.arena.Offers (progress.visitEnum resolve file id).1
      ((progress.arena.tree id).stamped values) := by
  cases chosen : progress.arena.constEnum? id with
  | none =>
    obtain ⟨log, same⟩ := progress.visitEnum_of_other resolve file chosen
    rw [same, Arena.stamped_of_plain sound values found isDoc isEnum chosen]
    exact ⟨sound, Arena.has_of_header found, rfl⟩
  | some isConst =>
    obtain ⟨decl, enumName⟩ := isConst
    obtain ⟨stored, stamped⟩ :=
      Arena.stamped_of_const sound values found isDoc isEnum chosen
    rw [progress.visitEnum_of_const resolve file chosen] at fits agrees ⊢
    rw [stamped]
    let said := (progress.say (.enumEntered enumName)).say
      (.constEnumStarted enumName ((progress.arena.modifiers decl.modifiers).contains .exported))
    let visited := said.visitMembers resolve enumName decl.members
    have grown : progress.arena.Extends visited.2.arena :=
      said.visitMembers_extends enumName decl.members
    have inMembers : ∀ id ∈ decl.members, progress.arena.Holds id := by
      intro other member
      apply Arena.slots_hold sound found stored
      exact List.mem_append_right _ (List.mem_cons_of_mem _ member)
    have memberAgrees : Agrees values (visited.1.filterMap Visited.stamp?) := by
      intro stamp member
      apply agrees
      exact List.mem_flatMap.mpr ⟨_, List.mem_append_right _ (List.mem_singleton_self _), member⟩
    have fills := said.visitMembers_fills sound enumName decl.members inMembers
      (fits.of_extends (Arena.extends_update _ _ _)) memberAgrees
    exact fills.offers_members grown sound found stored fits

theorem visitMembers_records (progress : Progress σ) (enumName : String) (ids : List NodeId) :
    (progress.visitMembers resolve enumName ids).2.records = progress.records := by
  induction ids generalizing progress with
  | nil => rfl
  | cons id ids ih =>
    have first : (progress.visitMember resolve enumName id).2.records = progress.records := by
      cases atName : progress.arena.memberName? id with
      | none => rw [progress.visitMember_of_none resolve enumName atName, say]
      | some name =>
        obtain ⟨member, atMember, _⟩ := Arena.memberName?_eq_some_iff.mp atName
        rw [progress.visitMember_of_name resolve enumName atMember atName]
    exact (ih _).trans first

theorem visitEnum_records_prefix (progress : Progress σ) (id : NodeId) :
    progress.records <+: (progress.visitEnum resolve file id).2.records := by
  cases chosen : progress.arena.constEnum? id with
  | none =>
    obtain ⟨log, same⟩ := progress.visitEnum_of_other resolve file chosen
    have kept : (progress.visitEnum resolve file id).2.records = progress.records := by
      rw [same]
    exact kept.symm ▸ List.prefix_refl _
  | some isConst =>
    obtain ⟨decl, enumName⟩ := isConst
    rw [progress.visitEnum_of_const resolve file chosen]
    simp only [stampDecl, visitMembers_records]
    exact List.prefix_append _ _

end Progress

theorem Stamps.records_prefix {id result : NodeId} {before after : Progress σ}
    (stamped : Stamps resolve file id before result after) : before.records <+: after.records := by
  induction stamped using Stamps.induct (fun _ before _ after =>
    before.records <+: after.records) with
  | missing => exact List.prefix_refl _
  | doc => exact List.prefix_refl _
  | enumeration => exact Progress.visitEnum_records_prefix (Progress.say _ _) _
  | other _ _ _ _ ih => exact ih
  | nil => exact List.prefix_refl _
  | cons _ _ ihFirst ihOthers => exact ihFirst.trans ihOthers

theorem StampsAll.records_prefix {ids results : List NodeId} {before after : Progress σ}
    (stamped : StampsAll resolve file ids before results after) :
    before.records <+: after.records := by
  induction ids generalizing results before with
  | nil =>
    cases stamped
    exact List.prefix_refl _
  | cons id ids ih =>
    cases stamped with
    | cons first others => exact first.records_prefix.trans (ih others)

/-- The node that takes the place of another has the stamped tree of the other. -/
theorem Stamps.offers {id result : NodeId} {before after : Progress σ}
    (stamped : Stamps resolve file id before result after) (sound : before.arena.WellFormed)
    (has : before.arena.Has id) (fits : after.arena.Fits)
    (agrees : Agrees values (stampsOf after.records)) :
    after.arena.Offers result ((before.arena.tree id).stamped values) := by
  -- Siblings are read in the arena before the first of them is stamped. Their trees are the same
  -- when their turn comes, as the arena has only grown.
  induction stamped using Stamps.induct (fun ids before results after =>
    before.arena.WellFormed → (∀ id ∈ ids, before.arena.Has id) → after.arena.Fits →
      Agrees values (stampsOf after.records) →
      after.arena.Fills results (ids.map fun id => (before.arena.tree id).stamped values)) with
  | missing absent => exact absurd has (Arena.kind?_eq_none_iff.mp absent)
  | @doc id before _ found isDoc =>
    obtain ⟨header, atHeader, rfl⟩ := Arena.header_of_kind found
    rw [Arena.stamped_of_doc sound values atHeader isDoc]
    exact ⟨sound, has, rfl⟩
  | @enumeration id before _ found noDoc isEnum =>
    obtain ⟨header, atHeader, rfl⟩ := Arena.header_of_kind found
    exact Progress.visitEnum_offers (before.say _) sound atHeader noDoc isEnum fits agrees
  | @other id before after _ results found noDoc noEnum below ih =>
    obtain ⟨header, atHeader, rfl⟩ := Arena.header_of_kind found
    have filled : after.arena.Fills results
        ((before.arena.children id).map fun child => (before.arena.tree child).stamped values) :=
      ih sound (fun child member => sound.child_has member)
        (fits.of_extends (after.updateChildren_extends id results)) agrees
    have copied := filled.offers_children below.extends sound atHeader below.length_eq fits
    have reads := filled.reads
    rw [Arena.children_eq_filter atHeader] at reads
    have empty : after.arena.tree .absent = (before.arena.tree .absent).stamped values := by
      rw [Arena.tree_absent, Arena.tree_absent, Tree.stamped]
    have filling : (Payload.fillPresent (before.arena.slotsAt header) results).map
        after.arena.tree = (before.arena.slotsAt header).map fun slot =>
          (before.arena.tree slot).stamped values := Arena.map_fillPresent empty reads
    rw [Arena.stamped_of_other sound values atHeader noDoc noEnum, ← filling]
    exact copied
  | nil =>
    rename_i sound _ _ _
    exact ⟨sound, (fun _ member => by cases member), rfl⟩
  | @cons id ids before between after result results first others ihFirst ihOthers =>
    rename_i sound has fits agrees
    have grown : before.arena.Extends between.arena := first.extends
    have early := ihFirst sound (has id (List.mem_cons_self ..)) (fits.of_extends others.extends)
      (agrees.of_prefix others.records_prefix)
    have present : ∀ other ∈ ids, between.arena.Has other :=
      fun other member => grown.has (has other (List.mem_cons_of_mem _ member))
    have late := ihOthers early.sound present fits agrees
    have same : ids.map (fun id => (between.arena.tree id).stamped values) =
        ids.map fun id => (before.arena.tree id).stamped values :=
      grown.map_tree sound (Tree.stamped values)
        fun other member => .inl (has other (List.mem_cons_of_mem _ member))
    rw [same] at late
    exact early.fills.cons others.extends late

/-- The tree of any root is stamped, also where there is no node. -/
theorem Stamps.offers_root {arena : Arena} (sound : arena.WellFormed) {root result : NodeId}
    {before after : Progress σ} (stamped : Stamps resolve file root before result after)
    (same : before.arena = arena) (fits : after.arena.Fits)
    (agrees : Agrees values (stampsOf after.records)) :
    after.arena.WellFormed ∧ after.arena.tree result = (arena.tree root).stamped values := by
  subst same
  by_cases has : before.arena.Has root
  · have offers := stamped.offers sound has fits agrees
    exact ⟨offers.sound, offers.reads⟩
  · obtain ⟨rfl, rfl⟩ := stamped.unique (.missing (Arena.kind?_eq_none_iff.mpr has))
    refine ⟨sound, ?_⟩
    rw [Arena.tree_of_not_has has]
    split <;> rfl

/-- Stamping below a root of a well-formed arena with a cache of one's own always has an outcome.
Unless the arena outgrows the handles, it is well-formed again, and the tree of the new root is the
stamped tree of the old one for the values that the cache holds in the end. -/
theorem Stamper.stamp_tree (stamper : Stamper (OwnCache × Cache.Supply)) (mode : Mode)
    {arena : Arena} (sound : arena.WellFormed) (root : NodeId) :
    ∃ walked, stamper.stamp OwnCache.resolve mode arena root = some walked ∧
      (walked.arena.Fits →
        walked.arena.WellFormed ∧
        ∀ values : String → String,
          (∀ key value, walked.stamper.cache.1.get? key = some value → values key = value) →
          walked.arena.tree walked.root = (arena.tree root).stamped values) := by
  obtain ⟨result, final, stamped, stamps⟩ := stamper.exists_stamp OwnCache.resolve mode sound root
  refine ⟨_, stamps, fun fits => ?_⟩
  have correct : ∀ values : String → String,
      (∀ key value, final.cache.1.get? key = some value → values key = value) →
      final.arena.WellFormed ∧ final.arena.tree result = (arena.tree root).stamped values := by
    intro values agree
    apply stamped.offers_root sound rfl fits
    intro stamp member
    apply agree
    have held := Stamper.held_stamp OwnCache.resolve OwnCache.memoising stamps stamp.key stamp.value
    apply held.mpr
    right
    rw [stampsOf_answers]
    exact List.mem_map.mpr ⟨stamp, member, rfl⟩
  refine ⟨?_, fun values agree => (correct values agree).2⟩
  apply (correct (fun key => (final.cache.1.get? key).getD "") _).1
  intro key value found
  rw [found, Option.getD_some]

/-- A file with an enum in a namespace and one after it, stamped with numbered values. -/
theorem Stamper.stamp_tree_scopes :
    Arena.scopes.WellFormed ∧
      ∃ walked,
        numbered.stamp OwnCache.resolve .file Arena.scopes (.ofPosition 16) = some walked ∧
        walked.arena.Fits ∧ walked.arena.WellFormed ∧
        walked.stamper.cache.1.get? "A_X" = some "uuid:1" ∧
        walked.stamper.cache.1.get? "B_X" = some "uuid:2" ∧
        walked.arena.tree walked.root = (Arena.scopes.tree (.ofPosition 16)).stamped fun key =>
          (walked.stamper.cache.1.get? key).getD "" := by
  have sound : Arena.scopes.WellFormed := by decide
  refine ⟨sound, ?_⟩
  obtain ⟨walked, stamps, correct⟩ := numbered.stamp_tree .file sound (.ofPosition 16)
  have small : (numbered.stamp OwnCache.resolve .file Arena.scopes (.ofPosition 16)).all
      (fun walked => decide walked.arena.Fits &&
        walked.stamper.cache.1.get? "A_X" == some "uuid:1" &&
        walked.stamper.cache.1.get? "B_X" == some "uuid:2") = true := by decide +kernel
  simp only [stamps, Option.all_some, Bool.and_eq_true, decide_eq_true_eq, beq_iff_eq] at small
  obtain ⟨⟨fits, first⟩, second⟩ := small
  obtain ⟨after, tree⟩ := correct fits
  refine ⟨walked, stamps, fits, after, first, second, tree _ fun key value found => ?_⟩
  rw [found, Option.getD_some]

end EnumStamp
