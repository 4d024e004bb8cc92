import EnumStamp.Proofs.Stamping.Crew
import EnumStamp.Proofs.Stamping.Restatement
import EnumStamp.Proofs.Tree.Similar

set_option autoImplicit false

namespace EnumStamp

open Cache

namespace EnumStampRecord

/-- Whether a record is about the node that the record of an earlier walk left, and the two
declarations say the same. -/
structure Follows (first second : EnumStampRecord) : Prop where
  source : second.source = first.result
  enumName : second.enumName = first.enumName
  exported : second.exported = first.exported
  names : second.members.map MemberStamp.member = first.members.map MemberStamp.member
  kept : second.kept = first.kept

/-- Whether a record is about the node that the record of an earlier walk left, and says the same
as that record, with the same keys and values. -/
structure Repeats (first second : EnumStampRecord) : Prop where
  source : second.source = first.result
  enumName : second.enumName = first.enumName
  exported : second.exported = first.exported
  members : second.members = first.members
  kept : second.kept = first.kept

/-- The keys and the values of a record are settled by its names. -/
theorem members_eq_map {values : String → String} {record : EnumStampRecord}
    (keyed : record.Keyed) (agrees : Agrees values record.members) :
    record.members = (record.members.map MemberStamp.member).map fun name =>
      let key := Cache.key record.enumName name
      ⟨name, key, values key⟩ := by
  rw [List.map_map]
  conv_lhs => rw [← List.map_id record.members]
  apply List.map_congr_left
  intro stamp member
  obtain ⟨name, key, value⟩ := stamp
  have isKey : key = Cache.key record.enumName name := keyed _ member
  have isValue : values key = value := agrees _ member
  show MemberStamp.mk name key value = ⟨name, _, values _⟩
  rw [← isKey, isValue]

theorem Follows.repeats {values : String → String} {first second : EnumStampRecord}
    (follows : first.Follows second) (keyed : first.Keyed) (alsoKeyed : second.Keyed)
    (agrees : Agrees values first.members) (alsoAgrees : Agrees values second.members) :
    first.Repeats second where
  source := follows.source
  enumName := follows.enumName
  exported := follows.exported
  members := by
    rw [members_eq_map keyed agrees, members_eq_map alsoKeyed alsoAgrees, follows.names,
      follows.enumName]
  kept := follows.kept

/-- The keys of a record are settled by its names. -/
theorem map_fst_answers {record : EnumStampRecord} (keyed : record.Keyed) :
    record.answers.map Prod.fst =
      (record.members.map MemberStamp.member).map (Cache.key record.enumName) := by
  rw [answers, List.map_map, List.map_map]
  apply List.map_congr_left
  intro stamp member
  exact keyed stamp member

theorem Follows.map_fst_answers {first second : EnumStampRecord} (follows : first.Follows second)
    (keyed : first.Keyed) (alsoKeyed : second.Keyed) :
    second.answers.map Prod.fst = first.answers.map Prod.fst := by
  rw [EnumStampRecord.map_fst_answers keyed, EnumStampRecord.map_fst_answers alsoKeyed,
    follows.names, follows.enumName]

end EnumStampRecord

open EnumStampRecord

/-- Two records of one declaration say the same. -/
theorem Arena.Describes.follows {arena : Arena} {first second : EnumStampRecord}
    (describes : arena.Describes first.result first) (source : second.source = first.result)
    (alsoDescribes : arena.Describes second.source second) : first.Follows second := by
  rw [source] at alsoDescribes
  obtain ⟨decl, atDecl, names, kept⟩ := describes.members
  obtain ⟨other, atOther, otherNames, otherKept⟩ := alsoDescribes.members
  have same : other = decl := by
    rw [atDecl] at atOther
    exact (Option.some.inj atOther).symm
  subst same
  refine ⟨source, ?_, ?_, ?_, ?_⟩
  · have enumName := alsoDescribes.enumName
    rw [describes.enumName] at enumName
    exact (Option.some.inj enumName).symm
  · rw [describes.exported, alsoDescribes.exported]
  · rw [names, otherNames]
  · rw [kept, otherKept]

/-- If the results of some records are the sources of others, in order, the one records follow the
others. -/
theorem Declares.follow {arena : Arena} {ids : List NodeId} {first second : List EnumStampRecord}
    (declares : Declares EnumStampRecord.result arena ids [] first)
    (again : Declares EnumStampRecord.source arena ids [] second) :
    List.Forall₂ Follows first second := by
  obtain ⟨_, rfl, results, described⟩ := declares
  obtain ⟨_, rfl, sources, alsoDescribed⟩ := again
  have same := results.trans sources.symm
  rw [map_eq_map_iff_forall₂, List.forall₂_iff_zip] at same
  rw [List.forall₂_iff_zip]
  refine ⟨same.1, ?_⟩
  intro one other paired
  obtain ⟨isFirst, isSecond⟩ := List.of_mem_zip paired
  exact (described one isFirst).follows (same.2 paired).symm (alsoDescribed other isSecond)

/-- Records that follow others list the same keys. -/
theorem keys_eq_of_follow {first second : List EnumStampRecord}
    (follow : List.Forall₂ Follows first second) (keyed : ∀ record ∈ first, record.Keyed)
    (alsoKeyed : ∀ record ∈ second, record.Keyed) :
    (second.flatMap EnumStampRecord.answers).map Prod.fst =
      (first.flatMap EnumStampRecord.answers).map Prod.fst := by
  induction follow with
  | nil => rfl
  | cons head _ ih =>
    obtain ⟨here, later⟩ := List.forall_mem_cons.mp keyed
    obtain ⟨alsoHere, alsoLater⟩ := List.forall_mem_cons.mp alsoKeyed
    rw [List.flatMap_cons, List.flatMap_cons, List.map_append, List.map_append,
      head.map_fst_answers here alsoHere, ih later alsoLater]

namespace Stamper

variable {σ : Type} {resolve : Resolver σ} {held : σ → String → Option String}

/-- The stamps of a walk have the values that a memoising cache holds in the end. -/
theorem agrees_stamp (memoising : Memoising resolve held) {stamper : Stamper σ} {mode : Mode}
    {arena : Arena} {root : NodeId} {walked : Walked σ}
    (stamps : stamper.stamp resolve mode arena root = some walked) {cache : σ}
    (ended : walked.stamper.cache = cache) :
    Agrees (fun key => (held cache key).getD "") (stampsOf walked.records) := by
  subst ended
  intro stamp member
  have answer : (stamp.key, stamp.value) ∈ walked.records.flatMap EnumStampRecord.answers := by
    rw [stampsOf_answers]
    exact List.mem_map.mpr ⟨stamp, member, rfl⟩
  have found := (held_stamp resolve memoising stamps stamp.key stamp.value).mpr (.inr answer)
  dsimp only
  rw [found, Option.getD_some]

/-- A walk that asks for nothing but keys that have values leaves a memoising cache as it is. -/
theorem cache_eq_of_held (memoising : Memoising resolve held) {stamper : Stamper σ} {mode : Mode}
    {arena : Arena} {root : NodeId} {walked : Walked σ}
    (stamps : stamper.stamp resolve mode arena root = some walked)
    (known : ∀ answer ∈ walked.records.flatMap EnumStampRecord.answers,
      ∃ value, held stamper.cache answer.1 = some value) :
    walked.stamper.cache = stamper.cache := by
  rw [(stamp_booked resolve stamps).listed] at known
  rw [stamp_eq_perform] at stamps
  obtain ⟨stamped, log, run, _⟩ := perform_eq_some resolve stamps
  have same := memoising.run_of_held (mode.consult arena root) stamper.cache #[] known
  rw [run] at same
  exact same

section Follow

variable {stamper : Stamper σ} {mode again : Mode} {arena : Arena} {root : NodeId}
  {once twice : Walked σ} (memoising : Memoising resolve held)
  (stamps : stamper.stamp resolve mode arena root = some once)
  (stampsAgain : once.stamper.stamp resolve again once.arena once.root = some twice)
  (follow : List.Forall₂ Follows once.records twice.records)

include memoising stamps stampsAgain follow

/-- A second walk over what a first one left leaves the cache as it is. -/
theorem cache_eq_of_follow : twice.stamper.cache = once.stamper.cache := by
  have keys := keys_eq_of_follow follow (stamp_booked resolve stamps).keyed
    (stamp_booked resolve stampsAgain).keyed
  apply cache_eq_of_held memoising stampsAgain
  intro answer member
  have isKey : answer.1 ∈ (twice.records.flatMap EnumStampRecord.answers).map Prod.fst :=
    List.mem_map.mpr ⟨answer, member, rfl⟩
  rw [keys] at isKey
  obtain ⟨⟨key, value⟩, among, same⟩ := List.mem_map.mp isKey
  have found := (held_stamp resolve memoising stamps key value).mpr (.inr among)
  exact ⟨value, same ▸ found⟩

/-- A second walk over what a first one left repeats its records. -/
theorem repeats_of_follow : List.Forall₂ Repeats once.records twice.records := by
  have unchanged := cache_eq_of_follow memoising stamps stampsAgain follow
  have keyed := (stamp_booked resolve stamps).keyed
  have alsoKeyed := (stamp_booked resolve stampsAgain).keyed
  let values (key : String) : String := (held once.stamper.cache key).getD ""
  have agrees : Agrees values (stampsOf once.records) := agrees_stamp memoising stamps rfl
  have alsoAgrees : Agrees values (stampsOf twice.records) :=
    agrees_stamp memoising stampsAgain unchanged
  have within {records : List EnumStampRecord} {record : EnumStampRecord}
      (all : Agrees values (stampsOf records)) (member : record ∈ records) :
      Agrees values record.members :=
    fun stamp isStamp => all stamp (List.mem_flatMap.mpr ⟨record, member, isStamp⟩)
  rw [List.forall₂_iff_zip] at follow ⊢
  refine ⟨follow.1, ?_⟩
  intro first second paired
  obtain ⟨isFirst, isSecond⟩ := List.of_mem_zip paired
  exact (follow.2 paired).repeats (keyed first isFirst) (alsoKeyed second isSecond)
    (within agrees isFirst) (within alsoAgrees isSecond)

end Follow

/-- Stamping what has been stamped, with a cache of either kind: the second walk leaves the cache as
it is, its records repeat those of the first walk, and the new root is similar to the old one. -/
theorem stamp_again (holding : Holding) (stamper : Stamper holding.State) (mode again : Mode)
    {arena : Arena} (sound : arena.WellFormed) (root : NodeId) :
    ∃ once, stamper.stamp holding.resolve mode arena root = some once ∧
      once.stamper.records = stamper.records ++ once.records ∧
      (once.arena.Fits →
        ∃ twice,
          once.stamper.stamp holding.resolve again once.arena once.root = some twice ∧
          twice.stamper.cache = once.stamper.cache ∧
          twice.stamper.records = once.stamper.records ++ twice.records ∧
          List.Forall₂ Repeats once.records twice.records ∧
          (twice.arena.Fits → twice.arena.similar? once.root twice.root = some true)) := by
  have memoising := holding.memoising
  obtain ⟨result, final, stamped, stamps⟩ := stamper.exists_stamp holding.resolve mode sound root
  refine ⟨_, stamps, rfl, fun fits => ?_⟩
  obtain ⟨later, declares, _⟩ := stamped.restates_root sound fits
  let once := stamper.walked result final (mode.closing arena root result)
  obtain ⟨last, ended, restamped, stampsAgain⟩ :=
    once.stamper.exists_stamp holding.resolve again later result
  have follow : List.Forall₂ Follows final.records ended.records :=
    declares.follow (restamped.declares_root later)
  have unchanged := cache_eq_of_follow memoising stamps stampsAgain follow
  have repeats := repeats_of_follow memoising stamps stampsAgain follow
  refine ⟨_, stampsAgain, unchanged, rfl, repeats, fun room => ?_⟩
  obtain ⟨sound', _, replaced⟩ := restamped.restates_root later room
  rcases replaced with ⟨has, hasLast⟩ | ⟨same, _⟩
  · let values (key : String) : String := (holding.get? final.cache key).getD ""
    have agrees : Agrees values (stampsOf final.records) := agrees_stamp memoising stamps rfl
    have alsoAgrees : Agrees values (stampsOf ended.records) :=
      agrees_stamp memoising stampsAgain unchanged
    have first := (stamped.offers_root sound rfl fits agrees).2
    have second := (restamped.offers_root later rfl room alsoAgrees).2
    have grown : final.arena.Extends ended.arena := restamped.extends
    apply Arena.similar?_of_tree_eq sound' (grown.has has) hasLast
    calc
      ended.arena.tree result = final.arena.tree result := grown.tree_eq later has
      _ = ((arena.tree root).stamped values).stamped values := by
        rw [first, Tree.stamped_stamped]
      _ = ended.arena.tree last := by
        rw [← first, second]
  · show ended.arena.similar? result last = some true
    rw [same]
    exact Arena.similar?_of_outline_eq sound' rfl

/-- A file with an enum in a namespace and one after it, stamped twice with a cache of its own. -/
theorem stamp_again_scopes :
    Arena.scopes.WellFormed ∧
      ∃ once twice : Walked (OwnCache × Supply),
        numbered.stamp OwnCache.resolve .file Arena.scopes (.ofPosition 16) = some once ∧
        once.stamper.stamp OwnCache.resolve .file once.arena once.root = some twice ∧
        once.arena.Fits ∧ twice.arena.Fits ∧ twice.stamper.cache = once.stamper.cache ∧
        once.records.map EnumStampRecord.enumName = ["A", "B"] ∧
        List.Forall₂ Repeats once.records twice.records ∧
        twice.arena.similar? once.root twice.root = some true := by
  have sound : Arena.scopes.WellFormed := by decide
  have small : ∀ once, numbered.stamp OwnCache.resolve .file Arena.scopes (.ofPosition 16) =
      some once → (once.arena.Fits ∧ once.records.map EnumStampRecord.enumName = ["A", "B"]) ∧
        ∀ twice, once.stamper.stamp OwnCache.resolve .file once.arena once.root = some twice →
          twice.arena.Fits := by
    have checked : (numbered.stamp OwnCache.resolve .file Arena.scopes (.ofPosition 16)).all
        (fun once => decide once.arena.Fits &&
          once.records.map EnumStampRecord.enumName == ["A", "B"] &&
          (once.stamper.stamp OwnCache.resolve .file once.arena once.root).all
            fun twice => decide twice.arena.Fits) = true := by decide +kernel
    intro once stamps
    rw [stamps, Option.all_some, Bool.and_eq_true, Bool.and_eq_true, decide_eq_true_eq,
      beq_iff_eq] at checked
    refine ⟨checked.1, fun twice stampsAgain => ?_⟩
    have checkedAgain := checked.2
    rw [stampsAgain, Option.all_some, decide_eq_true_eq] at checkedAgain
    exact checkedAgain
  obtain ⟨once, stamps, _, repeated⟩ :=
    stamp_again .own numbered .file .file sound (.ofPosition 16)
  obtain ⟨⟨fits, names⟩, room⟩ := small once stamps
  obtain ⟨twice, stampsAgain, unchanged, _, repeats, similar⟩ := repeated fits
  have roomAgain := room twice stampsAgain
  exact ⟨sound, once, twice, stamps, stampsAgain, fits, roomAgain, unchanged, names, repeats,
    similar roomAgain⟩

end Stamper

end EnumStamp
