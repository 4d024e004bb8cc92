import EnumStamp.Proofs.Cache.Distinct
import EnumStamp.Proofs.Stamping.Ledger
import Std.Data.String.ToNat

set_option autoImplicit false

namespace EnumStamp

open Cache

/-- A session of a stamper with a cache of its own: the stamper that it has led to, and the records
of all its walks in order, whether or not they have been taken out in between. -/
inductive Session (first : Stamper (OwnCache × Supply)) :
    Stamper (OwnCache × Supply) → List EnumStampRecord → Prop where
  | start : Session first first []
  | stamp {stamper : Stamper (OwnCache × Supply)} {records : List EnumStampRecord} {mode : Mode}
      {arena : Arena} {root : NodeId} {walked : Stamper.Walked (OwnCache × Supply)}
      (before : Session first stamper records)
      (stamps : stamper.stamp OwnCache.resolve mode arena root = some walked) :
      Session first walked.stamper (records ++ walked.records)
  | take {stamper : Stamper (OwnCache × Supply)} {records : List EnumStampRecord}
      (before : Session first stamper records) : Session first stamper.takeRecords.2 records

/-- What holds at any time of a session. -/
structure Session.Sound (values : Nat → String) (stamper : Stamper (OwnCache × Supply))
    (records : List EnumStampRecord) : Prop where
  supplied : stamper.cache.2.value = values
  distinct : Distinct stamper.cache
  held : ∀ stamp ∈ stampsOf records,
    OwnCache.held stamper.cache stamp.key = some stamp.value
  keyed : ∀ record ∈ records, record.Keyed

theorem Session.sound {first stamper : Stamper (OwnCache × Supply)}
    {records : List EnumStampRecord} (empty : first.cache.1 = OwnCache.empty)
    (fresh : Function.Injective first.cache.2.value) (session : Session first stamper records) :
    Session.Sound first.cache.2.value stamper records := by
  induction session with
  | start =>
    refine ⟨rfl, ?_, (fun _ member => by cases member), (fun _ member => by cases member)⟩
    have cache : first.cache = (OwnCache.empty, first.cache.2) := by
      rw [← empty]
    rw [cache]
    exact distinct_empty _
  | @stamp stamper records mode arena root walked before stamps ih =>
    have booked := Stamper.stamp_booked OwnCache.resolve stamps
    have entries := Stamper.held_stamp OwnCache.resolve OwnCache.memoising stamps
    have unrepeated : Function.Injective stamper.cache.2.value := ih.supplied ▸ fresh
    rw [Stamper.stamp_eq_perform] at stamps
    obtain ⟨stamped, log, run, _⟩ := Stamper.perform_eq_some OwnCache.resolve stamps
    have apart := ih.distinct.run unrepeated (mode.consult arena root) #[]
    rw [run] at apart
    refine ⟨apart.2.trans ih.supplied, apart.1, ?_, ?_⟩
    · intro stamp member
      rw [stampsOf, List.flatMap_append, List.mem_append] at member
      apply (entries stamp.key stamp.value).mpr
      rcases member with old | new
      · exact .inl (ih.held stamp old)
      · right
        rw [stampsOf_answers]
        exact List.mem_map.mpr ⟨stamp, new, rfl⟩
    · intro record member
      rcases List.mem_append.mp member with old | new
      · exact ih.keyed record old
      · exact booked.keyed record new
  | take before ih => exact ⟨ih.supplied, ih.distinct, ih.held, ih.keyed⟩

/-- In a session that began with an empty cache, and with a supply that never repeats a value, two
stamps have the same value exactly if their names make the same key: the same enum and member name,
or names that differ only in where they are cut at a separator. -/
theorem Session.value_eq_iff {first stamper : Stamper (OwnCache × Supply)}
    {records : List EnumStampRecord} (empty : first.cache.1 = OwnCache.empty)
    (fresh : Function.Injective first.cache.2.value) (session : Session first stamper records)
    {left right : EnumStampRecord} (inLeft : left ∈ records) (inRight : right ∈ records)
    {one other : MemberStamp} (isOne : one ∈ left.members) (isOther : other ∈ right.members) :
    one.value = other.value ↔
      (left.enumName = right.enumName ∧ one.member = other.member) ∨
        Cut left.enumName one.member right.enumName other.member ∨
        Cut right.enumName other.member left.enumName one.member := by
  have sound := session.sound empty fresh
  have heldOne := sound.held one (List.mem_flatMap.mpr ⟨left, inLeft, isOne⟩)
  have heldOther := sound.held other (List.mem_flatMap.mpr ⟨right, inRight, isOther⟩)
  have keys : one.value = other.value ↔ one.key = other.key := by
    constructor
    · intro same
      rw [same] at heldOne
      exact sound.distinct.injective _ _ _ heldOne heldOther
    · intro same
      rw [same, heldOther] at heldOne
      exact (Option.some.inj heldOne).symm
  rw [keys, sound.keyed left inLeft one isOne, sound.keyed right inRight other isOther,
    key_eq_iff]

/-- The arena of a file with `const enum A_B { C }` and `const enum A { B_C }`; they share the node
of their modifier. -/
def Arena.cutNames : Arena :=
  { empty with
    nodes :=
      #[⟨Token.constKeyword.kind, 0, 0, 5, Header.noPlace⟩,
        ⟨Token.identifier.kind, 0, 11, 14, 0⟩,
        ⟨Token.identifier.kind, 0, 17, 18, 1⟩,
        ⟨Construct.enumMember.kind, 0, 17, 18, 0⟩,
        ⟨Construct.enumDeclaration.kind, 0, 0, 20, 0⟩,
        ⟨Token.identifier.kind, 0, 32, 33, 2⟩,
        ⟨Token.identifier.kind, 0, 36, 39, 3⟩,
        ⟨Construct.enumMember.kind, 0, 36, 39, 1⟩,
        ⟨Construct.enumDeclaration.kind, 0, 21, 41, 1⟩,
        ⟨Construct.sourceFile.kind, 0, 0, 41, 0⟩]
    origins := .replicate 10 .absent
    identifiers := #["A_B", "C", "A", "B_C"]
    enumMembers := #[⟨.ofPosition 2, .absent⟩, ⟨.ofPosition 6, .absent⟩]
    enums :=
      #[⟨some [.ofPosition 0], .ofPosition 1, [.ofPosition 3]⟩,
        ⟨some [.ofPosition 0], .ofPosition 5, [.ofPosition 7]⟩]
    sourceFiles := #[⟨"cut.ts", "", [.ofPosition 4, .ofPosition 8]⟩] }

/-- The records of stamping that file with numbered values: both members have the number 1. -/
def cutRecords : List EnumStampRecord :=
  [⟨some "cut.ts", "A_B", false, .ofPosition 4, .ofPosition 12, [⟨"C", "A_B_C", "uuid:1"⟩], 0⟩,
    ⟨some "cut.ts", "A", false, .ofPosition 8, .ofPosition 15, [⟨"B_C", "A_B_C", "uuid:1"⟩], 0⟩]

theorem Stamper.numbered_fresh : Function.Injective Stamper.numbered.cache.2.value := by
  intro first second same
  have digits : toString (first + 1) = toString (second + 1) := (String.append_right_inj _).mp same
  have next := Nat.repr_injective digits
  omega

theorem exists_session_cutRecords : ∃ stamper, Session Stamper.numbered stamper cutRecords := by
  have stamped : (Stamper.numbered.stamp OwnCache.resolve .file Arena.cutNames
      (.ofPosition 9)).map Stamper.Walked.records = some cutRecords := by decide +kernel
  obtain ⟨walked, stamps, records⟩ := Option.map_eq_some_iff.mp stamped
  have session := Session.start.stamp stamps
  rw [records] at session
  exact ⟨walked.stamper, session⟩

/-- There are members with one value whose names are not the same. -/
theorem Session.values_of_other_names :
    ¬ ∀ first stamper records, first.cache.1 = OwnCache.empty →
      Function.Injective first.cache.2.value → Session first stamper records →
      ∀ left ∈ records, ∀ right ∈ records, ∀ one ∈ left.members, ∀ other ∈ right.members,
        (one.value = other.value ↔
          left.enumName = right.enumName ∧ one.member = other.member) := by
  intro claim
  obtain ⟨stamper, session⟩ := exists_session_cutRecords
  have same := claim _ _ _ rfl Stamper.numbered_fresh session
    cutRecords[0] (List.getElem_mem _) cutRecords[1] (List.getElem_mem _)
    ⟨"C", "A_B_C", "uuid:1"⟩ (List.mem_singleton_self _)
    ⟨"B_C", "A_B_C", "uuid:1"⟩ (List.mem_singleton_self _)
  have names := same.mp rfl
  exact absurd names.2 (by decide)

/-- All members of that session have one value, and so all their names make one key. -/
theorem Session.value_eq_iff_cutNames :
    ∃ stamper, Session Stamper.numbered stamper cutRecords ∧
      ∀ left ∈ cutRecords, ∀ right ∈ cutRecords, ∀ one ∈ left.members, ∀ other ∈ right.members,
        one.value = other.value ∧
          ((left.enumName = right.enumName ∧ one.member = other.member) ∨
            Cut left.enumName one.member right.enumName other.member ∨
            Cut right.enumName other.member left.enumName one.member) := by
  obtain ⟨stamper, session⟩ := exists_session_cutRecords
  have equal : ∀ left ∈ cutRecords, ∀ right ∈ cutRecords, ∀ one ∈ left.members,
      ∀ other ∈ right.members, one.value = other.value := by decide
  refine ⟨stamper, session, ?_⟩
  intro left inLeft right inRight one isOne other isOther
  have same := equal left inLeft right inRight one isOne other isOther
  exact ⟨same, (session.value_eq_iff rfl Stamper.numbered_fresh inLeft inRight isOne isOther).mp
    same⟩

end EnumStamp
