import EnumStamp.Proofs.Stamping.Ledger

set_option autoImplicit false

namespace EnumStamp

open Cache

theorem SharedCache.memoising : Memoising SharedCache.resolve SharedCache.held where
  hit := by
    rintro key ⟨cache, supply⟩ value found
    simp only [SharedCache.held] at found
    simp only [SharedCache.resolve, found, and_self]
  miss := by
    rintro key ⟨cache, supply⟩ missing other
    simp only [SharedCache.held] at missing
    simp only [SharedCache.resolve, missing]
    exact SharedCache.memoising_getOrDraw.miss key (cache, supply) missing other

namespace Cache

/-- The two kinds of caches: one that has a single user, and one that several may use at once. -/
inductive Holding where
  | own
  | shared
  deriving DecidableEq

namespace Holding

def State : Holding → Type
  | .own => OwnCache × Supply
  | .shared => SharedCache × Supply

def resolve : (holding : Holding) → Resolver holding.State
  | .own => OwnCache.resolve
  | .shared => SharedCache.resolve

def get? : (holding : Holding) → holding.State → String → Option String
  | .own => fun state => state.1.get?
  | .shared => fun state => state.1.get?

theorem memoising (holding : Holding) : Memoising holding.resolve holding.get? := by
  cases holding with
  | own => exact OwnCache.memoising
  | shared => exact SharedCache.memoising

end Holding

end Cache

/-- Several stampers and the cache that they use. A stamper gets the cache for each of its walks and
hands it back afterwards. -/
structure Crew (σ : Type) where
  cache : σ
  stampers : List (Stamper σ)

/-- What a crew does, where stampers are known by their places. -/
inductive Deed where
  | joined
  | stamped (who : Nat) (records : List EnumStampRecord)
  | shown (who : Nat) (records : List EnumStampRecord)
  | taken (who : Nat) (records : List EnumStampRecord)

namespace Deed

def produced (history : List Deed) : List EnumStampRecord :=
  history.flatMap fun
    | .stamped _ records => records
    | _ => []

def producedBy (who : Nat) (history : List Deed) : List EnumStampRecord :=
  history.flatMap fun
    | .stamped other records => if other = who then records else []
    | _ => []

def takenBy (who : Nat) (history : List Deed) : List EnumStampRecord :=
  history.flatMap fun
    | .taken other records => if other = who then records else []
    | _ => []

variable (who : Nat) (early late : List Deed)

theorem produced_append : produced (early ++ late) = produced early ++ produced late :=
  List.flatMap_append

theorem producedBy_append :
    producedBy who (early ++ late) = producedBy who early ++ producedBy who late :=
  List.flatMap_append

theorem takenBy_append :
    takenBy who (early ++ late) = takenBy who early ++ takenBy who late :=
  List.flatMap_append

end Deed

namespace Crew

variable {σ : Type}

/-- One deed of a crew. A walk that comes to no end is no deed. -/
inductive Does (resolve : Resolver σ) : Crew σ → Deed → Crew σ → Prop where
  | join {crew : Crew σ} (options : Options) :
      Does resolve crew .joined
        { crew with stampers := crew.stampers ++ [(Stamper.create options crew.cache).1] }
  | stamp {crew : Crew σ} {who : Nat} {stamper : Stamper σ} {mode : Mode} {arena : Arena}
      {root : NodeId} {walked : Stamper.Walked σ} (found : crew.stampers[who]? = some stamper)
      (stamps : Stamper.stamp { stamper with cache := crew.cache } resolve mode arena root =
        some walked) :
      Does resolve crew (.stamped who walked.records)
        { cache := walked.stamper.cache, stampers := crew.stampers.set who walked.stamper }
  | look {crew : Crew σ} {who : Nat} {stamper : Stamper σ}
      (found : crew.stampers[who]? = some stamper) :
      Does resolve crew (.shown who stamper.records) crew
  | take {crew : Crew σ} {who : Nat} {stamper : Stamper σ}
      (found : crew.stampers[who]? = some stamper) :
      Does resolve crew (.taken who stamper.takeRecords.1)
        { crew with stampers := crew.stampers.set who stamper.takeRecords.2 }

/-- A crew comes from another by the deeds of a history. -/
inductive Run (resolve : Resolver σ) (first : Crew σ) : List Deed → Crew σ → Prop where
  | start : Run resolve first [] first
  | next {history : List Deed} {deed : Deed} {between last : Crew σ}
      (early : Run resolve first history between) (does : Does resolve between deed last) :
      Run resolve first (history ++ [deed]) last

theorem Run.append {resolve : Resolver σ} {first middle last : Crew σ} {early late : List Deed}
    (before : Run resolve first early middle) (after : Run resolve middle late last) :
    Run resolve first (early ++ late) last := by
  induction after with
  | start => simpa only [List.append_nil] using before
  | next _ does ih =>
    rw [← List.append_assoc]
    exact ih.next does

/-- What holds of a crew after a history that began without stampers. -/
structure Sound (held : σ → String → Option String) (first : Crew σ) (history : List Deed)
    (crew : Crew σ) : Prop where
  /-- The cache holds what it held and what the records say. -/
  entries : ∀ key value, held crew.cache key = some value ↔
    held first.cache key = some value ∨
      (key, value) ∈ (Deed.produced history).flatMap EnumStampRecord.answers
  /-- What was taken out of a stamper and what it still has is what it has produced. -/
  kept : ∀ who stamper, crew.stampers[who]? = some stamper →
    Deed.takenBy who history ++ stamper.records = Deed.producedBy who history
  /-- Who has not joined has done nothing. -/
  idle : ∀ who, crew.stampers.length ≤ who →
    Deed.takenBy who history = [] ∧ Deed.producedBy who history = []

theorem sound_start (held : σ → String → Option String) {first : Crew σ}
    (nobody : first.stampers = []) : Sound held first [] first where
  entries := by
    intro key value
    simp [Deed.produced]
  kept := by
    intro who stamper found
    rw [nobody] at found
    cases found
  idle := fun who _ => ⟨rfl, rfl⟩

section Deeds

variable {held : σ → String → Option String} {first crew : Crew σ} {history : List Deed}

theorem Sound.idle_append (sound : Sound held first history crew) {who : Nat} {deed : Deed}
    (none : Deed.takenBy who [deed] = []) (nothing : Deed.producedBy who [deed] = [])
    (outside : crew.stampers.length ≤ who) :
    Deed.takenBy who (history ++ [deed]) = [] ∧ Deed.producedBy who (history ++ [deed]) = [] := by
  obtain ⟨before, nothingBefore⟩ := sound.idle who outside
  rw [Deed.takenBy_append, Deed.producedBy_append, before, none, nothingBefore, nothing]
  exact ⟨rfl, rfl⟩

theorem Sound.join (sound : Sound held first history crew) (options : Options) :
    Sound held first (history ++ [.joined])
      { crew with stampers := crew.stampers ++ [(Stamper.create options crew.cache).1] } where
  entries := by
    simpa [Deed.produced] using sound.entries
  kept := by
    intro who stamper found
    have taken : Deed.takenBy who [.joined] = [] := rfl
    have produced : Deed.producedBy who [.joined] = [] := rfl
    rw [Deed.takenBy_append, Deed.producedBy_append, taken, produced, List.append_nil,
      List.append_nil]
    rw [List.getElem?_append] at found
    split at found
    · exact sound.kept who stamper found
    · rename_i outside
      obtain ⟨none, nothing⟩ := sound.idle who (by omega)
      obtain ⟨inside, same⟩ := List.getElem?_eq_some_iff.mp found
      have fresh : stamper.records = [] := by
        rw [← same, List.getElem_singleton]
        rfl
      rw [none, nothing, fresh]
      rfl
  idle := by
    intro who outside
    simp only [List.length_append, List.length_singleton] at outside
    exact sound.idle_append rfl rfl (by omega)

theorem Sound.look (sound : Sound held first history crew) (who : Nat)
    (records : List EnumStampRecord) :
    Sound held first (history ++ [.shown who records]) crew where
  entries := by
    simpa [Deed.produced] using sound.entries
  kept := by
    simpa [Deed.takenBy, Deed.producedBy] using sound.kept
  idle := by
    simpa [Deed.takenBy, Deed.producedBy] using sound.idle

/-- A stamper's own deed leaves the books of the others as they are. -/
theorem getElem?_set_cases {stampers : List (Stamper σ)} {who other : Nat}
    {before after stamper : Stamper σ} (found : stampers[who]? = some before)
    (later : (stampers.set who after)[other]? = some stamper) :
    (other = who ∧ stamper = after) ∨ (who ≠ other ∧ stampers[other]? = some stamper) := by
  by_cases same : who = other
  · subst same
    have inside := (List.getElem?_eq_some_iff.mp found).1
    rw [List.getElem?_set_self inside] at later
    exact .inl ⟨rfl, (Option.some.inj later).symm⟩
  · rw [List.getElem?_set_ne same] at later
    exact .inr ⟨same, later⟩

theorem Sound.take (sound : Sound held first history crew) {who : Nat} {stamper : Stamper σ}
    (found : crew.stampers[who]? = some stamper) :
    Sound held first (history ++ [.taken who stamper.takeRecords.1])
      { crew with stampers := crew.stampers.set who stamper.takeRecords.2 } where
  entries := by
    simpa [Deed.produced] using sound.entries
  kept := by
    intro other later again
    have produced : Deed.producedBy other [.taken who stamper.takeRecords.1] = [] := rfl
    rw [Deed.takenBy_append, Deed.producedBy_append, produced, List.append_nil]
    rcases getElem?_set_cases found again with ⟨rfl, rfl⟩ | ⟨apart, same⟩
    · have books := sound.kept other stamper found
      simpa [Deed.takenBy, Stamper.takeRecords] using books
    · have books := sound.kept other later same
      simpa [Deed.takenBy, apart] using books
  idle := by
    intro other outside
    rw [List.length_set] at outside
    have inside := (List.getElem?_eq_some_iff.mp found).1
    have apart : who ≠ other := by omega
    exact sound.idle_append (by simp [Deed.takenBy, apart]) (by simp [Deed.producedBy]) outside

/-- A walk adds its records to the books of its stamper and their values to the cache. -/
theorem Sound.stamp {resolve : Resolver σ} (memoising : Memoising resolve held)
    (sound : Sound held first history crew) {who : Nat} {stamper : Stamper σ} {mode : Mode}
    {arena : Arena} {root : NodeId} {walked : Stamper.Walked σ}
    (found : crew.stampers[who]? = some stamper)
    (stamps : Stamper.stamp { stamper with cache := crew.cache } resolve mode arena root =
      some walked) :
    Sound held first (history ++ [.stamped who walked.records])
      { cache := walked.stamper.cache, stampers := crew.stampers.set who walked.stamper } where
  entries := by
    intro key value
    have produced : Deed.produced [.stamped who walked.records] = walked.records :=
      List.append_nil _
    rw [Stamper.held_stamp resolve memoising stamps, sound.entries, Deed.produced_append, produced,
      List.flatMap_append, List.mem_append, or_assoc]
  kept := by
    intro other later again
    have taken : Deed.takenBy other [.stamped who walked.records] = [] := rfl
    rw [Deed.takenBy_append, Deed.producedBy_append, taken, List.append_nil]
    rcases getElem?_set_cases found again with ⟨rfl, rfl⟩ | ⟨apart, same⟩
    · rw [Stamper.stamp_eq_perform] at stamps
      obtain ⟨stamped, _, _, records, _, _, added⟩ := Stamper.perform_eq_some resolve stamps
      have books := sound.kept other stamper found
      rw [added, records, ← List.append_assoc, books]
      simp [Deed.producedBy]
    · have books := sound.kept other later same
      simpa [Deed.producedBy, apart] using books
  idle := by
    intro other outside
    rw [List.length_set] at outside
    have inside := (List.getElem?_eq_some_iff.mp found).1
    have apart : who ≠ other := by omega
    exact sound.idle_append (by simp [Deed.takenBy]) (by simp [Deed.producedBy, apart]) outside

end Deeds

/-- Any history leaves the cache and all books in order. -/
theorem Run.sound {resolve : Resolver σ} {held : σ → String → Option String}
    (memoising : Memoising resolve held) {first last : Crew σ} {history : List Deed}
    (nobody : first.stampers = []) (run : Run resolve first history last) :
    Sound held first history last := by
  induction run with
  | start => exact sound_start held nobody
  | next _ does ih =>
    cases does with
    | join options => exact ih.join options
    | stamp found stamps => exact ih.stamp memoising found stamps
    | look found => exact ih.look _ _
    | take found => exact ih.take found

theorem Sound.stamp_held {held : σ → String → Option String} {first last : Crew σ}
    {history : List Deed} (sound : Sound held first history last) {stamp : MemberStamp}
    (member : stamp ∈ stampsOf (Deed.produced history)) :
    held last.cache stamp.key = some stamp.value := by
  apply (sound.entries stamp.key stamp.value).mpr
  right
  rw [stampsOf_answers]
  exact List.mem_map.mpr ⟨stamp, member, rfl⟩

/-- Whatever stampers do with one cache of either kind: what a record has said of a key stays in the
cache and is said by all later records; the cache ends with what it began with and what the records
say; and what was taken out of a stamper, followed by what it still has, is what it has produced. -/
theorem Run.stable (holding : Holding) {first middle last : Crew holding.State}
    {early late : List Deed} (nobody : first.stampers = [])
    (before : Run holding.resolve first early middle)
    (after : Run holding.resolve middle late last) :
    (∀ stamp ∈ stampsOf (Deed.produced early),
      holding.get? middle.cache stamp.key = some stamp.value ∧
      holding.get? last.cache stamp.key = some stamp.value ∧
      ∀ other ∈ stampsOf (Deed.produced (early ++ late)),
        other.key = stamp.key → other.value = stamp.value) ∧
    (∀ key value, holding.get? last.cache key = some value ↔
      holding.get? first.cache key = some value ∨
        ∃ stamp ∈ stampsOf (Deed.produced (early ++ late)),
          stamp.key = key ∧ stamp.value = value) ∧
    ∀ who stamper, last.stampers[who]? = some stamper →
      Deed.takenBy who (early ++ late) ++ stamper.records =
        Deed.producedBy who (early ++ late) := by
  have soon := before.sound holding.memoising nobody
  have now := (before.append after).sound holding.memoising nobody
  refine ⟨?_, ?_, now.kept⟩
  · intro stamp member
    have still : stamp ∈ stampsOf (Deed.produced (early ++ late)) := by
      rw [Deed.produced_append, stampsOf, List.flatMap_append]
      exact List.mem_append_left _ member
    have value := now.stamp_held still
    refine ⟨soon.stamp_held member, value, ?_⟩
    intro other among same
    have again := now.stamp_held among
    rw [same, value] at again
    exact (Option.some.inj again).symm
  · intro key value
    rw [now.entries, stampsOf_answers]
    simp [List.mem_map, Prod.ext_iff]

/-- Two stampers that use one shared cache of numbered values. -/
def pair : Crew Holding.shared.State :=
  { cache := (SharedCache.empty, ⟨fun drawn => "uuid:" ++ toString (drawn + 1), 0⟩)
    stampers := [] }

/-- The record of stamping the colors with the first number. -/
def colorRecord : EnumStampRecord :=
  ⟨none, "Color", false, .ofPosition 6, .ofPosition 9, [⟨"Red", "Color_Red", "uuid:1"⟩], 1⟩

theorem exists_run_colorRecord : ∃ middle last,
    Run Holding.shared.resolve pair [.joined, .joined, .stamped 0 [colorRecord]] middle ∧
      Run Holding.shared.resolve middle [.taken 0 [colorRecord], .stamped 1 [colorRecord]]
        last := by
  let fresh : Stamper Holding.shared.State := (Stamper.create default pair.cache).1
  -- The second stamper gets the cache as the first one left it.
  have walks : (fresh.stamp Holding.shared.resolve .node Arena.colors (.ofPosition 6)).bind
      (fun one => (Stamper.stamp { fresh with cache := one.stamper.cache } Holding.shared.resolve
        .node Arena.colors (.ofPosition 6)).map fun two =>
          (one.records, one.stamper.records, two.records)) =
      some ([colorRecord], [colorRecord], [colorRecord]) := by
    decide +kernel
  obtain ⟨one, stampsOne, rest⟩ := Option.bind_eq_some_iff.mp walks
  obtain ⟨two, stampsTwo, records⟩ := Option.map_eq_some_iff.mp rest
  obtain ⟨recordsOne, others⟩ := Prod.mk.inj records
  obtain ⟨keptOne, recordsTwo⟩ := Prod.mk.inj others
  let idle : Crew Holding.shared.State := { pair with stampers := [fresh, fresh] }
  have joined : Run Holding.shared.resolve pair [.joined, .joined] idle :=
    .next (.next .start (.join default)) (.join default)
  let middle : Crew Holding.shared.State :=
    { cache := one.stamper.cache, stampers := [one.stamper, fresh] }
  have early : Does Holding.shared.resolve idle (.stamped 0 one.records) middle :=
    .stamp rfl stampsOne
  let handed : Crew Holding.shared.State :=
    { cache := one.stamper.cache, stampers := [one.stamper.takeRecords.2, fresh] }
  have taken : Does Holding.shared.resolve middle (.taken 0 one.stamper.takeRecords.1) handed :=
    .take rfl
  let last : Crew Holding.shared.State :=
    { cache := two.stamper.cache, stampers := [one.stamper.takeRecords.2, two.stamper] }
  have late : Does Holding.shared.resolve handed (.stamped 1 two.records) last :=
    .stamp rfl stampsTwo
  rw [recordsOne] at early
  rw [Stamper.takeRecords, keptOne] at taken
  rw [recordsTwo] at late
  exact ⟨middle, last, joined.next early, .next (.next .start taken) late⟩

/-- The second stamper of the pair has the value that the first one got. -/
theorem Run.stable_pair :
    ∃ middle last,
      Run Holding.shared.resolve pair [.joined, .joined, .stamped 0 [colorRecord]] middle ∧
      Run Holding.shared.resolve middle [.taken 0 [colorRecord], .stamped 1 [colorRecord]] last ∧
      pair.stampers = [] ∧
      Holding.shared.get? last.cache "Color_Red" = some "uuid:1" ∧
      ∀ stamper, last.stampers[1]? = some stamper → stamper.records = [colorRecord] := by
  obtain ⟨middle, last, before, after⟩ := exists_run_colorRecord
  obtain ⟨said, _, books⟩ := Run.stable .shared rfl before after
  have red : ⟨"Red", "Color_Red", "uuid:1"⟩ ∈ stampsOf [colorRecord] := List.mem_singleton_self _
  exact ⟨middle, last, before, after, rfl, (said _ red).2.1, books 1⟩

end Crew

end EnumStamp
