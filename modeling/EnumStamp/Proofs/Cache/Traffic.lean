import EnumStamp.Proofs.Cache.Answers
import Mathlib.Logic.Relation

/-!
Traffic: any number of calls on one shared cache, whose steps come in any order. A request looks its
key up, and after a miss it takes a second step, the draw; other calls may take steps in between.
Main statements: what one step does (`Call.act_cases`), what holds after any number of steps
(`Traffic.Sound`), and that all requests for one key agree (`Traffic.agreement`).
-/

set_option autoImplicit false

namespace EnumStamp.SharedCache

open Cache

inductive Operation where
  | resolve (key : String)
  | get (key : String)
  deriving DecidableEq

inductive Call where
  | asking (key : String)
  /-- The lookup found nothing. -/
  | missed (key : String)
  | answered (key value : String)
  | looking (key : String)
  | looked (key : String) (found : Option String)
  deriving DecidableEq

namespace Call

/-- A call that has taken no step. -/
def start : Operation → Call
  | .resolve key => .asking key
  | .get key => .looking key

def operation : Call → Operation
  | .asking key => .resolve key
  | .missed key => .resolve key
  | .answered key _ => .resolve key
  | .looking key => .get key
  | .looked key _ => .get key

def IsDone : Call → Prop
  | .answered _ _ => True
  | .looked _ _ => True
  | _ => False

/-- One atomic step of a call, with its events. A call that has its answer takes none. -/
def act : Call → SharedCache × Supply → Option (Call × List Event × (SharedCache × Supply))
  | .asking key, state =>
    match state.1.get? key with
    | some value => some (.answered key value, [.valueFound key value], state)
    | none => some (.missed key, [], state)
  | .missed key, state =>
    let (answer, after) := getOrDraw key state
    some (.answered key answer.value, answer.events, after)
  | .looking key, state => some (.looked key (state.1.get? key), [], state)
  | .answered _ _, _ => none
  | .looked _ _, _ => none

/-- A request that is not interrupted is answered as a whole one. -/
theorem act_resolve (key : String) (state : SharedCache × Supply) :
    let (answer, after) := SharedCache.resolve key state
    let answered := some (Call.answered key answer.value, answer.events, after)
    (asking key).act state = answered ∨
      ((asking key).act state = some (.missed key, [], state) ∧
        (missed key).act state = answered) := by
  cases found : state.1.get? key with
  | some value =>
    left
    simp only [act, found]
  | none =>
    right
    simp only [act, found, and_self]

/-- Whether the cache still holds what a call was told. -/
def Shows (state : SharedCache × Supply) : Call → Prop
  | .answered key value => held state key = some value
  | .looked key (some value) => held state key = some value
  | _ => True

end Call

/-- The values that were drawn, with their keys, in order. -/
def draws (log : List Event) : List Answer :=
  log.filterMap fun
    | .valueGenerated key value => some (key, value)
    | _ => none

theorem draws_append (early late : List Event) :
    draws (early ++ late) = draws early ++ draws late :=
  List.filterMap_append

/-- A step answers from the cache, or draws the next value for a key that has none. -/
theorem Call.act_cases {call next : Call} {events : List Event} {state after : SharedCache × Supply}
    (acts : call.act state = some (next, events, after)) :
    next.operation = call.operation ∧ next.Shows after ∧
      ((after = state ∧ draws events = []) ∨
        ∃ key, call.operation = .resolve key ∧ held state key = none ∧
          draws events = [(key, state.2.draw.1)] ∧ after.2 = state.2.draw.2 ∧
            ∀ other, held after other =
              if other = key then some state.2.draw.1 else held state other) := by
  cases call with
  | asking key =>
    cases found : state.1.get? key with
    | some value =>
      simp only [act, found] at acts
      cases acts
      exact ⟨rfl, found, .inl ⟨rfl, rfl⟩⟩
    | none =>
      simp only [act, found] at acts
      cases acts
      exact ⟨rfl, trivial, .inl ⟨rfl, rfl⟩⟩
  | missed key =>
    obtain ⟨cache, supply⟩ := state
    cases found : cache.get? key with
    | some value =>
      simp only [act, getOrDraw, found] at acts
      cases acts
      exact ⟨rfl, found, .inl ⟨rfl, rfl⟩⟩
    | none =>
      simp only [act, getOrDraw, found] at acts
      cases acts
      have inserted := getElem?_insert cache.entries key supply.draw.1
      refine ⟨rfl, ?_, .inr ⟨key, rfl, found, rfl, rfl, inserted⟩⟩
      show (cache.entries.insert key supply.draw.1)[key]? = some supply.draw.1
      rw [inserted, if_pos rfl]
  | looking key =>
    cases acts
    refine ⟨rfl, ?_, .inl ⟨rfl, rfl⟩⟩
    cases found : state.1.get? key with
    | some value => exact found
    | none => trivial
  | answered key value => cases acts
  | looked key found => cases acts

/-- Calls on one cache at some time, and what has happened. -/
structure Traffic where
  calls : List Call
  state : SharedCache × Supply
  log : List Event

namespace Traffic

def start (operations : List Operation) (state : SharedCache × Supply) : Traffic :=
  { calls := operations.map Call.start, state, log := [] }

inductive Step : Traffic → Traffic → Prop where
  | act {traffic : Traffic} (place : Nat) {call next : Call} {events : List Event}
      {after : SharedCache × Supply} (isThere : traffic.calls[place]? = some call)
      (acts : call.act traffic.state = some (next, events, after)) :
      Step traffic ⟨traffic.calls.set place next, after, traffic.log ++ events⟩

abbrev Reaches : Traffic → Traffic → Prop :=
  Relation.ReflTransGen Step

def Finished (traffic : Traffic) : Prop :=
  ∀ call ∈ traffic.calls, call.IsDone

/-- What a step does to the cache and the log: nothing, or it draws for a key that has no value. -/
theorem Step.state_cases {before after : Traffic} (step : Step before after) :
    ∃ events, after.log = before.log ++ events ∧
      ((after.state = before.state ∧ draws events = []) ∨
        ∃ key, .resolve key ∈ before.calls.map Call.operation ∧ held before.state key = none ∧
          draws events = [(key, before.state.2.draw.1)] ∧
            after.state.2 = before.state.2.draw.2 ∧
              ∀ other, held after.state other =
                if other = key then some before.state.2.draw.1 else held before.state other) := by
  obtain ⟨place, isThere, acts⟩ := step
  rename_i call next events state
  obtain ⟨_, _, same | ⟨key, isRequest, missing, drawn, supply, inserted⟩⟩ := Call.act_cases acts
  · exact ⟨events, rfl, .inl same⟩
  · have isCalled : .resolve key ∈ before.calls.map Call.operation :=
      List.mem_map.mpr ⟨call, List.mem_of_getElem? isThere, isRequest⟩
    exact ⟨events, rfl, .inr ⟨key, isCalled, missing, drawn, supply, inserted⟩⟩

/-- A step removes no entry and changes none. -/
theorem Step.keeps_held {before after : Traffic} (step : Step before after) {key value : String}
    (found : held before.state key = some value) : held after.state key = some value := by
  obtain ⟨events, _, ⟨same, _⟩ | ⟨drawn, _, missing, _, _, inserted⟩⟩ := step.state_cases
  · rw [same]
    exact found
  · have differs : key ≠ drawn := by
      intro same
      rw [same, missing] at found
      cases found
    rw [inserted, if_neg differs]
    exact found

theorem Reaches.keeps_held {before after : Traffic} (reached : Reaches before after)
    {key value : String} (found : held before.state key = some value) :
    held after.state key = some value := by
  induction reached with
  | refl => exact found
  | tail _ step ih => exact step.keeps_held ih

theorem Step.operations {before after : Traffic} (step : Step before after) :
    after.calls.map Call.operation = before.calls.map Call.operation := by
  obtain ⟨place, isThere, acts⟩ := step
  rename_i call next events state
  have same := (Call.act_cases acts).1
  apply List.ext_getElem?
  intro other
  rw [List.getElem?_map, List.getElem?_map, List.getElem?_set]
  by_cases isPlace : place = other
  · subst isPlace
    have inside := (List.getElem?_eq_some_iff.mp isThere).1
    rw [if_pos rfl, if_pos inside, isThere]
    exact congrArg some same
  · rw [if_neg isPlace]

/-- A key that has a value shows it to every call. -/
theorem Step.shows {before after : Traffic} (step : Step before after) {call : Call}
    (shows : call.Shows before.state) : call.Shows after.state := by
  cases call with
  | answered key value => exact step.keeps_held shows
  | looked key found =>
    cases found with
    | some value => exact step.keeps_held shows
    | none => trivial
  | asking key => trivial
  | missed key => trivial
  | looking key => trivial

/-- What holds of traffic at any time, for the calls and the cache that it began with. -/
structure Sound (operations : List Operation) (initial : SharedCache × Supply)
    (traffic : Traffic) : Prop where
  called : traffic.calls.map Call.operation = operations
  shows : ∀ call ∈ traffic.calls, call.Shows traffic.state
  /-- The cache holds what it held, and the values that were drawn. -/
  holds : ∀ key value, held traffic.state key = some value ↔
    held initial key = some value ∨ (key, value) ∈ draws traffic.log
  once : ((draws traffic.log).map Prod.fst).Nodup
  wanted : ∀ draw ∈ draws traffic.log, .resolve draw.1 ∈ operations
  /-- The values come from the supply one after the other. -/
  values : (draws traffic.log).map Prod.snd =
    (List.range (draws traffic.log).length).map fun turn =>
      initial.2.value (initial.2.drawn + turn)
  supply : traffic.state.2 =
    { initial.2 with drawn := initial.2.drawn + (draws traffic.log).length }

theorem sound_start (operations : List Operation) (initial : SharedCache × Supply) :
    Sound operations initial (start operations initial) where
  called := by
    have back : Call.operation ∘ Call.start = id := by
      funext operation
      cases operation <;> rfl
    show (operations.map Call.start).map Call.operation = operations
    rw [List.map_map, back, List.map_id]
  shows := by
    intro call member
    obtain ⟨operation, _, rfl⟩ := List.mem_map.mp member
    cases operation <;> trivial
  holds := by
    intro key value
    show held initial key = some value ↔ held initial key = some value ∨ (key, value) ∈ []
    simp only [List.not_mem_nil, or_false]
  once := List.nodup_nil
  wanted := by
    intro draw member
    cases member
  values := rfl
  supply := rfl

section Sound

variable {operations : List Operation} {initial : SharedCache × Supply} {before after : Traffic}

/-- A step that draws nothing keeps the invariant. -/
theorem Sound.of_draws_eq (sound : Sound operations initial before)
    (called : after.calls.map Call.operation = operations)
    (shows : ∀ call ∈ after.calls, call.Shows after.state)
    (same : after.state = before.state) (unchanged : draws after.log = draws before.log) :
    Sound operations initial after where
  called := called
  shows := shows
  holds := by
    rw [unchanged, same]
    exact sound.holds
  once := by
    rw [unchanged]
    exact sound.once
  wanted := by
    rw [unchanged]
    exact sound.wanted
  values := by
    rw [unchanged]
    exact sound.values
  supply := by
    rw [unchanged, same]
    exact sound.supply

/-- A step that draws the next value, for a key that has none, keeps the invariant. -/
theorem Sound.of_draws_append (sound : Sound operations initial before)
    (called : after.calls.map Call.operation = operations)
    (shows : ∀ call ∈ after.calls, call.Shows after.state) {key : String}
    (isCalled : .resolve key ∈ operations) (missing : held before.state key = none)
    (extended : draws after.log = draws before.log ++ [(key, before.state.2.draw.1)])
    (supply : after.state.2 = before.state.2.draw.2)
    (inserted : ∀ other, held after.state other =
      if other = key then some before.state.2.draw.1 else held before.state other) :
    Sound operations initial after where
  called := called
  shows := shows
  holds := by
    intro other found
    have earlier := sound.holds other found
    rw [inserted, extended, List.mem_append, List.mem_singleton, Prod.mk.injEq]
    by_cases isKey : other = key
    · subst isKey
      rw [missing] at earlier
      simp only [if_true, Option.some.injEq, true_and]
      constructor
      · intro same
        exact .inr (.inr same.symm)
      · rintro (held | drawn | same)
        · cases earlier.mpr (.inl held)
        · cases earlier.mpr (.inr drawn)
        · exact same.symm
    · simp only [isKey, if_false, false_and, or_false]
      exact earlier
  once := by
    rw [extended, List.map_append, List.nodup_append]
    refine ⟨sound.once, List.pairwise_singleton _ key, ?_⟩
    rintro other isDrawn last isLast rfl
    rw [List.mem_singleton.mp isLast] at isDrawn
    obtain ⟨⟨_, old⟩, member, rfl⟩ := List.mem_map.mp isDrawn
    rw [(sound.holds _ old).mpr (.inr member)] at missing
    cases missing
  wanted := by
    intro draw member
    rw [extended, List.mem_append, List.mem_singleton] at member
    rcases member with old | rfl
    · exact sound.wanted draw old
    · exact isCalled
  values := by
    have fresh : before.state.2.draw.1 =
        initial.2.value (initial.2.drawn + (draws before.log).length) := by
      show before.state.2.value before.state.2.drawn = _
      rw [sound.supply]
    rw [extended, List.map_append, List.length_append, sound.values]
    show _ ++ [before.state.2.draw.1] = _
    rw [List.length_singleton, List.range_succ, List.map_append, fresh]
    rfl
  supply := by
    rw [supply, extended, List.length_append, List.length_singleton]
    show { before.state.2 with drawn := before.state.2.drawn + 1 } = _
    rw [sound.supply, Nat.add_assoc]

/-- One step keeps the invariant. -/
theorem Sound.step (sound : Sound operations initial before) (step : Step before after) :
    Sound operations initial after := by
  have called : after.calls.map Call.operation = operations :=
    step.operations.trans sound.called
  have shows : ∀ call ∈ after.calls, call.Shows after.state := by
    intro call member
    have old := fun isOld => step.shows (sound.shows call isOld)
    obtain ⟨place, isThere, acts⟩ := step
    rcases List.mem_or_eq_of_mem_set member with isOld | isNew
    · exact old isOld
    · subst isNew
      exact (Call.act_cases acts).2.1
  obtain ⟨events, log, ⟨same, none⟩ | ⟨key, isCalled, missing, drawn, supply, inserted⟩⟩ :=
    step.state_cases
  · have unchanged : draws after.log = draws before.log := by
      rw [log, draws_append, none, List.append_nil]
    exact sound.of_draws_eq called shows same unchanged
  · have extended : draws after.log = draws before.log ++ [(key, before.state.2.draw.1)] := by
      rw [log, draws_append, drawn]
    exact sound.of_draws_append called shows (sound.called ▸ isCalled) missing extended supply
      inserted

/-- When all calls have their answers, the keys are those from the beginning and those that were
asked for. -/
theorem Sound.isSome_held_iff (sound : Sound operations initial after) (finished : after.Finished)
    (key : String) : (held after.state key).isSome ↔
      (held initial key).isSome ∨ .resolve key ∈ operations := by
  constructor
  · intro isHeld
    obtain ⟨value, found⟩ := Option.isSome_iff_exists.mp isHeld
    rcases (sound.holds key value).mp found with old | drawn
    · exact .inl (Option.isSome_iff_exists.mpr ⟨value, old⟩)
    · exact .inr (sound.wanted (key, value) drawn)
  · rintro (old | asked)
    · obtain ⟨value, found⟩ := Option.isSome_iff_exists.mp old
      have isHeld := (sound.holds key value).mpr (.inl found)
      exact Option.isSome_iff_exists.mpr ⟨value, isHeld⟩
    · rw [← sound.called] at asked
      obtain ⟨call, member, isRequest⟩ := List.mem_map.mp asked
      have done := finished call member
      cases call with
      | answered own value =>
        cases isRequest
        have isHeld : held after.state key = some value :=
          sound.shows (.answered key value) member
        exact Option.isSome_iff_exists.mpr ⟨value, isHeld⟩
      | asking own => cases done
      | missed own => cases done
      | looking own => cases isRequest
      | looked own found => cases isRequest

end Sound

theorem Reaches.sound {operations : List Operation} {initial : SharedCache × Supply}
    {traffic : Traffic} (reached : Reaches (start operations initial) traffic) :
    Sound operations initial traffic := by
  induction reached with
  | refl => exact sound_start operations initial
  | tail _ step ih => exact ih.step step

/-- What is drawn from some time on is drawn for keys that have no value at that time. -/
theorem Reaches.draws_new {middle last : Traffic} (reached : Reaches middle last) :
    ∃ later, last.log = middle.log ++ later ∧
      ∀ draw ∈ draws later, held middle.state draw.1 = none := by
  induction reached with
  | refl =>
    refine ⟨[], (List.append_nil _).symm, ?_⟩
    intro draw member
    cases member
  | tail reached step ih =>
    rename_i between last
    obtain ⟨later, log, missing⟩ := ih
    obtain ⟨events, more, drawn⟩ := step.state_cases
    refine ⟨later ++ events, ?_, ?_⟩
    · rw [more, log, List.append_assoc]
    · intro draw member
      rw [draws_append, List.mem_append] at member
      rcases member with early | late
      · exact missing draw early
      · rcases drawn with ⟨_, none⟩ | ⟨key, _, isNew, one, _⟩
        · rw [none] at late
          cases late
        · rw [one] at late
          rw [List.mem_singleton.mp late]
          cases found : held middle.state key with
          | none => rfl
          | some value =>
            rw [Reaches.keeps_held reached found] at isNew
            cases isNew

/-- A look at the cache that is still to come finds a value that is held already. -/
theorem Reaches.looks {middle last : Traffic} (reached : Reaches middle last) {place : Nat}
    {key value : String} (waits : middle.calls[place]? = some (.looking key))
    (found : held middle.state key = some value) :
    last.calls[place]? = some (.looking key) ∨
      last.calls[place]? = some (.looked key (some value)) := by
  induction reached with
  | refl => exact .inl waits
  | tail reached step ih =>
    rename_i between last
    have still := Reaches.keeps_held reached found
    obtain ⟨acting, isThere, acts⟩ := step
    rename_i call next events after
    show (between.calls.set acting next)[place]? = _ ∨ (between.calls.set acting next)[place]? = _
    by_cases isPlace : acting = place
    · subst isPlace
      have inside := (List.getElem?_eq_some_iff.mp isThere).1
      rw [List.getElem?_set_self inside]
      rw [isThere] at ih
      rcases ih with waiting | done
      · cases waiting
        cases acts
        exact .inr (congrArg (fun found => some (Call.looked key found)) still)
      · cases done
        cases acts
    · rw [List.getElem?_set_ne isPlace]
      exact ih

/-- What the calls on a shared cache agree on, at some time `middle` and at any later time. -/
structure Agreement (operations : List Operation) (initial : SharedCache × Supply)
    (middle last : Traffic) : Prop where
  /-- No entry is removed or changed. -/
  keepsInitial : ∀ key value, held initial key = some value → held middle.state key = some value
  keeps : ∀ key value, held middle.state key = some value → held last.state key = some value
  /-- A completed request has the value that is stored from then on. -/
  stored : ∀ key value, .answered key value ∈ middle.calls → held last.state key = some value
  /-- All completed requests for one key have one value. -/
  unique : ∀ key value other, .answered key value ∈ last.calls → .answered key other ∈ last.calls →
    value = other
  /-- A look at the cache finds nothing or that value. -/
  found : ∀ key value, .looked key (some value) ∈ last.calls → held last.state key = some value ∧
    ∀ other, .answered key other ∈ last.calls → other = value
  /-- A look that comes after a request for the key was completed finds something. -/
  finds : ∀ (place : Nat) key value found, .answered key value ∈ middle.calls →
    middle.calls[place]? = some (.looking key) → last.calls[place]? = some (.looked key found) →
      found = some value
  /-- At most one value is drawn for a key, and it is the one that is stored. -/
  drawnOnce : ((draws last.log).map Prod.fst).Nodup ∧
    ∀ draw ∈ draws last.log, held last.state draw.1 = some draw.2
  /-- No value is drawn for a key that has one. -/
  drawnNew : (∀ draw ∈ draws last.log, held initial draw.1 = none) ∧
    ∃ later, last.log = middle.log ++ later ∧
      ∀ draw ∈ draws later, held middle.state draw.1 = none
  /-- The values that were drawn are the next ones of the supply, and no other value was taken. -/
  supplied : (draws last.log).map Prod.snd =
      (List.range (draws last.log).length).map (fun turn =>
        initial.2.value (initial.2.drawn + turn)) ∧
    last.state.2 = { initial.2 with drawn := initial.2.drawn + (draws last.log).length }
  /-- In the end the keys are those from the beginning and those that were asked for. -/
  complete : last.Finished → ∀ key, (held last.state key).isSome ↔
    (held initial key).isSome ∨ .resolve key ∈ operations

/-- Whatever the calls and the order of their steps, the calls agree. -/
theorem agreement (operations : List Operation) (initial : SharedCache × Supply)
    {middle last : Traffic} (early : Reaches (start operations initial) middle)
    (late : Reaches middle last) : Agreement operations initial middle last := by
  have before := Reaches.sound early
  have after := Reaches.sound (early.trans late)
  obtain ⟨whole, log, absent⟩ := Reaches.draws_new (early.trans late)
  have all : last.log = whole := log
  have answers : ∀ key value, .answered key value ∈ last.calls →
      held last.state key = some value :=
    fun key value member => after.shows (.answered key value) member
  have stored : ∀ key value, .answered key value ∈ middle.calls →
      held middle.state key = some value :=
    fun key value member => before.shows (.answered key value) member
  refine ⟨?_, ?_, ?_, ?_, ?_, ?_, ⟨after.once, ?_⟩, ⟨?_, Reaches.draws_new late⟩,
    ⟨after.values, after.supply⟩, after.isSome_held_iff⟩
  · intro key value isHeld
    exact Reaches.keeps_held early isHeld
  · intro key value isHeld
    exact Reaches.keeps_held late isHeld
  · intro key value member
    exact Reaches.keeps_held late (stored key value member)
  · intro key value other first second
    have one := answers key value first
    rw [answers key other second] at one
    exact (Option.some.inj one).symm
  · intro key value member
    have isHeld : held last.state key = some value :=
      after.shows (.looked key (some value)) member
    refine ⟨isHeld, ?_⟩
    intro other isAnswer
    rw [answers key other isAnswer] at isHeld
    exact Option.some.inj isHeld
  · intro place key value found member waits done
    rcases Reaches.looks late waits (stored key value member) with waiting | looked
    · rw [done] at waiting
      cases waiting
    · rw [done] at looked
      cases looked
      rfl
  · intro draw member
    exact (after.holds draw.1 draw.2).mpr (.inr member)
  · rw [all]
    exact absent

/-- Two requests that both miss before either of them draws, and a look after the first draw. -/
theorem exists_race {state : SharedCache × Supply} {key : String}
    (missing : held state key = none) :
    let value := state.2.draw.1
    ∃ middle last,
      Reaches (start [.resolve key, .resolve key, .get key] state) middle ∧ Reaches middle last ∧
        middle.calls = [.answered key value, .missed key, .looking key] ∧
        last.calls = [.answered key value, .answered key value, .looked key (some value)] := by
  intro value
  let after : SharedCache × Supply := (⟨state.1.entries.insert key value⟩, state.2.draw.2)
  have absent : state.1.get? key = none := missing
  have inserted : after.1.get? key = some value := by
    show (state.1.entries.insert key value)[key]? = some value
    rw [getElem?_insert, if_pos rfl]
  have misses : (Call.asking key).act state = some (.missed key, [], state) := by
    simp only [Call.act, absent]
  have draws : (Call.missed key).act state =
      some (.answered key value, [.valueGenerated key value], after) := by
    simp only [Call.act, getOrDraw, absent]
    rfl
  have finds : (Call.missed key).act after = some (.answered key value, [], after) := by
    simp only [Call.act, getOrDraw, inserted]
  have looks : (Call.looking key).act after = some (.looked key (some value), [], after) := by
    simp only [Call.act, inserted]
  let begun := start [.resolve key, .resolve key, .get key] state
  let first : Traffic := ⟨[.missed key, .asking key, .looking key], state, []⟩
  let second : Traffic := ⟨[.missed key, .missed key, .looking key], state, []⟩
  let middle : Traffic :=
    ⟨[.answered key value, .missed key, .looking key], after, [.valueGenerated key value]⟩
  let third : Traffic := { middle with
    calls := [.answered key value, .missed key, .looked key (some value)] }
  let last : Traffic := { middle with
    calls := [.answered key value, .answered key value, .looked key (some value)] }
  have one : Step begun first := .act 0 rfl misses
  have two : Step first second := .act 1 rfl misses
  have three : Step second middle := .act 0 rfl draws
  have four : Step middle third := .act 2 rfl looks
  have five : Step third last := .act 1 rfl finds
  have early : Reaches begun middle := ((Relation.ReflTransGen.single one).tail two).tail three
  have late : Reaches middle last := (Relation.ReflTransGen.single four).tail five
  exact ⟨middle, last, early, late, rfl, rfl⟩

/-- The race with an empty cache. -/
theorem agreement_race :
    let operations : List Operation :=
      [.resolve "Color.Red", .resolve "Color.Red", .get "Color.Red"]
    let initial : SharedCache × Supply :=
      (SharedCache.empty, ⟨fun drawn => "uuid:" ++ toString (drawn + 1), 0⟩)
    ∃ middle last,
      Reaches (start operations initial) middle ∧ Reaches middle last ∧
        .answered "Color.Red" "uuid:1" ∈ middle.calls ∧ last.Finished ∧
          Agreement operations initial middle last := by
  intro operations initial
  have missing : held initial "Color.Red" = none := rfl
  obtain ⟨middle, last, early, late, atMiddle, atLast⟩ := exists_race missing
  have agrees := agreement operations initial early late
  refine ⟨middle, last, early, late, ?_, ?_, agrees⟩
  · have first : initial.2.draw.1 = "uuid:1" := by decide
    rw [atMiddle, first]
    exact List.mem_cons_self ..
  · intro call member
    simp only [atLast, List.mem_cons, List.not_mem_nil, or_false] at member
    rcases member with rfl | rfl | rfl
    · trivial
    · trivial
    · trivial

/-- Requests that have all missed draw one after the other. -/
theorem reaches_resolveTogether (key : String) (requests : Nat) (early : List Call)
    (state : SharedCache × Supply) (log : List Event) :
    let (values, after) := resolveTogether key requests state
    ∃ events, Reaches ⟨early ++ List.replicate requests (.missed key), state, log⟩
      ⟨early ++ values.map (Call.answered key), after, events⟩ := by
  induction requests generalizing early state log with
  | zero => exact ⟨log, .refl⟩
  | succ requests ih =>
    let answer := getOrDraw key state
    let answered := Call.answered key answer.1.value
    obtain ⟨events, others⟩ := ih (early ++ [answered]) answer.2 (log ++ answer.1.events)
    rw [List.append_assoc, List.append_assoc] at others
    let waiting : Traffic :=
      ⟨early ++ .missed key :: List.replicate requests (.missed key), state, log⟩
    have isThere : waiting.calls[early.length]? = some (.missed key) := by
      show (early ++ Call.missed key :: _)[early.length]? = _
      rw [List.getElem?_append_right (Nat.le_refl _), Nat.sub_self]
      rfl
    have first : Step waiting
        ⟨waiting.calls.set early.length answered, answer.2, log ++ answer.1.events⟩ :=
      .act early.length isThere rfl
    have placed : waiting.calls.set early.length answered =
        early ++ ([answered] ++ List.replicate requests (.missed key)) := by
      show (early ++ Call.missed key :: _).set early.length answered = _
      rw [List.set_append_right _ _ (Nat.le_refl _), Nat.sub_self]
      rfl
    rw [placed] at first
    exact ⟨events, .head first others⟩

end Traffic

end EnumStamp.SharedCache
