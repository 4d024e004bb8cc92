import EnumStamp.Cache.Consult

set_option autoImplicit false

namespace EnumStamp

namespace Cache

variable {σ : Type}

/-- A key and the value that was given for it. -/
abbrev Answer := String × String

namespace Resolver

/-- The same resolver with a list of its answers. -/
def recorded (resolve : Resolver σ) : Resolver (σ × List Answer)
  | key, (state, answers) =>
    let answer := resolve key state
    (answer.1, answer.2, answers ++ [(key, answer.1.value)])

def table (values : String → String) : Resolver Unit
  | key, _ => (⟨values key, []⟩, ())

end Resolver

/-- A resolver that memoises, where `held` is what its states hold for a key. -/
structure Memoising (resolve : Resolver σ) (held : σ → String → Option String) : Prop where
  /-- A key that has a value keeps it, and nothing else happens to the state. -/
  hit : ∀ key state value, held state key = some value →
    (resolve key state).1.value = value ∧ (resolve key state).2 = state
  /-- A key that has none gets the value of the answer, and no other key does. -/
  miss : ∀ key state, held state key = none → ∀ other,
    held (resolve key state).2 other =
      if other = key then some (resolve key state).1.value else held state other

theorem getElem?_insert (entries : Entries) (key value other : String) :
    (entries.insert key value)[other]? = if other = key then some value else entries[other]? := by
  rw [Std.TreeMap.getElem?_insert]
  by_cases same : other = key
  · rw [if_pos same, if_pos]
    rw [same]
    exact Std.ReflCmp.compare_self
  · rw [if_neg same, if_neg]
    intro equal
    exact same (Std.LawfulEqCmp.eq_of_compare equal).symm

/-- What a request leaves behind: what was held, and its answer. -/
theorem Memoising.held_resolve {resolve : Resolver σ} {held : σ → String → Option String}
    (memoising : Memoising resolve held) (asked : String) (state : σ) (key value : String) :
    held (resolve asked state).2 key = some value ↔
      held state key = some value ∨ (key = asked ∧ value = (resolve asked state).1.value) := by
  cases found : held state asked with
  | some old =>
    obtain ⟨answer, same⟩ := memoising.hit asked state old found
    rw [same, answer]
    constructor
    · exact .inl
    · rintro (before | ⟨rfl, rfl⟩)
      · exact before
      · exact found
  | none =>
    rw [memoising.miss asked state found]
    by_cases isKey : key = asked
    · subst isKey
      simp [found, eq_comm]
    · simp [isKey]

end Cache

open Cache

def OwnCache.held (state : OwnCache × Supply) (key : String) : Option String :=
  state.1.get? key

def SharedCache.held (state : SharedCache × Supply) (key : String) : Option String :=
  state.1.get? key

theorem OwnCache.memoising : Memoising OwnCache.resolve OwnCache.held where
  hit := by
    rintro key ⟨cache, supply⟩ value found
    simp only [OwnCache.held] at found
    simp only [OwnCache.resolve, found, and_self]
  miss := by
    rintro key ⟨cache, supply⟩ missing other
    simp only [OwnCache.held] at missing
    simp only [OwnCache.resolve, missing]
    exact getElem?_insert _ _ _ _

/-- The second step of a request to a shared cache is a whole request by itself. -/
theorem SharedCache.memoising_getOrDraw :
    Memoising SharedCache.getOrDraw SharedCache.held where
  hit := by
    rintro key ⟨cache, supply⟩ value found
    simp only [SharedCache.held] at found
    simp only [SharedCache.getOrDraw, found, and_self]
  miss := by
    rintro key ⟨cache, supply⟩ missing other
    simp only [SharedCache.held] at missing
    simp only [SharedCache.getOrDraw, missing]
    exact getElem?_insert _ _ _ _

namespace Consult

variable {α σ : Type}

def answers (resolve : Resolver σ) : Consult α → σ → List Answer
  | .done _, _ => []
  | .ask _ key resume, state =>
    let answer := resolve key state
    (key, answer.1.value) :: (resume answer.1.value).answers resolve answer.2

/-- A recording resolver does what the recorded one does, and lists the answers. -/
theorem run_recorded (resolve : Resolver σ) (consult : Consult α) (state : σ)
    (before : List Answer) (log : Array Event) :
    consult.run resolve.recorded (state, before) log =
      let plain := consult.run resolve state log
      (plain.1, (plain.2.1, before ++ consult.answers resolve state), plain.2.2) := by
  induction consult generalizing state before log with
  | done result => simp only [run, answers, List.append_nil]
  | ask said key resume ih =>
    simp only [run, answers, Resolver.recorded, ih, List.append_assoc, List.singleton_append]

/-- How a computation goes on after some answers. -/
inductive Follows : Consult α → List Answer → Consult α → Prop where
  | refl (consult : Consult α) : Follows consult [] consult
  | ask {said : List Event} {key value : String} {resume : String → Consult α}
      {answers : List Answer} {rest : Consult α} (others : Follows (resume value) answers rest) :
      Follows (.ask said key resume) ((key, value) :: answers) rest

theorem Follows.step {consult : Consult α} {answers : List Answer} {said : List Event}
    {key : String} {resume : String → Consult α}
    (follows : consult.Follows answers (.ask said key resume)) (value : String) :
    consult.Follows (answers ++ [(key, value)]) (resume value) := by
  generalize stopped : Consult.ask said key resume = rest at follows
  induction follows with
  | refl =>
    subst stopped
    exact .ask (.refl _)
  | ask others ih => exact .ask (ih stopped)

/-- A computation that came to its result with some answers comes to it with a table that agrees
with them, and these are the answers that the table gives. -/
theorem Follows.table {consult : Consult α} {answers : List Answer} {result : α}
    (follows : consult.Follows answers (.done result)) (values : String → String)
    (agree : ∀ answer ∈ answers, values answer.1 = answer.2) (log : Array Event) :
    (consult.run (Resolver.table values) () log).1 = result ∧
      consult.answers (Resolver.table values) () = answers := by
  generalize ended : Consult.done result = rest at follows
  induction follows generalizing log with
  | refl =>
    subst ended
    exact ⟨rfl, rfl⟩
  | ask others ih =>
    have same := agree _ (List.mem_cons_self ..)
    have later := ih (fun answer member => agree answer (List.mem_cons_of_mem _ member))
    simp only [run, Consult.answers, Resolver.table]
    dsimp only at same
    rw [same]
    refine ⟨(later _ ended).1, ?_⟩
    rw [(later #[] ended).2]

end Consult

/-- After a computation a memoising cache holds what it held, and the answers that it gave. -/
theorem Cache.Memoising.held_run {α σ : Type} {resolve : Resolver σ}
    {held : σ → String → Option String} (memoising : Memoising resolve held)
    (consult : Consult α) (state : σ) (log : Array Event) (key value : String) :
    held (consult.run resolve state log).2.1 key = some value ↔
      held state key = some value ∨ (key, value) ∈ consult.answers resolve state := by
  induction consult generalizing state log with
  | done result => simp only [Consult.run, Consult.answers, List.not_mem_nil, or_false]
  | ask said asked resume ih =>
    simp only [Consult.run, Consult.answers, List.mem_cons, Prod.mk.injEq]
    rw [ih, memoising.held_resolve, or_assoc]

/-- A computation that asks for nothing but keys that have values leaves a memoising cache as it
is. -/
theorem Cache.Memoising.run_of_held {α σ : Type} {resolve : Resolver σ}
    {held : σ → String → Option String} (memoising : Memoising resolve held)
    (consult : Consult α) (state : σ) (log : Array Event)
    (known : ∀ answer ∈ consult.answers resolve state, ∃ value, held state answer.1 = some value) :
    (consult.run resolve state log).2.1 = state := by
  induction consult generalizing log with
  | done result => rfl
  | ask said key resume ih =>
    simp only [Consult.run, Consult.answers, List.forall_mem_cons] at known ⊢
    obtain ⟨⟨value, found⟩, later⟩ := known
    have same := (memoising.hit key state value found).2
    rw [same] at later ⊢
    exact ih _ _ later

end EnumStamp
