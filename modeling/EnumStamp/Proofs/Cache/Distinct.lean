import EnumStamp.Cache.Key
import EnumStamp.Proofs.Cache.Answers

set_option autoImplicit false

namespace EnumStamp.Cache

/-- Moving a part with its separator from the front of the member name to the end of the enum name
gives the same key. -/
theorem key_cut (enumName middle memberName : String) :
    key enumName (middle ++ keySeparator ++ memberName) =
      key (enumName ++ keySeparator ++ middle) memberName := by
  simp only [key, String.append_assoc]

/-- The names can be cut at another separator. -/
def Cut (first one second other : String) : Prop :=
  ∃ middle, second = first ++ keySeparator ++ middle ∧ one = middle ++ keySeparator ++ other

/-- One text with a mark at two places. -/
theorem marked_cases {α : Type} {mark : α} {left rest right others : List α}
    (same : left ++ mark :: rest = right ++ mark :: others) :
    (left = right ∧ rest = others) ∨
      (∃ middle, right = left ++ mark :: middle ∧ rest = middle ++ mark :: others) ∨
      ∃ middle, left = right ++ mark :: middle ∧ others = middle ++ mark :: rest := by
  rcases List.append_eq_append_iff.mp same with ⟨gap, longer, tail⟩ | ⟨gap, longer, tail⟩
  · cases gap with
    | nil =>
      rw [List.append_nil] at longer
      exact .inl ⟨longer.symm, (List.cons.inj tail).2⟩
    | cons first middle =>
      obtain ⟨rfl, after⟩ := List.cons.inj tail
      exact .inr (.inl ⟨middle, longer, after⟩)
  · cases gap with
    | nil =>
      rw [List.append_nil] at longer
      exact .inl ⟨longer, (List.cons.inj tail).2.symm⟩
    | cons first middle =>
      obtain ⟨rfl, after⟩ := List.cons.inj tail
      exact .inr (.inr ⟨middle, longer, after⟩)

theorem cut_of_toList {first one second other : String} {middle : List Char}
    (longer : second.toList = first.toList ++ '_' :: middle)
    (shorter : one.toList = middle ++ '_' :: other.toList) : Cut first one second other := by
  refine ⟨String.ofList middle, ?_, ?_⟩
  · apply String.toList_inj.mp
    simp [longer, keySeparator]
  · apply String.toList_inj.mp
    simp [shorter, keySeparator]

/-- Only names that are cut at another separator share a key with different names. -/
theorem key_eq_iff (first one second other : String) :
    key first one = key second other ↔
      (first = second ∧ one = other) ∨ Cut first one second other ∨
        Cut second other first one := by
  constructor
  · intro same
    have chars : first.toList ++ '_' :: one.toList = second.toList ++ '_' :: other.toList := by
      have both := congrArg String.toList same
      simpa [key, keySeparator] using both
    rcases marked_cases chars with ⟨left, right⟩ | ⟨middle, longer, shorter⟩ |
      ⟨middle, longer, shorter⟩
    · exact .inl ⟨String.toList_inj.mp left, String.toList_inj.mp right⟩
    · exact .inr (.inl (cut_of_toList longer shorter))
    · exact .inr (.inr (cut_of_toList longer shorter))
  · rintro (⟨rfl, rfl⟩ | ⟨middle, rfl, rfl⟩ | ⟨middle, rfl, rfl⟩)
    · rfl
    · exact key_cut first middle other
    · exact (key_cut second middle one).symm

/-- Different keys hold different values, and all of them were drawn. -/
structure Distinct (state : OwnCache × Supply) : Prop where
  injective : ∀ first second value, OwnCache.held state first = some value →
    OwnCache.held state second = some value → first = second
  drawn : ∀ key value, OwnCache.held state key = some value →
    ∃ place < state.2.drawn, state.2.value place = value

theorem distinct_empty (supply : Supply) : Distinct (OwnCache.empty, supply) where
  injective := by
    intro first second value found
    cases found
  drawn := by
    intro key value found
    cases found

/-- A request for a key that has no value draws the next one. -/
theorem resolve_of_missing {key : String} {state : OwnCache × Supply}
    (missing : OwnCache.held state key = none) :
    (OwnCache.resolve key state).1.value = state.2.value state.2.drawn ∧
      (OwnCache.resolve key state).2.2 = { state.2 with drawn := state.2.drawn + 1 } := by
  obtain ⟨cache, supply⟩ := state
  simp only [OwnCache.held] at missing
  simp only [OwnCache.resolve, missing, Supply.draw, and_self]

/-- A request keeps the values apart, if the supply never repeats one. -/
theorem Distinct.resolve {state : OwnCache × Supply} (distinct : Distinct state)
    (fresh : Function.Injective state.2.value) (key : String) :
    Distinct (OwnCache.resolve key state).2 ∧
      (OwnCache.resolve key state).2.2.value = state.2.value := by
  cases found : OwnCache.held state key with
  | some value =>
    rw [(OwnCache.memoising.hit key state value found).2]
    exact ⟨distinct, rfl⟩
  | none =>
    obtain ⟨answer, supply⟩ := resolve_of_missing found
    have held := OwnCache.memoising.held_resolve key state
    -- All values that are held were drawn earlier, and the supply does not repeat them.
    have unused : ∀ other,
        OwnCache.held state other ≠ some (OwnCache.resolve key state).1.value := by
      intro other old
      obtain ⟨place, early, same⟩ := distinct.drawn other _ old
      rw [answer] at same
      have again := fresh same
      omega
    refine ⟨⟨?_, ?_⟩, by rw [supply]⟩
    · intro first second value inFirst inSecond
      rcases (held first value).mp inFirst with old | ⟨rfl, rfl⟩
      · rcases (held second value).mp inSecond with alsoOld | ⟨rfl, rfl⟩
        · exact distinct.injective first second value old alsoOld
        · exact absurd old (unused first)
      · rcases (held second _).mp inSecond with old | ⟨rfl, _⟩
        · exact absurd old (unused second)
        · rfl
    · intro other value inOther
      rw [supply]
      rcases (held other value).mp inOther with old | ⟨rfl, rfl⟩
      · obtain ⟨place, early, same⟩ := distinct.drawn other value old
        exact ⟨place, Nat.lt_succ_of_lt early, same⟩
      · exact ⟨state.2.drawn, Nat.lt_succ_self _, answer.symm⟩

/-- So does a computation. -/
theorem Distinct.run {α : Type} {state : OwnCache × Supply} (distinct : Distinct state)
    (fresh : Function.Injective state.2.value) (consult : Consult α) (log : Array Event) :
    Distinct (consult.run OwnCache.resolve state log).2.1 ∧
      (consult.run OwnCache.resolve state log).2.1.2.value = state.2.value := by
  induction consult generalizing state log with
  | done result => exact ⟨distinct, rfl⟩
  | ask said key resume ih =>
    obtain ⟨after, same⟩ := distinct.resolve fresh key
    simp only [Consult.run]
    have later := ih (OwnCache.resolve key state).1.value after (same ▸ fresh)
      (log ++ said ++ (OwnCache.resolve key state).1.events)
    rw [same] at later
    exact later

end EnumStamp.Cache
