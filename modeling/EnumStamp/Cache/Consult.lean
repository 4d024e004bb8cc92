import EnumStamp.Cache.Basic

/-!
Consultations: computations that ask a cache for values. Such a computation is finished, or it has
stopped at a key, after some events, and goes on with whatever value it is given. Which cache
answers, and what else happens to that cache in between, is not its concern.
-/

set_option autoImplicit false

namespace EnumStamp

/-- A computation of an `α` that asks for the values of keys. -/
inductive Consult (α : Type) where
  | done (result : α)
  /-- Stopped at a key; `said` are the events since the last stop. -/
  | ask (said : List Event) (key : String) (resume : String → Consult α)

namespace Consult

def bind {α β : Type} : Consult α → (α → Consult β) → Consult β
  | .done result, next => next result
  | .ask said key resume, next => .ask said key fun value => (resume value).bind next

/-- Lets a cache answer all keys. The answer is the result, the cache after it, and the log
continued by all events up to the last key. -/
def run {α σ : Type} (resolve : Cache.Resolver σ) : Consult α → σ → (log : Array Event) →
    α × σ × Array Event
  | .done result, state, log => (result, state, log)
  | .ask said key resume, state, log =>
    let (resolved, state) := resolve key state
    (resume resolved.value).run resolve state (log ++ said ++ resolved.events)

@[simp] theorem bind_done {α : Type} (consult : Consult α) : consult.bind .done = consult := by
  induction consult with
  | done result => rfl
  | ask said key resume ih => simp only [bind, ih]

theorem bind_assoc {α β γ : Type} (consult : Consult α) (next : α → Consult β)
    (last : β → Consult γ) :
    (consult.bind next).bind last = consult.bind fun result => (next result).bind last := by
  induction consult with
  | done result => rfl
  | ask said key resume ih => simp only [bind, ih]

theorem run_bind {α β σ : Type} (resolve : Cache.Resolver σ) (consult : Consult α)
    (next : α → Consult β) (state : σ) (log : Array Event) :
    (consult.bind next).run resolve state log =
      let (result, state, log) := consult.run resolve state log
      (next result).run resolve state log := by
  induction consult generalizing state log with
  | done result => rfl
  | ask said key resume ih => simp only [bind, run, ih]

end Consult

end EnumStamp
