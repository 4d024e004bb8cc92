import EnumStamp.Event
import Std.Data.TreeMap

/-!
Caches: which value was generated for which key. The first request for a key draws a fresh value
and every later one gets the same value again. A cache of one's own is looked up and extended in one
step. A shared one is asked in two: a lookup, and after a miss a draw, which is void if the key has
got a value in the meantime.
-/

set_option autoImplicit false

namespace EnumStamp

namespace Cache

/-- Fresh values in the order in which they are drawn. -/
structure Supply where
  value : Nat → String
  drawn : Nat

def Supply.draw (supply : Supply) : String × Supply :=
  (supply.value supply.drawn, { supply with drawn := supply.drawn + 1 })

/-- The entries of a cache, sorted by key. -/
abbrev Entries := Std.TreeMap String String

/-- The answer to a request: the value, and what happened on the way. -/
structure Resolved where
  value : String
  events : List Event

abbrev Resolver (σ : Type) := String → σ → Resolved × σ

/-- How a reference to a cache answers: it passes requests on. -/
def Resolver.byReference {σ : Type} (resolve : Resolver σ) : Resolver σ
  | key, state => resolve key state

end Cache

open Cache

/-- A cache with one owner. -/
structure OwnCache where
  entries : Entries

namespace OwnCache

def empty : OwnCache :=
  ⟨{}⟩

def size (cache : OwnCache) : Nat :=
  cache.entries.size

def isEmpty (cache : OwnCache) : Bool :=
  cache.entries.isEmpty

def get? (cache : OwnCache) (key : String) : Option String :=
  cache.entries[key]?

def toList (cache : OwnCache) : List (String × String) :=
  cache.entries.toList

/-- The value of a key, drawn from the supply and remembered if the key has none. -/
def resolve : Resolver (OwnCache × Supply)
  | key, (cache, supply) =>
    match cache.get? key with
    | some value => (⟨value, [.valueFound key value]⟩, cache, supply)
    | none =>
      let (value, supply) := supply.draw
      (⟨value, [.valueGenerated key value]⟩, ⟨cache.entries.insert key value⟩, supply)

end OwnCache

/-- A cache that several walks use at once. -/
structure SharedCache where
  entries : Entries

namespace SharedCache

def empty : SharedCache :=
  ⟨{}⟩

def size (cache : SharedCache) : Nat :=
  cache.entries.size

def isEmpty (cache : SharedCache) : Bool :=
  cache.entries.isEmpty

def get? (cache : SharedCache) (key : String) : Option String :=
  cache.entries[key]?

def toList (cache : SharedCache) : List (String × String) :=
  cache.entries.toList

/-- The second step of a request, after a miss: the value that the key has got in the meantime, or
else a fresh one, which is remembered. -/
def getOrDraw : Resolver (SharedCache × Supply)
  | key, (cache, supply) =>
    match cache.get? key with
    | some value => (⟨value, []⟩, cache, supply)
    | none =>
      let (value, supply) := supply.draw
      (⟨value, [.valueGenerated key value]⟩, ⟨cache.entries.insert key value⟩, supply)

/-- A whole request without anyone coming between its steps. -/
def resolve : Resolver (SharedCache × Supply)
  | key, (cache, supply) =>
    match cache.get? key with
    | some value => (⟨value, [.valueFound key value]⟩, cache, supply)
    | none => getOrDraw key (cache, supply)

/-- Requests for one key that all miss before any of them draws. -/
def resolveTogether (key : String) : (requests : Nat) → SharedCache × Supply →
    List String × (SharedCache × Supply)
  | 0, state => ([], state)
  | requests + 1, state =>
    let (first, state) := getOrDraw key state
    let (others, state) := resolveTogether key requests state
    (first.value :: others, state)

/-- A cache with one owner into which the entries are copied. -/
def snapshot (cache : SharedCache) : OwnCache :=
  ⟨.ofList cache.toList⟩

end SharedCache

/-- A cache of the host that remembers no value, only the keys it was asked for, in order. -/
structure CallLog where
  calls : Array String

namespace CallLog

def empty : CallLog :=
  ⟨#[]⟩

/-- Answers each call with its key and its number, from one on. -/
def resolve : Resolver CallLog
  | key, log =>
    let calls := log.calls.push key
    (⟨key ++ "#" ++ toString calls.size, []⟩, ⟨calls⟩)

def toList (log : CallLog) : List String :=
  log.calls.toList

end CallLog

end EnumStamp
