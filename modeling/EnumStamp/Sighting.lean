import EnumStamp.Arena.Extent
import EnumStamp.Arena.SourceText
import EnumStamp.Event

set_option autoImplicit false

namespace EnumStamp

structure Sighting where
  id : NodeId
  kind : String
  text : String
  deriving DecidableEq

namespace Sighting

def event (sighting : Sighting) : Event :=
  .nodeSighted sighting.id sighting.kind sighting.text

/-- What is seen of a node, whose text is read from the source file `file`. -/
def ofNode? (arena : Arena) (file id : NodeId) : Option Sighting :=
  (arena.kind? id).map fun kind => { id, kind := kind.name, text := arena.preview file id }

end Sighting

/-- A pass that counts the nodes it is shown, and keeps the sightings if it is to collect them. -/
structure TracePass where
  collects : Bool
  visited : Nat
  sightings : Array Sighting

structure Traced where
  pass : TracePass
  /-- The source file, as it was. -/
  root : NodeId
  events : List Event

namespace TracePass

def create (collects : Bool) : TracePass :=
  { collects, visited := 0, sightings := #[] }

def look (pass : TracePass) (sighting : Sighting) : TracePass :=
  { pass with
    visited := pass.visited + 1
    sightings := if pass.collects then pass.sightings.push sighting else pass.sightings }

/-- Shows the nodes that wait on a stack and all below them, in at most `steps` steps. Nodes that
are missing are passed over. The events have the latest first. -/
def watch (arena : Arena) (file : NodeId) : (steps : Nat) → (pending : List NodeId) → TracePass →
    (said : List Event) → Option (TracePass × List Event)
  | _, [], pass, said => some (pass, said)
  | 0, _ :: _, _, _ => none
  | steps + 1, id :: pending, pass, said =>
    match Sighting.ofNode? arena file id with
    | none => watch arena file steps pending pass said
    | some sighting =>
      watch arena file steps (arena.children id ++ pending) (pass.look sighting)
        (sighting.event :: said)

/-- Shows a source file to the pass. There is no outcome for a tree without end. -/
def file (pass : TracePass) (arena : Arena) (root : NodeId) : Option Traced := do
  let name := arena.fileName? root
  let (pass, said) ←
    watch arena root (arena.occurrenceBound root) [root] pass [.fileStarted name]
  return { pass, root, events := (.fileFinished name none :: said).reverse }

end TracePass

end EnumStamp
