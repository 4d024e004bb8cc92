import EnumStamp.Arena.Declaration
import EnumStamp.Arena.Extent
import EnumStamp.Arena.Growth
import EnumStamp.Arena.SourceText
import EnumStamp.Cache.Consult
import EnumStamp.Cache.Key

/-!
The stamping walk: giving the members of every const enum of a tree the values that a cache holds
for them. The walk goes depth first with a stack of frames, so the depth of a tree does not matter.
Documentation is not entered, an enum is handled as a whole, and any other node is copied only if
one of its children was. Nodes that were there before stay as they are.
-/

set_option autoImplicit false

namespace EnumStamp

structure MemberStamp where
  member : String
  key : String
  value : String
  deriving DecidableEq

/-- The record of a const enum declaration that was handled. -/
structure EnumStampRecord where
  /-- The name of the file, if a file was walked. -/
  file : Option String
  enumName : String
  exported : Bool
  /-- The declaration before. -/
  source : NodeId
  /-- The declaration that takes its place. -/
  result : NodeId
  members : List MemberStamp
  /-- The number of members that were kept because their names are no identifiers. -/
  kept : Nat
  deriving DecidableEq

/-- An enum declaration some of whose members have been handled; lists have the latest first. -/
structure PartialEnum where
  arena : Arena
  members : List NodeId
  stamps : List MemberStamp
  kept : Nat
  /-- The events since the cache was last asked. -/
  said : List Event

/-- Handles the remaining members of an enum from left to right: a member with a simple name gets
the value of its key as a string for its initializer, and any other member is kept. -/
def stampMembers (enumName : String) : List NodeId → PartialEnum → Consult PartialEnum
  | [], state => .done state
  | id :: ids, state =>
    match state.arena.memberName? id with
    | none =>
      stampMembers enumName ids
        { state with
          members := id :: state.members
          kept := state.kept + 1
          said := .memberKept enumName id :: state.said }
    | some name =>
      match state.arena.enumMember? id with
      -- Only a member has a name, so nothing comes this way, and nothing would be counted.
      | none => stampMembers enumName ids { state with members := id :: state.members }
      | some member =>
        let key := Cache.key enumName name
        .ask (.memberStarted enumName name :: state.said).reverse key fun value =>
          let (arena, initializer) := state.arena.createString value
          let (arena, stamped) := arena.updateEnumMember id { member with initializer }
          stampMembers enumName ids
            { arena
              members := stamped :: state.members
              stamps := { member := name, key, value } :: state.stamps
              kept := state.kept
              said := [.memberStamped name value] }

/-- A frame of the walk: a node to enter, or one whose children have been handled. -/
inductive Frame where
  | enter (id : NodeId)
  | leave (id : NodeId) (children : Nat)
  deriving DecidableEq

/-- The state of a walk; lists have the latest first. -/
structure Walk where
  arena : Arena
  frames : List Frame
  /-- The replacements of handled nodes that no node above them has used yet. -/
  results : List NodeId
  records : List EnumStampRecord
  said : List Event

namespace Walk

def finish (walk : Walk) (result : NodeId) : Walk :=
  { walk with results := result :: walk.results }

def say (walk : Walk) (event : Event) : Walk :=
  { walk with said := event :: walk.said }

/-- Handles an enum declaration. One without payload, without a name or without a const modifier
stays as it is. -/
def enterEnum (file : Option String) (walk : Walk) (id : NodeId) : Consult Walk :=
  match walk.arena.enumDecl? id with
  | none => .done (walk.finish id)
  | some decl =>
    match walk.arena.identifierText? decl.name with
    | none => .done ((walk.say (.namelessEnum id)).finish id)
    | some enumName =>
      let walk := walk.say (.enumEntered enumName)
      let modifiers := walk.arena.modifiers decl.modifiers
      if modifiers.contains .const then
        let exported := modifiers.contains .exported
        let started : PartialEnum :=
          { arena := walk.arena
            members := []
            stamps := []
            kept := 0
            said := .constEnumStarted enumName exported :: walk.said }
        (stampMembers enumName decl.members started).bind fun state =>
          let (arena, result) :=
            state.arena.updateEnum id { decl with members := state.members.reverse }
          .done
            { arena
              frames := walk.frames
              results := result :: walk.results
              records :=
                { file
                  enumName
                  exported
                  source := id
                  result
                  members := state.stamps.reverse
                  kept := state.kept } :: walk.records
              said := .constEnumFinished enumName :: state.said }
      else .done ((walk.say (.plainEnum enumName)).finish id)

def enter (file : Option String) (walk : Walk) (id : NodeId) : Consult Walk :=
  match walk.arena.kind? id with
  | none => .done (walk.finish id)
  | some kind =>
    let walk := walk.say (.nodeEntered id kind.name)
    if kind.isDoc then .done ((walk.say (.docSkipped id)).finish id)
    else if kind = Construct.enumDeclaration.kind then walk.enterEnum file id
    else
      match walk.arena.children id with
      | [] => .done (walk.finish id)
      | children =>
        .done
          { walk with
            frames := children.map .enter ++ .leave id children.length :: walk.frames }

/-- Leaves a node: its children's replacements are the latest results, and it is copied if one of
them is new. -/
def leave (walk : Walk) (id : NodeId) (children : Nat) : Walk :=
  let replacements := (walk.results.take children).reverse
  let results := walk.results.drop children
  let said := (walk.arena.childMismatch? id replacements).toList ++ walk.said
  let (arena, result) := walk.arena.updateChildren id replacements
  { arena, frames := walk.frames, results := result :: results, records := walk.records, said }

def step (file : Option String) (walk : Walk) : Frame → Consult Walk
  | .enter id => walk.enter file id
  | .leave id children => .done (walk.leave id children)

/-- Handles frames until none is left, at most `steps` of them. -/
def iterate (file : Option String) : (steps : Nat) → Walk → Consult (Option Walk)
  | steps, walk =>
    match walk.frames with
    | [] => .done (some walk)
    | frame :: frames =>
      match steps with
      | 0 => .done none
      | steps + 1 =>
        match step file { walk with frames } frame with
        | .done next => iterate file steps next
        | .ask said key resume =>
          .ask said key fun value => (resume value).bind (iterate file steps)

/-- The walk that is about to enter the node `root`. -/
def start (arena : Arena) (root : NodeId) (said : List Event) : Walk :=
  { arena, frames := [.enter root], results := [], records := [], said }

/-- A bound for the frames of a walk from `root`: each occurrence of a node is entered once and
left at most once. -/
def frameBound (arena : Arena) (root : NodeId) : Nat :=
  2 * arena.occurrenceBound root

end Walk

/-- What a finished walk leaves behind, in order. -/
structure Stamped where
  arena : Arena
  root : NodeId
  records : List EnumStampRecord
  said : List Event

namespace Stamped

def ofWalk (root : NodeId) (walk : Walk) : Stamped :=
  { arena := walk.arena
    root := walk.results.headD root
    records := walk.records.reverse
    said := walk.said.reverse }

end Stamped

/-- Stamps the tree below `root`, for records of `file`. There is no outcome for a tree without
end. -/
def stampTree (file : Option String) (said : List Event) (arena : Arena) (root : NodeId) :
    Consult (Option Stamped) :=
  (Walk.iterate file (Walk.frameBound arena root) (Walk.start arena root said)).bind fun walk =>
    .done (walk.map (Stamped.ofWalk root))

end EnumStamp
