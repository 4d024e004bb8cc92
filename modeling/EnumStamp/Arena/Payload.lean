import EnumStamp.Arena.NodeId
import EnumStamp.Kind.Basic

set_option autoImplicit false

namespace EnumStamp

structure SourceFile where
  name : String
  text : String
  statements : List NodeId
  deriving DecidableEq

/-- An enum declaration; it may lack a modifier list, which differs from an empty one. -/
structure EnumDecl where
  modifiers : Option (List NodeId)
  name : NodeId
  members : List NodeId
  deriving DecidableEq

/-- A member of an enum, with an initializer or an absent one. -/
structure EnumMember where
  name : NodeId
  initializer : NodeId
  deriving DecidableEq

structure ModuleDecl where
  modifiers : Option (List NodeId)
  name : NodeId
  body : NodeId
  deriving DecidableEq

structure DocComment where
  comment : String
  tags : List NodeId
  deriving DecidableEq

/-- What a node holds besides its header, one alternative for each category but tokens. -/
inductive Payload where
  | identifier (text : String)
  /-- The text is the value of the literal, without quotes. -/
  | literal (text : String)
  | sourceFile (file : SourceFile)
  | enumeration (decl : EnumDecl)
  | enumMember (member : EnumMember)
  | computedName (expression : NodeId)
  | moduleDecl (decl : ModuleDecl)
  | doc (comment : DocComment)
  | composite (children : List NodeId)
  deriving DecidableEq

namespace Payload

def category : Payload → Category
  | .identifier _ => .identifier
  | .literal _ => .literal
  | .sourceFile _ => .sourceFile
  | .enumeration _ => .enumeration
  | .enumMember _ => .enumMember
  | .computedName _ => .computedName
  | .moduleDecl _ => .moduleDecl
  | .doc _ => .doc
  | .composite _ => .composite

/-- The contents of all slots in source order, absent ones included. -/
def slots : Payload → List NodeId
  | .identifier _ => []
  | .literal _ => []
  | .sourceFile file => file.statements
  | .enumeration decl => decl.modifiers.getD [] ++ decl.name :: decl.members
  | .enumMember member => [member.name, member.initializer]
  | .computedName expression => [expression]
  | .moduleDecl decl => decl.modifiers.getD [] ++ [decl.name, decl.body]
  | .doc comment => comment.tags
  | .composite children => children

/-- The first `count` slots as a modifier list, where there is one, and the slots after it. -/
def splitModifiers (modifiers : Option (List NodeId)) (slots : List NodeId) :
    Option (List NodeId) × List NodeId :=
  match modifiers with
  | none => (none, slots)
  | some list => (some (slots.take list.length), slots.drop list.length)

/-- The payload with other contents in its slots, as many as it has. -/
def withSlots (payload : Payload) (contents : List NodeId) : Payload :=
  match payload with
  | .identifier _ => payload
  | .literal _ => payload
  | .sourceFile file => .sourceFile { file with statements := contents }
  | .enumeration decl =>
    match splitModifiers decl.modifiers contents with
    | (modifiers, name :: members) => .enumeration { modifiers, name, members }
    | (_, []) => payload
  | .enumMember _ =>
    match contents with
    | [name, initializer] => .enumMember { name, initializer }
    | _ => payload
  | .computedName _ =>
    match contents with
    | [expression] => .computedName expression
    | _ => payload
  | .moduleDecl decl =>
    match splitModifiers decl.modifiers contents with
    | (modifiers, [name, body]) => .moduleDecl { modifiers, name, body }
    | _ => payload
  | .doc comment => .doc { comment with tags := contents }
  | .composite _ => .composite contents

/-- The children: the contents of the slots that hold a node. -/
def children (payload : Payload) : List NodeId :=
  payload.slots.filter NodeId.isPresent

/-- Puts replacements into the slots that hold a node, from left to right; absent slots stay
absent, and slots that no replacement is left for stay as they are. -/
def fillPresent : (slots replacements : List NodeId) → List NodeId
  | [], _ => []
  | slot :: slots, [] => slot :: slots
  | slot :: slots, replacement :: replacements =>
    if slot.isAbsent then slot :: fillPresent slots (replacement :: replacements)
    else replacement :: fillPresent slots replacements

def withChildren (payload : Payload) (children : List NodeId) : Payload :=
  payload.withSlots (fillPresent payload.slots children)

theorem withSlots_slots (payload : Payload) : payload.withSlots payload.slots = payload := by
  cases payload with
  | enumeration decl =>
    obtain ⟨modifiers, name, members⟩ := decl
    cases modifiers <;> simp [withSlots, slots, splitModifiers]
  | moduleDecl decl =>
    obtain ⟨modifiers, name, body⟩ := decl
    cases modifiers <;> simp [withSlots, slots, splitModifiers]
  | _ => rfl

theorem slots_withSlots (payload : Payload) (contents : List NodeId)
    (fits : contents.length = payload.slots.length) :
    (payload.withSlots contents).slots = contents := by
  cases payload with
  | identifier text => exact (List.eq_nil_of_length_eq_zero fits).symm
  | literal text => exact (List.eq_nil_of_length_eq_zero fits).symm
  | sourceFile file => rfl
  | doc comment => rfl
  | composite children => rfl
  | enumMember member =>
    match contents, fits with
    | [_, _], _ => rfl
  | computedName expression =>
    match contents, fits with
    | [_], _ => rfl
  | enumeration decl =>
    obtain ⟨modifiers, name, members⟩ := decl
    cases modifiers with
    | none =>
      match contents, fits with
      | _ :: _, _ => rfl
    | some list =>
      simp only [slots, Option.getD_some, List.length_append, List.length_cons] at fits
      have room : (contents.drop list.length).length = members.length + 1 := by
        simp only [List.length_drop]; omega
      simp only [withSlots, splitModifiers]
      match rest : contents.drop list.length, room with
      | first :: others, _ =>
        simp only [slots, Option.getD_some]
        rw [← rest, List.take_append_drop]
  | moduleDecl decl =>
    obtain ⟨modifiers, name, body⟩ := decl
    cases modifiers with
    | none =>
      match contents, fits with
      | [_, _], _ => rfl
    | some list =>
      simp only [slots, Option.getD_some, List.length_append, List.length_cons,
        List.length_nil] at fits
      have room : (contents.drop list.length).length = 2 := by
        simp only [List.length_drop]; omega
      simp only [withSlots, splitModifiers]
      match rest : contents.drop list.length, room with
      | [first, second], _ =>
        simp only [slots, Option.getD_some]
        rw [← rest, List.take_append_drop]

theorem category_withSlots (payload : Payload) (contents : List NodeId) :
    (payload.withSlots contents).category = payload.category := by
  cases payload with
  | enumeration decl =>
    simp only [withSlots]
    split <;> rfl
  | enumMember member =>
    simp only [withSlots]
    split <;> rfl
  | computedName expression =>
    simp only [withSlots]
    split <;> rfl
  | moduleDecl decl =>
    simp only [withSlots]
    split <;> rfl
  | _ => rfl

theorem length_fillPresent (slots replacements : List NodeId) :
    (fillPresent slots replacements).length = slots.length := by
  induction slots generalizing replacements with
  | nil => rfl
  | cons slot slots ih =>
    cases replacements with
    | nil => rfl
    | cons replacement replacements =>
      simp only [fillPresent]
      split <;> simp only [List.length_cons, ih]

theorem fillPresent_filter (slots : List NodeId) :
    fillPresent slots (slots.filter NodeId.isPresent) = slots := by
  induction slots with
  | nil => rfl
  | cons slot slots ih =>
    by_cases present : slot.isPresent = true
    · rw [List.filter_cons_of_pos present]
      have filled : slot.isAbsent = false := by simpa [NodeId.isPresent] using present
      simp only [fillPresent, filled, Bool.false_eq_true, if_false, ih]
    · rw [List.filter_cons_of_neg present]
      have empty : slot.isAbsent = true := by simpa [NodeId.isPresent] using present
      cases found : slots.filter NodeId.isPresent with
      | nil => rfl
      | cons first others =>
        simp only [fillPresent, empty, if_true]
        rw [← found, ih]

/-- Putting the children back where they were changes nothing. -/
theorem withChildren_children (payload : Payload) :
    payload.withChildren payload.children = payload := by
  rw [withChildren, children, fillPresent_filter, withSlots_slots]

theorem category_withChildren (payload : Payload) (children : List NodeId) :
    (payload.withChildren children).category = payload.category :=
  category_withSlots payload _

end Payload

end EnumStamp
