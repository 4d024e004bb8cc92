import EnumStamp.Proofs.Sighting
import EnumStamp.Proofs.Stamping.Declarations

set_option autoImplicit false

namespace EnumStamp

inductive Part where
  | node (id : NodeId)
  /-- The initializer of a member, with all below it. -/
  | initializer (member : NodeId)

namespace Part

def nodes (arena : Arena) : Part → List NodeId
  | .node id => [id]
  | .initializer id =>
    match arena.enumMember? id with
    | some member => arena.preorder member.initializer
    | none => []

def member? : Part → Option NodeId
  | .node _ => none
  | .initializer id => some id

end Part

namespace Arena

/-- The parts of a tree that stays as it is. -/
def plainParts (arena : Arena) (id : NodeId) : List Part :=
  (arena.preorder id).map .node

/-- The parts of a member of a const enum. One with a simple name gets a new initializer. -/
def memberParts (arena : Arena) (id : NodeId) : List Part :=
  match arena.enumMember? id, arena.memberName? id with
  | some member, some _ => .node id :: arena.plainParts member.name ++ [.initializer id]
  | _, _ => arena.plainParts id

/-- The parts of a tree. Only children that come before their parent are followed. -/
def parts (arena : Arena) (id : NodeId) : List Part :=
  match arena.kind? id with
  | none => []
  | some kind =>
    if kind.isDoc then arena.plainParts id
    else if kind = Construct.enumDeclaration.kind then
      match arena.constEnum? id with
      | none => arena.plainParts id
      | some (decl, _) =>
        .node id :: (decl.modifiers.getD [] ++ [decl.name]).flatMap arena.plainParts ++
          decl.members.flatMap arena.memberParts
    else
      .node id :: (arena.children id).flatMap fun child =>
        if _lower : child.position < id.position then arena.parts child else []
termination_by id.position

section Parts

variable {arena : Arena} {id : NodeId}

theorem memberParts_of_none (noName : arena.memberName? id = none) :
    arena.memberParts id = arena.plainParts id := by
  rw [memberParts, noName]
  cases arena.enumMember? id <;> rfl

theorem memberParts_of_name {member : EnumMember} {name : String}
    (atMember : arena.enumMember? id = some member) (atName : arena.memberName? id = some name) :
    arena.memberParts id =
      .node id :: arena.plainParts member.name ++ [.initializer id] := by
  rw [memberParts, atMember, atName]

theorem parts_of_not_has (missing : ¬ arena.Has id) : arena.parts id = [] := by
  rw [parts, kind?_eq_none_iff.mpr missing]

theorem parts_of_doc {kind : Kind} (found : arena.kind? id = some kind)
    (isDoc : kind.isDoc = true) : arena.parts id = arena.plainParts id := by
  rw [parts, found]
  exact if_pos isDoc

theorem parts_of_plain (found : arena.kind? id = some Construct.enumDeclaration.kind)
    (other : arena.constEnum? id = none) : arena.parts id = arena.plainParts id := by
  rw [parts, found]
  dsimp only
  rw [if_neg (by decide), if_pos rfl, other]

theorem parts_of_const (found : arena.kind? id = some Construct.enumDeclaration.kind)
    {decl : EnumDecl} {enumName : String} (isConst : arena.constEnum? id = some (decl, enumName)) :
    arena.parts id =
      .node id :: (decl.modifiers.getD [] ++ [decl.name]).flatMap arena.plainParts ++
        decl.members.flatMap arena.memberParts := by
  rw [parts, found]
  dsimp only
  rw [if_neg (by decide), if_pos rfl, isConst]

theorem parts_of_other (sound : arena.WellFormed) {kind : Kind}
    (found : arena.kind? id = some kind) (noDoc : kind.isDoc = false)
    (noEnum : kind ≠ Construct.enumDeclaration.kind) :
    arena.parts id = .node id :: (arena.children id).flatMap arena.parts := by
  have followed : (arena.children id).map (fun child =>
      if _lower : child.position < id.position then arena.parts child else []) =
        (arena.children id).map arena.parts :=
    List.map_congr_left fun child member => dif_pos (sound.child_lt member)
  rw [parts, found]
  dsimp only
  rw [if_neg (by simp [noDoc]), if_neg noEnum]
  exact congrArg (fun below => .node id :: List.flatten below) followed

/-- Absent slots add nothing to what is read off all slots. -/
theorem flatMap_present {α : Type} {reads : NodeId → List α} (empty : reads .absent = [])
    (slots : List NodeId) :
    (slots.filter NodeId.isPresent).flatMap reads = slots.flatMap reads := by
  induction slots with
  | nil => rfl
  | cons slot slots ih =>
    by_cases present : slot.isPresent = true
    · rw [List.filter_cons_of_pos present, List.flatMap_cons, List.flatMap_cons, ih]
    · have absent : slot = .absent :=
        Decidable.not_not.mp fun filled => present ((NodeId.isPresent_iff slot).mpr filled)
      rw [List.filter_cons_of_neg present, List.flatMap_cons, ih, absent, empty, List.nil_append]

/-- A node is followed by what is at and below its slots. -/
theorem preorder_of_payload (sound : arena.WellFormed) {header : Header} {payload : Payload}
    (found : arena.header? id = some header) (stored : arena.payloadAt? header = some payload) :
    arena.preorder id = id :: payload.slots.flatMap arena.preorder := by
  rw [preorder_of_has sound (has_of_header found), children_eq_filter found,
    slotsAt_of_payload stored, flatMap_present (preorder_of_not_has arena.not_has_absent)]

theorem nodes_plainParts (arena : Arena) (id : NodeId) :
    (arena.plainParts id).flatMap (Part.nodes arena) = arena.preorder id := by
  rw [plainParts, List.flatMap_map]
  exact List.flatMap_singleton' _

theorem nodes_memberParts (sound : arena.WellFormed) (id : NodeId) :
    (arena.memberParts id).flatMap (Part.nodes arena) = arena.preorder id := by
  cases atName : arena.memberName? id with
  | none => rw [memberParts_of_none atName, nodes_plainParts]
  | some name =>
    obtain ⟨member, atMember, _⟩ := memberName?_eq_some_iff.mp atName
    obtain ⟨header, found, stored⟩ := payload_of_enumMember? atMember
    rw [memberParts_of_name atMember atName, preorder_of_payload sound found stored, Payload.slots]
    simp only [List.cons_append, List.flatMap_cons, List.flatMap_append, List.flatMap_nil,
      List.append_nil, List.nil_append, nodes_plainParts, Part.nodes, atMember]

/-- Induction on what a walk does with a node: it passes it over, handles it as an enum, or turns to
its children. -/
@[elab_as_elim]
theorem enter_induct (sound : arena.WellFormed) {motive : NodeId → Prop}
    (missing : ∀ {id}, ¬ arena.Has id → motive id)
    (doc : ∀ {id kind}, arena.kind? id = some kind → kind.isDoc = true → motive id)
    (plain : ∀ {id}, arena.kind? id = some Construct.enumDeclaration.kind →
      arena.constEnum? id = none → motive id)
    (const : ∀ {id decl enumName}, arena.kind? id = some Construct.enumDeclaration.kind →
      arena.constEnum? id = some (decl, enumName) → motive id)
    (other : ∀ {id kind}, arena.kind? id = some kind → kind.isDoc = false →
      kind ≠ Construct.enumDeclaration.kind → (∀ child ∈ arena.children id, motive child) →
        motive id)
    (id : NodeId) : motive id := by
  induction position : id.position using Nat.strongRecOn generalizing id with
  | ind position ih =>
    cases found : arena.kind? id with
    | none => exact missing (kind?_eq_none_iff.mp found)
    | some kind =>
      cases isDoc : kind.isDoc with
      | true => exact doc found isDoc
      | false =>
        by_cases isEnum : kind = Construct.enumDeclaration.kind
        · subst isEnum
          cases chosen : arena.constEnum? id with
          | none => exact plain found chosen
          | some isConst => exact const found chosen
        · exact other found isDoc isEnum fun child member =>
            ih child.position (position ▸ sound.child_lt member) child rfl

/-- The parts of a tree make it up. -/
theorem nodes_parts (sound : arena.WellFormed) (id : NodeId) :
    (arena.parts id).flatMap (Part.nodes arena) = arena.preorder id := by
  induction id using enter_induct sound with
  | missing missing =>
    rw [parts_of_not_has missing, preorder_of_not_has missing]
    rfl
  | doc found isDoc => rw [parts_of_doc found isDoc, nodes_plainParts]
  | plain found other => rw [parts_of_plain found other, nodes_plainParts]
  | const found isConst =>
    obtain ⟨header, atHeader, _⟩ := header_of_kind found
    obtain ⟨atDecl, _, _⟩ := constEnum?_eq_some_iff.mp isConst
    have stored := payload_of_enumDecl? atHeader atDecl
    rw [parts_of_const found isConst, preorder_of_payload sound atHeader stored, Payload.slots]
    simp only [List.cons_append, List.flatMap_cons, List.flatMap_append, List.flatMap_nil,
      List.flatMap_assoc, List.append_assoc, List.append_nil, List.nil_append, nodes_plainParts,
      nodes_memberParts sound, Part.nodes]
  | @other id kind found noDoc noEnum below =>
    rw [parts_of_other sound found noDoc noEnum, preorder_of_has sound (has_of_kind found),
      List.flatMap_cons, List.flatMap_assoc, List.flatMap_congr below]
    rfl

def simpleMembers (arena : Arena) (id : NodeId) : List NodeId :=
  (((arena.enumDecl? id).map EnumDecl.members).getD []).filter fun member =>
    (arena.memberName? member).isSome

theorem members_plainParts (arena : Arena) (id : NodeId) :
    (arena.plainParts id).filterMap Part.member? = [] := by
  rw [plainParts, List.filterMap_map]
  exact List.filterMap_eq_nil_iff.mpr fun _ _ => rfl

theorem members_memberParts (arena : Arena) (id : NodeId) :
    (arena.memberParts id).filterMap Part.member? =
      [id].filter fun member => (arena.memberName? member).isSome := by
  cases atName : arena.memberName? id with
  | none =>
    rw [memberParts_of_none atName, members_plainParts, List.filter_singleton, atName]
    rfl
  | some name =>
    obtain ⟨member, atMember, _⟩ := memberName?_eq_some_iff.mp atName
    rw [memberParts_of_name atMember atName, List.cons_append, List.filterMap_cons_none rfl,
      List.filterMap_append, members_plainParts, List.filter_singleton, atName]
    rfl

/-- The initializers among the parts of a const enum are those of its members with simple names. -/
theorem members_of_const (found : arena.kind? id = some Construct.enumDeclaration.kind)
    {decl : EnumDecl} {enumName : String} (isConst : arena.constEnum? id = some (decl, enumName)) :
    (arena.parts id).filterMap Part.member? = arena.simpleMembers id := by
  obtain ⟨atDecl, _, _⟩ := constEnum?_eq_some_iff.mp isConst
  have plain (ids : List NodeId) :
      (ids.flatMap arena.plainParts).filterMap Part.member? = [] := by
    rw [List.filterMap_flatMap]
    simp only [members_plainParts, List.flatMap_eq_nil_iff, implies_true]
  rw [parts_of_const found isConst, List.cons_append, List.filterMap_cons_none rfl,
    List.filterMap_append, plain, List.nil_append, List.filterMap_flatMap, simpleMembers, atDecl]
  simp only [members_memberParts]
  rw [← List.filter_flatMap, List.flatMap_singleton']
  rfl

/-- The initializers among the parts of a tree are those of the members with simple names of the
const enums that it declares. -/
theorem members_parts (sound : arena.WellFormed) (id : NodeId) :
    (arena.parts id).filterMap Part.member? = (arena.declared id).flatMap arena.simpleMembers := by
  rw [← List.flatMap_singleton arena.declared id]
  induction id using enter_induct sound with
  | missing missing =>
    rw [parts_of_not_has missing, declared_of_not_has missing]
    rfl
  | doc found isDoc =>
    rw [parts_of_doc found isDoc, members_plainParts, declared_of_doc found isDoc]
    rfl
  | plain found other =>
    rw [parts_of_plain found other, members_plainParts, declared_of_enum found, other]
    rfl
  | const found isConst =>
    rw [members_of_const found isConst, declared_of_enum found, isConst, Option.isSome_some,
      if_pos rfl, List.flatMap_singleton]
  | other found noDoc noEnum below =>
    simp only [List.flatMap_singleton] at below ⊢
    have entered := isEntered_iff.mpr ⟨_, found, noDoc, noEnum⟩
    rw [parts_of_other sound found noDoc noEnum, List.filterMap_cons_none rfl,
      List.filterMap_flatMap, declared_of_entered sound entered, List.flatMap_assoc]
    exact List.flatMap_congr below

end Parts

end Arena

end EnumStamp
