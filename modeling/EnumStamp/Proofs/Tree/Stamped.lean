import EnumStamp.Cache.Key
import EnumStamp.Proofs.Stamping.Recursion
import EnumStamp.Proofs.Tree.Basic

set_option autoImplicit false

namespace EnumStamp

namespace Tree

def kind? : Tree → Option Kind
  | .node label _ => some label.kind
  | _ => none

def identifierText? : Tree → Option String
  | .node ⟨_, _, _, _, .identifier text⟩ _ => some text
  | _ => none

/-- The text of a tree that is an ordinary identifier, and no private one. -/
def simpleName? (name : Tree) : Option String :=
  if name.kind? = some Token.identifier.kind then name.identifierText? else none

def string (text : String) : Tree :=
  .node ⟨Token.stringLiteral.kind, 0, Header.noPosition, Header.noPosition, .literal text⟩ []

/-- A member of a const enum: one with a simple name has the value of its key for its initializer,
and any other one stays as it is. -/
def stampedMember (values : String → String) (enumName : String) : Tree → Tree
  | .node label [name, initializer] =>
    if label.shape = .enumMember then
      match name.simpleName? with
      | some member => .node label [name, string (values (Cache.key enumName member))]
      | none => .node label [name, initializer]
    else .node label [name, initializer]
  | member => member

/-- An enum declaration: with an identifier for its name and the const keyword among its modifiers
it has its members stamped, and otherwise it stays as it is. -/
def stampedEnum (values : String → String) (label : Label) (slots : List Tree) : Tree :=
  match label.shape with
  | .enumeration modifiers =>
    let count := modifiers.getD 0
    match slots.drop count with
    | name :: members =>
      match name.identifierText? with
      | some enumName =>
        if (slots.take count).any (fun modifier => modifier.kind? == some Token.constKeyword.kind)
        then .node label (slots.take count ++ name :: members.map (stampedMember values enumName))
        else .node label slots
      | none => .node label slots
    | [] => .node label slots
  | _ => .node label slots

mutual

/-- The tree with all its const enums stamped. Documentation is left alone, and so is what an enum
declaration holds besides its members. -/
def stamped (values : String → String) : Tree → Tree
  | .hole => .hole
  | .missing => .missing
  | .node label slots =>
    if label.kind.isDoc then .node label slots
    else if label.kind = Construct.enumDeclaration.kind then stampedEnum values label slots
    else .node label (stampedAll values slots)

def stampedAll (values : String → String) : List Tree → List Tree
  | [] => []
  | first :: others => first.stamped values :: stampedAll values others

end

theorem stampedAll_eq_map (values : String → String) (trees : List Tree) :
    stampedAll values trees = trees.map (stamped values) := by
  induction trees with
  | nil => rfl
  | cons first others ih => rw [stampedAll, ih, List.map_cons]

/-- A member that was stamped stays as it is when it is stamped again. -/
theorem stampedMember_stampedMember (values : String → String) (enumName : String)
    (member : Tree) :
    (member.stampedMember values enumName).stampedMember values enumName =
      member.stampedMember values enumName := by
  fun_cases stampedMember values enumName member with
  | case1 label name initializer isMember own found =>
    rw [stampedMember, if_pos isMember, found]
  | case2 label name initializer isMember noName =>
    rw [stampedMember, if_pos isMember, noName]
  | case3 label name initializer other =>
    rw [stampedMember, if_neg other]
  | case4 member other =>
    unfold stampedMember
    split
    · rename_i label name initializer
      exact absurd rfl (other label name initializer)
    · rfl

/-- A stamped enum has slots that stay as they are when it is stamped again. -/
theorem exists_stampedEnum (values : String → String) (label : Label) (slots : List Tree) :
    ∃ others, stampedEnum values label slots = .node label others ∧
      stampedEnum values label others = .node label others := by
  by_cases kept : stampedEnum values label slots = .node label slots
  · exact ⟨slots, kept, kept⟩
  · revert kept
    fun_cases stampedEnum values label slots with
    | case1 modifiers shape count name members rest enumName atName const =>
      intro _
      have length : (slots.take count).length = count := by
        have dropped := congrArg List.length rest
        rw [List.length_drop, List.length_cons] at dropped
        rw [List.length_take]
        omega
      have again : (members.map (stampedMember values enumName)).map
          (stampedMember values enumName) = members.map (stampedMember values enumName) := by
        rw [List.map_map]
        apply List.map_congr_left
        intro member _
        exact stampedMember_stampedMember values enumName member
      refine ⟨_, rfl, ?_⟩
      unfold stampedEnum
      rw [shape]
      dsimp only
      rw [show modifiers.getD 0 = count from rfl, List.drop_left' length, List.take_left' length]
      dsimp only
      rw [atName]
      dsimp only
      rw [if_pos const, again]
    | _ =>
      intro other
      exact absurd rfl other

mutual

/-- Stamping twice is stamping once. -/
theorem stamped_stamped (values : String → String) :
    ∀ tree : Tree, (tree.stamped values).stamped values = tree.stamped values
  | .hole => rfl
  | .missing => rfl
  | .node label slots => by
    by_cases isDoc : label.kind.isDoc = true
    · rw [stamped, if_pos isDoc, stamped, if_pos isDoc]
    · by_cases isEnum : label.kind = Construct.enumDeclaration.kind
      · obtain ⟨others, once, twice⟩ := exists_stampedEnum values label slots
        rw [stamped, if_neg isDoc, if_pos isEnum, once, stamped, if_neg isDoc, if_pos isEnum, twice]
      · rw [stamped, if_neg isDoc, if_neg isEnum, stamped, if_neg isDoc, if_neg isEnum,
          stampedAll_stampedAll values slots]

theorem stampedAll_stampedAll (values : String → String) :
    ∀ trees : List Tree, stampedAll values (stampedAll values trees) = stampedAll values trees
  | [] => rfl
  | first :: others => by
    rw [stampedAll, stampedAll, stamped_stamped values first, stampedAll_stampedAll values others]

end

end Tree

/-- Only the const keyword is a const modifier. -/
theorem Kind.modifier?_eq_const_iff (kind : Kind) :
    kind.modifier? = some .const ↔ kind = Token.constKeyword.kind := by
  constructor
  · intro found
    obtain ⟨token, isToken, isConst⟩ := Option.bind_eq_some_iff.mp found
    have code := Token.code_of_ofCode? isToken
    have const : token = .constKeyword := by
      revert isConst
      cases token <;> decide
    obtain ⟨own⟩ := kind
    rw [const] at code
    rw [Token.kind, code]
  · rintro rfl
    decide

namespace Arena

theorem modifiers_contains_const (arena : Arena) (list : Option (List NodeId)) :
    (arena.modifiers list).contains .const =
      (list.getD []).any fun id => arena.kind? id == some Token.constKeyword.kind := by
  rw [Bool.eq_iff_iff]
  simp only [modifiers, List.contains_iff_mem, List.mem_filterMap, List.any_eq_true, beq_iff_eq,
    Option.bind_eq_some_iff, Kind.modifier?_eq_const_iff]
  constructor
  · rintro ⟨id, member, kind, found, rfl⟩
    exact ⟨id, member, found⟩
  · rintro ⟨id, member, found⟩
    exact ⟨id, member, _, found, rfl⟩

variable {arena : Arena}

theorem kind?_tree (sound : arena.WellFormed) (id : NodeId) :
    (arena.tree id).kind? = arena.kind? id := by
  by_cases has : arena.Has id
  · obtain ⟨header, found⟩ := has.header
    rw [tree_eq sound found, kind?, found]
    rfl
  · rw [tree_of_not_has has, kind?_eq_none_iff.mpr has]
    split <;> rfl

theorem identifierText?_tree (sound : arena.WellFormed) (id : NodeId) :
    (arena.tree id).identifierText? = arena.identifierText? id := by
  by_cases has : arena.Has id
  · obtain ⟨header, found⟩ := has.header
    rw [tree_eq sound found, identifierText?, payload?_of_header? found]
    cases arena.payloadAt? header with
    | none => rfl
    | some payload => cases payload <;> rfl
  · have missing : arena.header? id = none := by simpa [Has] using has
    rw [tree_of_not_has has, identifierText?, payload?, missing]
    split <;> rfl

theorem simpleName?_tree (sound : arena.WellFormed) (id : NodeId) :
    (arena.tree id).simpleName? =
      if arena.kind? id = some Token.identifier.kind then arena.identifierText? id else none := by
  rw [Tree.simpleName?, kind?_tree sound, identifierText?_tree sound]

theorem stampedMember_of_shape (values : String → String) (enumName : String) {label : Label}
    (other : label.shape ≠ .enumMember) (slots : List Tree) :
    (Tree.node label slots).stampedMember values enumName = .node label slots := by
  unfold Tree.stampedMember
  split
  · rename_i same
    cases same
    exact if_neg other
  · rfl

theorem tree_of_member (sound : arena.WellFormed) {id : NodeId} {header : Header}
    {member : EnumMember} (found : arena.header? id = some header)
    (atMember : arena.payloadAt? header = some (.enumMember member)) :
    arena.tree id = .node (header.label (some (.enumMember member)))
      [arena.tree member.name, arena.tree member.initializer] := by
  rw [tree_eq sound found, slotsAt_of_payload atMember, atMember]
  rfl

theorem enumMember?_of_payload {id : NodeId} {header : Header}
    (found : arena.header? id = some header) {member : EnumMember}
    (atMember : arena.payloadAt? header = some (.enumMember member)) :
    arena.enumMember? id = some member := by
  rw [enumMember?, payload?_of_header? found, atMember]

theorem payload_of_enumMember? {id : NodeId} {member : EnumMember}
    (atMember : arena.enumMember? id = some member) :
    ∃ header, arena.header? id = some header ∧
      arena.payloadAt? header = some (.enumMember member) := by
  rw [enumMember?] at atMember
  split at atMember
  · rename_i stored
    cases atMember
    obtain ⟨header, found, atHeader⟩ := Option.bind_eq_some_iff.mp stored
    exact ⟨header, found, atHeader⟩
  · cases atMember

theorem memberName?_of_payload (sound : arena.WellFormed) {id : NodeId} {header : Header}
    (found : arena.header? id = some header) {member : EnumMember}
    (atMember : arena.payloadAt? header = some (.enumMember member)) :
    arena.memberName? id = (arena.tree member.name).simpleName? := by
  rw [simpleName?_tree sound, memberName?, enumMember?_of_payload found atMember]
  rfl

/-- A member that stamping keeps has a tree that stamping keeps. -/
theorem stampedMember_of_none (sound : arena.WellFormed) (values : String → String)
    (enumName : String) {id : NodeId} (noName : arena.memberName? id = none) :
    (arena.tree id).stampedMember values enumName = arena.tree id := by
  by_cases has : arena.Has id
  · obtain ⟨header, found⟩ := has.header
    by_cases isMember : ∃ member, arena.payloadAt? header = some (.enumMember member)
    · obtain ⟨member, atMember⟩ := isMember
      rw [memberName?_of_payload sound found atMember] at noName
      rw [tree_of_member sound found atMember, Tree.stampedMember, noName]
      exact if_pos rfl
    · rw [tree_eq sound found]
      apply stampedMember_of_shape
      intro same
      cases stored : arena.payloadAt? header with
      | none =>
        rw [stored] at same
        cases same
      | some payload =>
        rw [stored] at same
        cases payload with
        | enumMember member => exact isMember ⟨member, stored⟩
        | _ => cases same
  · rw [tree_of_not_has has]
    split <;> rfl

/-- A member with a simple name has a tree with that name. -/
theorem stampedMember_of_name (sound : arena.WellFormed) (values : String → String)
    (enumName : String) {id : NodeId} {header : Header} {member : EnumMember} {name : String}
    (found : arena.header? id = some header)
    (atMember : arena.payloadAt? header = some (.enumMember member))
    (atName : arena.memberName? id = some name) :
    (arena.tree id).stampedMember values enumName =
      .node (header.label (some (.enumMember member)))
        [arena.tree member.name, .string (values (Cache.key enumName name))] := by
  rw [memberName?_of_payload sound found atMember] at atName
  rw [tree_of_member sound found atMember, Tree.stampedMember, atName]
  exact if_pos rfl

/-- An enum declaration as it stands in its tree. -/
theorem tree_of_decl (sound : arena.WellFormed) {id : NodeId} {header : Header} {decl : EnumDecl}
    (found : arena.header? id = some header)
    (atDecl : arena.payloadAt? header = some (.enumeration decl)) :
    arena.tree id = .node (header.label (some (.enumeration decl)))
      ((decl.modifiers.getD []).map arena.tree ++
        arena.tree decl.name :: decl.members.map arena.tree) := by
  rw [tree_eq sound found, slotsAt_of_payload atDecl, atDecl, Payload.slots, List.map_append,
    List.map_cons]

theorem enumDecl?_of_payload {id : NodeId} {header : Header} {decl : EnumDecl}
    (found : arena.header? id = some header)
    (atDecl : arena.payloadAt? header = some (.enumeration decl)) :
    arena.enumDecl? id = some decl := by
  rw [enumDecl?, payload?_of_header? found, atDecl]

theorem payload_of_enumDecl? {id : NodeId} {header : Header} {decl : EnumDecl}
    (found : arena.header? id = some header) (atDecl : arena.enumDecl? id = some decl) :
    arena.payloadAt? header = some (.enumeration decl) := by
  rw [enumDecl?, payload?_of_header? found] at atDecl
  split at atDecl
  · rename_i stored
    cases atDecl
    exact stored
  · cases atDecl

/-- The trees of an enum's slots, told apart. -/
theorem stampedEnum_of_decl (sound : arena.WellFormed) (values : String → String) (header : Header)
    (decl : EnumDecl) :
    let label := header.label (some (.enumeration decl))
    let modifiers := (decl.modifiers.getD []).map arena.tree
    let members := decl.members.map arena.tree
    Tree.stampedEnum values label (modifiers ++ arena.tree decl.name :: members) =
      match arena.identifierText? decl.name with
      | some enumName =>
        if (arena.modifiers decl.modifiers).contains .const then
          .node label (modifiers ++ arena.tree decl.name ::
            members.map (Tree.stampedMember values enumName))
        else .node label (modifiers ++ arena.tree decl.name :: members)
      | none => .node label (modifiers ++ arena.tree decl.name :: members) := by
  intro label modifiers members
  have count : (decl.modifiers.map List.length).getD 0 = modifiers.length := by
    simp only [modifiers, List.length_map]
    cases decl.modifiers <;> rfl
  have shape : label.shape = .enumeration (decl.modifiers.map List.length) := rfl
  have const : (arena.modifiers decl.modifiers).contains .const =
      modifiers.any fun modifier => modifier.kind? == some Token.constKeyword.kind := by
    rw [modifiers_contains_const, List.any_map]
    congr 1
    funext id
    simp only [Function.comp_apply, kind?_tree sound]
  rw [Tree.stampedEnum, shape]
  dsimp only
  rw [count]
  simp only [List.drop_left, List.take_left, identifierText?_tree sound, const]

theorem stamped_of_enum {header : Header} (isDoc : header.kind.isDoc = false)
    (isEnum : header.kind = Construct.enumDeclaration.kind) (payload : Option Payload)
    (values : String → String) (slots : List Tree) :
    (Tree.node (header.label payload) slots).stamped values =
      Tree.stampedEnum values (header.label payload) slots := by
  have noDoc : (header.label payload).kind.isDoc = false := isDoc
  rw [Tree.stamped, noDoc]
  exact if_pos isEnum

/-- The tree of a const enum with a name has its members stamped. -/
theorem stamped_of_const (sound : arena.WellFormed) (values : String → String) {id : NodeId}
    {header : Header} (found : arena.header? id = some header)
    (isDoc : header.kind.isDoc = false) (isEnum : header.kind = Construct.enumDeclaration.kind)
    {decl : EnumDecl} {enumName : String}
    (isConst : arena.constEnum? id = some (decl, enumName)) :
    arena.payloadAt? header = some (.enumeration decl) ∧
      (arena.tree id).stamped values =
        .node (header.label (some (.enumeration decl)))
          ((decl.modifiers.getD []).map arena.tree ++ arena.tree decl.name ::
            decl.members.map fun member =>
              (arena.tree member).stampedMember values enumName) := by
  obtain ⟨atDecl, atName, const⟩ := constEnum?_eq_some_iff.mp isConst
  have atPayload := payload_of_enumDecl? found atDecl
  refine ⟨atPayload, ?_⟩
  rw [tree_of_decl sound found atPayload, stamped_of_enum isDoc isEnum,
    stampedEnum_of_decl sound, atName]
  dsimp only
  rw [if_pos const, List.map_map]
  rfl

/-- The tree of any other enum stays as it is. -/
theorem stamped_of_plain (sound : arena.WellFormed) (values : String → String) {id : NodeId}
    {header : Header} (found : arena.header? id = some header)
    (isDoc : header.kind.isDoc = false) (isEnum : header.kind = Construct.enumDeclaration.kind)
    (other : arena.constEnum? id = none) : (arena.tree id).stamped values = arena.tree id := by
  by_cases isDecl : ∃ decl, arena.payloadAt? header = some (.enumeration decl)
  · obtain ⟨decl, atDecl⟩ := isDecl
    rw [tree_of_decl sound found atDecl, stamped_of_enum isDoc isEnum, stampedEnum_of_decl sound]
    split
    · rename_i enumName atName
      apply if_neg
      intro const
      have isConst := constEnum?_eq_some_iff.mpr
        ⟨enumDecl?_of_payload found atDecl, atName, const⟩
      rw [other] at isConst
      cases isConst
    · rfl
  · rw [tree_eq sound found, stamped_of_enum isDoc isEnum]
    cases stored : arena.payloadAt? header with
    | none => rfl
    | some payload =>
      cases payload with
      | enumeration decl => exact absurd ⟨decl, stored⟩ isDecl
      | _ => rfl

theorem stamped_of_doc (sound : arena.WellFormed) (values : String → String) {id : NodeId}
    {header : Header} (found : arena.header? id = some header) (isDoc : header.kind.isDoc = true) :
    (arena.tree id).stamped values = arena.tree id := by
  rw [tree_eq sound found, Tree.stamped]
  exact if_pos isDoc

/-- The tree of a node that is neither documentation nor an enum has its slots stamped. -/
theorem stamped_of_other (sound : arena.WellFormed) (values : String → String) {id : NodeId}
    {header : Header} (found : arena.header? id = some header) (noDoc : header.kind.isDoc = false)
    (noEnum : header.kind ≠ Construct.enumDeclaration.kind) :
    (arena.tree id).stamped values =
      .node (header.label (arena.payloadAt? header))
        ((arena.slotsAt header).map fun slot => (arena.tree slot).stamped values) := by
  have plain : (header.label (arena.payloadAt? header)).kind.isDoc = false := noDoc
  rw [tree_eq sound found, Tree.stamped, plain, Tree.stampedAll_eq_map, List.map_map]
  exact if_neg noEnum

end Arena

end EnumStamp
