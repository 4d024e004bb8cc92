import EnumStamp.Arena.Extent

set_option autoImplicit false

namespace EnumStamp.Arena

def childrenAt (arena : Arena) (header : Header) : List NodeId :=
  match arena.payloadAt? header with
  | some payload => payload.children
  | none => []

/-- What every tool that reads an arena may rely on. -/
structure WellFormed (arena : Arena) : Prop where
  paired : arena.origins.size = arena.nodes.size
  /-- Every place is either no place or one in the pool of the node's category. -/
  placed : ∀ header ∈ arena.nodes, arena.isPlaced header = true
  ordered : ∀ position, (inside : position < arena.nodes.size) →
    ∀ child ∈ arena.childrenAt arena.nodes[position], child.position < position
  derived : ∀ position, (inside : position < arena.origins.size) →
    arena.origins[position].isPresent = true → arena.origins[position].position < position

/-- All lengths stay below the greatest 32-bit number, so no handle and no place wraps around. -/
structure Fits (arena : Arena) : Prop where
  nodes : arena.size < UInt32.size - 1
  pools : ∀ category, arena.poolSize category < UInt32.size - 1

def Has (arena : Arena) (id : NodeId) : Prop :=
  (arena.header? id).isSome = true

theorem wellFormed_iff (arena : Arena) :
    arena.WellFormed ↔
      arena.origins.size = arena.nodes.size ∧
      (∀ header ∈ arena.nodes, arena.isPlaced header = true) ∧
      (∀ position, (inside : position < arena.nodes.size) →
        ∀ child ∈ arena.childrenAt arena.nodes[position], child.position < position) ∧
      ∀ position, (inside : position < arena.origins.size) →
        arena.origins[position].isPresent = true → arena.origins[position].position < position :=
  ⟨fun sound => ⟨sound.paired, sound.placed, sound.ordered, sound.derived⟩,
    fun ⟨paired, placed, ordered, derived⟩ => ⟨paired, placed, ordered, derived⟩⟩

instance (arena : Arena) : Decidable arena.WellFormed :=
  decidable_of_iff' _ arena.wellFormed_iff

theorem fits_iff (arena : Arena) :
    arena.Fits ↔ arena.size < UInt32.size - 1 ∧
      ∀ category ∈ [Category.token, .identifier, .literal, .sourceFile, .enumeration, .enumMember,
        .computedName, .moduleDecl, .doc, .composite],
        arena.poolSize category < UInt32.size - 1 := by
  constructor
  · exact fun fits => ⟨fits.nodes, fun category _ => fits.pools category⟩
  · rintro ⟨nodes, pools⟩
    refine ⟨nodes, fun category => pools category ?_⟩
    cases category <;> decide

instance (arena : Arena) : Decidable arena.Fits :=
  decidable_of_iff' _ arena.fits_iff

/-- The arena of `const enum Color { Red, "Blue" }`: the declaration is its last node. -/
def colors : Arena :=
  { empty with
    nodes :=
      #[⟨Token.constKeyword.kind, 0, 0, 5, Header.noPlace⟩,
        ⟨Token.identifier.kind, 0, 11, 16, 0⟩,
        ⟨Token.identifier.kind, 0, 19, 22, 1⟩,
        ⟨Construct.enumMember.kind, 0, 19, 22, 0⟩,
        ⟨Token.stringLiteral.kind, 0, 24, 30, 0⟩,
        ⟨Construct.enumMember.kind, 0, 24, 30, 1⟩,
        ⟨Construct.enumDeclaration.kind, 0, 0, 32, 0⟩]
    origins := .replicate 7 .absent
    identifiers := #["Color", "Red"]
    literals := #["Blue"]
    enumMembers := #[⟨.ofPosition 2, .absent⟩, ⟨.ofPosition 4, .absent⟩]
    enums := #[⟨some [.ofPosition 0], .ofPosition 1, [.ofPosition 3, .ofPosition 5]⟩] }

example : colors.WellFormed := by decide

/-- The arena of a file with a namespace that has `const enum A { X, "Y" }` in it, with `enum P {}`
and with `const enum B { X }`, which come after the namespace. The file is the last node, and the
const enums share the node of their modifier. -/
def scopes : Arena :=
  { empty with
    nodes :=
      #[⟨Token.constKeyword.kind, 0, 14, 19, Header.noPlace⟩,
        ⟨Token.identifier.kind, 0, 10, 11, 0⟩,
        ⟨Token.identifier.kind, 0, 25, 26, 1⟩,
        ⟨Token.identifier.kind, 0, 29, 30, 2⟩,
        ⟨Construct.enumMember.kind, 0, 29, 30, 0⟩,
        ⟨Token.stringLiteral.kind, 0, 32, 35, 0⟩,
        ⟨Construct.enumMember.kind, 0, 32, 35, 1⟩,
        ⟨Construct.enumDeclaration.kind, 0, 14, 37, 0⟩,
        ⟨Construct.moduleBlock.kind, 0, 12, 39, 0⟩,
        ⟨Construct.moduleDeclaration.kind, 0, 0, 39, 0⟩,
        ⟨Token.identifier.kind, 0, 45, 46, 3⟩,
        ⟨Construct.enumDeclaration.kind, 0, 40, 49, 1⟩,
        ⟨Token.identifier.kind, 0, 61, 62, 4⟩,
        ⟨Token.identifier.kind, 0, 65, 66, 5⟩,
        ⟨Construct.enumMember.kind, 0, 65, 66, 2⟩,
        ⟨Construct.enumDeclaration.kind, 0, 50, 68, 2⟩,
        ⟨Construct.sourceFile.kind, 0, 0, 68, 0⟩]
    origins := .replicate 17 .absent
    identifiers := #["N", "A", "X", "P", "B", "X"]
    literals := #["Y"]
    enumMembers :=
      #[⟨.ofPosition 3, .absent⟩, ⟨.ofPosition 5, .absent⟩, ⟨.ofPosition 13, .absent⟩]
    enums :=
      #[⟨some [.ofPosition 0], .ofPosition 2, [.ofPosition 4, .ofPosition 6]⟩,
        ⟨none, .ofPosition 10, []⟩,
        ⟨some [.ofPosition 0], .ofPosition 12, [.ofPosition 14]⟩]
    modules := #[⟨none, .ofPosition 1, .ofPosition 8⟩]
    composites := #[[.ofPosition 7]]
    sourceFiles := #[⟨"scopes.ts", "", [.ofPosition 9, .ofPosition 11, .ofPosition 15]⟩] }

theorem header?_eq_some_iff {arena : Arena} {id : NodeId} {header : Header} :
    arena.header? id = some header ↔
      id.isAbsent = false ∧ arena.nodes[id.position]? = some header := by
  unfold header?
  split
  · rename_i absent
    simp only [absent, Bool.true_eq_false, false_and, reduceCtorEq]
  · rename_i present
    simp only [Bool.not_eq_true] at present
    simp only [present, true_and]

theorem Has.header {arena : Arena} {id : NodeId} (has : arena.Has id) :
    ∃ header, arena.header? id = some header :=
  Option.isSome_iff_exists.mp has

theorem has_of_header {arena : Arena} {id : NodeId} {header : Header}
    (found : arena.header? id = some header) : arena.Has id :=
  Option.isSome_iff_exists.mpr ⟨header, found⟩

theorem has_iff {arena : Arena} {id : NodeId} :
    arena.Has id ↔ id.isPresent = true ∧ id.position < arena.size := by
  unfold Has header? NodeId.isPresent
  cases id.isAbsent with
  | true => simp
  | false => simp [size]

theorem not_has_absent (arena : Arena) : ¬ arena.Has .absent := by
  intro has
  cases has

theorem kind?_eq_none_iff {arena : Arena} {id : NodeId} :
    arena.kind? id = none ↔ ¬ arena.Has id := by
  simp only [kind?, Option.map_eq_none_iff, Has, Option.not_isSome_iff_eq_none]

theorem header_of_kind {arena : Arena} {id : NodeId} {kind : Kind}
    (found : arena.kind? id = some kind) :
    ∃ header, arena.header? id = some header ∧ header.kind = kind :=
  Option.map_eq_some_iff.mp found

theorem has_of_kind {arena : Arena} {id : NodeId} {kind : Kind}
    (found : arena.kind? id = some kind) : arena.Has id := by
  obtain ⟨header, atHeader, _⟩ := header_of_kind found
  exact has_of_header atHeader

theorem children_of_header {arena : Arena} {id : NodeId} {header : Header}
    (found : arena.header? id = some header) :
    arena.children id = arena.childrenAt header := by
  have same := payload?_of_header? found
  cases stored : arena.payloadAt? header <;> simp only [children, childrenAt, same, stored]

theorem children_of_payload {arena : Arena} {id : NodeId} {payload : Payload}
    (found : arena.payload? id = some payload) : arena.children id = payload.children := by
  simp only [children, found]

theorem children_eq_nil_of_not_has {arena : Arena} {id : NodeId} (missing : ¬ arena.Has id) :
    arena.children id = [] := by
  have none : arena.header? id = none := by simpa [Has] using missing
  simp only [children, payload?, none, Option.bind_none]

/-- Children are never absent slots. -/
theorem isPresent_of_mem_children {arena : Arena} {id child : NodeId}
    (member : child ∈ arena.children id) : child.isPresent = true := by
  unfold children at member
  split at member
  · exact (List.mem_filter.mp member).2
  · cases member

theorem has_of_mem_children {arena : Arena} {id child : NodeId}
    (member : child ∈ arena.children id) : arena.Has id := by
  by_cases has : arena.Has id
  · exact has
  · rw [children_eq_nil_of_not_has has] at member
    cases member

/-- A header that has a place has its payload there. -/
theorem payload_of_place {arena : Arena} {header : Header} (inPool : arena.isPlaced header = true)
    (placed : header.hasPlace = true) :
    ∃ payload, arena.payloadAt? header = some payload := by
  simp only [isPlaced, placed, Bool.not_true, Bool.false_or, decide_eq_true_eq] at inPool
  rw [payloadAt?, if_pos placed]
  exact Option.isSome_iff_exists.mp ((pooled?_isSome_iff arena _ _).mpr inPool)

namespace WellFormed

theorem child_lt {arena : Arena} (sound : arena.WellFormed) {id child : NodeId}
    (member : child ∈ arena.children id) : child.position < id.position := by
  obtain ⟨header, found⟩ := (has_of_mem_children member).header
  obtain ⟨_, stored⟩ := header?_eq_some_iff.mp found
  obtain ⟨inside, same⟩ := Array.getElem?_eq_some_iff.mp stored
  rw [children_of_header found, ← same] at member
  exact sound.ordered id.position inside child member

theorem child_has {arena : Arena} (sound : arena.WellFormed) {id child : NodeId}
    (member : child ∈ arena.children id) : arena.Has child := by
  have parent := has_iff.mp (has_of_mem_children member)
  have lower := sound.child_lt member
  exact has_iff.mpr ⟨isPresent_of_mem_children member, by omega⟩

/-- The headers of nodes have their payloads. -/
theorem isPlaced {arena : Arena} (sound : arena.WellFormed) {id : NodeId} {header : Header}
    (found : arena.header? id = some header) : arena.isPlaced header = true := by
  obtain ⟨_, stored⟩ := header?_eq_some_iff.mp found
  exact sound.placed header (Array.mem_of_getElem? stored)

/-- Well-formed arenas pass the check that walks make before they bound their steps. -/
theorem isSettled {arena : Arena} (sound : arena.WellFormed) : arena.isSettled = true := by
  unfold Arena.isSettled
  rw [Bool.and_eq_true]
  constructor
  · rw [Array.all_eq_true_iff_forall_mem]
    exact sound.placed
  · rw [Nat.all_eq_finRange_all, List.all_eq_true]
    intro position _
    rw [List.all_eq_true]
    intro child member
    have lower := sound.child_lt member
    have wrapped : (NodeId.ofPosition position).position ≤ position := Nat.mod_le ..
    exact decide_eq_true (by omega)

end WellFormed

end EnumStamp.Arena
