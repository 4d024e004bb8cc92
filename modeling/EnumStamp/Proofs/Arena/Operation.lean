import Mathlib.Logic.Relation
import EnumStamp.Proofs.Tree.Basic

set_option autoImplicit false

namespace EnumStamp

inductive Operation where
  | addToken (kind : Kind) (start stop : UInt32)
  | addIdentifier (text : String) (start stop : UInt32)
  | addLiteral (kind : Kind) (text : String) (start stop : UInt32)
  | addSourceFile (file : SourceFile)
  | addEnum (start stop : UInt32) (decl : EnumDecl)
  | addEnumMember (start stop : UInt32) (member : EnumMember)
  | addComputedName (start stop : UInt32) (expression : NodeId)
  | addModule (start stop : UInt32) (decl : ModuleDecl)
  | addDoc (kind : Kind) (start stop : UInt32) (comment : DocComment)
  | addComposite (kind : Kind) (start stop : UInt32) (children : List NodeId)
  | createToken (kind : Kind)
  | createIdentifier (text : String)
  | createString (text : String)
  | createNumber (text : String)
  | updateSourceFile (id : NodeId) (statements : List NodeId)
  | updateEnum (id : NodeId) (decl : EnumDecl)
  | updateEnumMember (id : NodeId) (member : EnumMember)
  | updateComputedName (id expression : NodeId)
  | updateModule (id : NodeId) (decl : ModuleDecl)
  | updateDoc (id : NodeId) (tags : List NodeId)
  | updateComposite (id : NodeId) (children : List NodeId)
  | updateChildren (id : NodeId) (children : List NodeId)

namespace Operation

/-- What the operation makes of an arena, and the handle that it answers with. -/
def apply : Operation → Arena → Arena × NodeId
  | .addToken kind start stop, arena => arena.addToken kind start stop
  | .addIdentifier text start stop, arena => arena.addIdentifier text start stop
  | .addLiteral kind text start stop, arena => arena.addLiteral kind text start stop
  | .addSourceFile file, arena => arena.addSourceFile file
  | .addEnum start stop decl, arena => arena.addEnum start stop decl
  | .addEnumMember start stop member, arena => arena.addEnumMember start stop member
  | .addComputedName start stop expression, arena => arena.addComputedName start stop expression
  | .addModule start stop decl, arena => arena.addModule start stop decl
  | .addDoc kind start stop comment, arena => arena.addDoc kind start stop comment
  | .addComposite kind start stop children, arena => arena.addComposite kind start stop children
  | .createToken kind, arena => arena.createToken kind
  | .createIdentifier text, arena => arena.createIdentifier text
  | .createString text, arena => arena.createString text
  | .createNumber text, arena => arena.createNumber text
  | .updateSourceFile id statements, arena => arena.updateSourceFile id statements
  | .updateEnum id decl, arena => arena.updateEnum id decl
  | .updateEnumMember id member, arena => arena.updateEnumMember id member
  | .updateComputedName id expression, arena => arena.updateComputedName id expression
  | .updateModule id decl, arena => arena.updateModule id decl
  | .updateDoc id tags, arena => arena.updateDoc id tags
  | .updateComposite id children, arena => arena.updateComposite id children
  | .updateChildren id children, arena => arena.updateChildren id children

/-- The node that is to be changed; operations that add a node have none. -/
def target : Operation → NodeId
  | .updateSourceFile id _ => id
  | .updateEnum id _ => id
  | .updateEnumMember id _ => id
  | .updateComputedName id _ => id
  | .updateModule id _ => id
  | .updateDoc id _ => id
  | .updateComposite id _ => id
  | .updateChildren id _ => id
  | _ => .absent

def slots : Operation → List NodeId
  | .addSourceFile file => file.statements
  | .addEnum _ _ decl => (Payload.enumeration decl).slots
  | .addEnumMember _ _ member => (Payload.enumMember member).slots
  | .addComputedName _ _ expression => [expression]
  | .addModule _ _ decl => (Payload.moduleDecl decl).slots
  | .addDoc _ _ _ comment => comment.tags
  | .addComposite _ _ _ children => children
  | .updateSourceFile _ statements => statements
  | .updateEnum _ decl => (Payload.enumeration decl).slots
  | .updateEnumMember _ member => (Payload.enumMember member).slots
  | .updateComputedName _ expression => [expression]
  | .updateModule _ decl => (Payload.moduleDecl decl).slots
  | .updateDoc _ tags => tags
  | .updateComposite _ children => children
  | .updateChildren _ children => children
  | _ => []

/-- Whether the kind that is passed has its pool where the payload goes. Other operations settle the
kind themselves, and tokens have no payload. -/
def Suited : Operation → Prop
  | .addLiteral kind _ _ _ => kind.category = .literal
  | .addDoc kind _ _ _ => kind.category = .doc
  | .addComposite kind _ _ _ => kind.category = .composite
  | _ => True

/-- Whether the kind suits, and the children are absent or in the arena. -/
def Proper (op : Operation) (arena : Arena) : Prop :=
  op.Suited ∧ ∀ slot ∈ op.slots, arena.Holds slot

/-- All that an operation can do to an arena. -/
inductive Outcome (op : Operation) (arena : Arena) : Arena × NodeId → Prop where
  | same : Outcome op arena (arena, op.target)
  | bare {header : Header} (noPlace : header.hasPlace = false) :
      Outcome op arena (arena.append header .absent)
  | added {header : Header} {payload : Payload}
      (suits : op.Suited → header.kind.category = payload.category)
      (within : ∀ slot ∈ payload.slots, slot ∈ op.slots) :
      Outcome op arena (arena.appendWith header payload .absent)
  | copied {header : Header} {payload changed : Payload}
      (found : arena.header? op.target = some header)
      (stored : arena.payloadAt? header = some payload)
      (alike : changed.category = payload.category)
      (within : ∀ slot ∈ changed.slots, slot ∈ op.slots ∨ slot ∈ payload.slots) :
      Outcome op arena (arena.appendWith header changed op.target)

variable {op : Operation}

/-- An update that keeps the category, and whose slots are the given ones or stay, makes a copy if
anything. -/
theorem outcome_update (arena : Arena) {edit : Payload → Option Payload}
    (alike : ∀ payload changed, edit payload = some changed →
      changed.category = payload.category)
    (within : ∀ payload changed, edit payload = some changed →
      ∀ slot ∈ changed.slots, slot ∈ op.slots ∨ slot ∈ payload.slots) :
    op.Outcome arena (arena.update op.target edit) := by
  cases found : arena.header? op.target with
  | none =>
    simp only [Arena.update, found]
    exact .same
  | some header =>
    cases stored : arena.payloadAt? header with
    | none =>
      simp only [Arena.update, found, stored]
      exact .same
    | some payload =>
      cases edits : edit payload with
      | none =>
        simp only [Arena.update, found, stored, edits]
        exact .same
      | some changed =>
        rw [Arena.update_eq found stored edits]
        split
        · exact .same
        · exact .copied found stored (alike payload changed edits) (within payload changed edits)

theorem outcome_updateChildren (arena : Arena) (id : NodeId) (children : List NodeId) :
    (updateChildren id children).Outcome arena (arena.updateChildren id children) := by
  unfold Arena.updateChildren
  dsimp only
  split
  · exact .same
  · refine outcome_update arena ?_ ?_
    · rintro payload _ ⟨⟩
      exact payload.category_withChildren children
    · rintro payload _ ⟨⟩ slot member
      rw [Payload.withChildren,
        payload.slots_withSlots _ (Payload.length_fillPresent payload.slots children)] at member
      exact Arena.mem_fillPresent member

/-- The updates of a single category put the given handles into all slots. -/
theorem outcome_replace (arena : Arena) {edit : Payload → Option Payload}
    (replaces : ∀ payload changed, edit payload = some changed →
      changed.category = payload.category ∧ changed.slots = op.slots) :
    op.Outcome arena (arena.update op.target edit) := by
  refine outcome_update arena (fun payload changed edits => (replaces payload changed edits).1) ?_
  intro payload changed edits slot member
  rw [(replaces payload changed edits).2] at member
  exact .inl member

theorem outcome (op : Operation) (arena : Arena) : op.Outcome arena (op.apply arena) := by
  cases op with
  | addToken => exact .bare rfl
  | createToken => exact .bare rfl
  | addIdentifier => exact .added (fun _ => rfl) fun _ member => member
  | addLiteral => exact .added (fun suits => suits) fun _ member => member
  | addSourceFile => exact .added (fun _ => rfl) fun _ member => member
  | addEnum => exact .added (fun _ => rfl) fun _ member => member
  | addEnumMember => exact .added (fun _ => rfl) fun _ member => member
  | addComputedName => exact .added (fun _ => rfl) fun _ member => member
  | addModule => exact .added (fun _ => rfl) fun _ member => member
  | addDoc => exact .added (fun suits => suits) fun _ member => member
  | addComposite => exact .added (fun suits => suits) fun _ member => member
  | createIdentifier => exact .added (fun _ => rfl) fun _ member => member
  | createString => exact .added (fun _ => rfl) fun _ member => member
  | createNumber => exact .added (fun _ => rfl) fun _ member => member
  | updateChildren id children => exact outcome_updateChildren arena id children
  | updateSourceFile | updateEnum | updateEnumMember | updateComputedName | updateModule
  | updateDoc | updateComposite =>
    refine outcome_replace arena fun payload changed edits => ?_
    split at edits
    · cases edits
      exact ⟨rfl, rfl⟩
    · cases edits

end Operation

/-- One arena comes from another by operations with any arguments. -/
def Arena.Edits (first last : Arena) : Prop :=
  Relation.ReflTransGen (fun before after => ∃ op : Operation, (op.apply before).1 = after) first
    last

namespace Arena

theorem Edits.refl (arena : Arena) : arena.Edits arena :=
  Relation.ReflTransGen.refl

theorem Edits.trans {first second third : Arena} (early : first.Edits second)
    (late : second.Edits third) : first.Edits third :=
  Relation.ReflTransGen.trans early late

theorem Edits.apply (op : Operation) (arena : Arena) : arena.Edits (op.apply arena).1 :=
  Relation.ReflTransGen.single ⟨op, rfl⟩

theorem extends_apply (op : Operation) (arena : Arena) : arena.Extends (op.apply arena).1 := by
  have outcome := op.outcome arena
  generalize op.apply arena = result at outcome ⊢
  cases outcome with
  | same => exact Extends.refl arena
  | bare => exact extends_append _ _ _
  | added => exact extends_appendWith _ _ _ _
  | copied => exact extends_appendWith _ _ _ _

/-- Operations only add to an arena. -/
theorem Edits.extends {first last : Arena} (edits : first.Edits last) : first.Extends last := by
  induction edits with
  | refl => exact Extends.refl first
  | tail _ made ih =>
    obtain ⟨op, rfl⟩ := made
    exact ih.trans (extends_apply op _)

end Arena

end EnumStamp
