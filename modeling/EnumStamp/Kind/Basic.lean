import EnumStamp.Kind.Construct
import EnumStamp.Kind.Token

set_option autoImplicit false

namespace EnumStamp

/-- What a node is, as the code stored in its header; any 16-bit code is a kind. -/
structure Kind where
  code : UInt16
  deriving DecidableEq

/-- The pool that nodes of a kind keep their payload in. -/
inductive Category where
  /-- Keywords and punctuation, which have no payload. -/
  | token
  | identifier
  | literal
  | sourceFile
  | enumeration
  | enumMember
  | computedName
  | moduleDecl
  | doc
  /-- Every other construct, which has an ordered list of children. -/
  | composite
  deriving DecidableEq

def Token.kind (token : Token) : Kind :=
  ⟨token.code⟩

def Construct.kind (construct : Construct) : Kind :=
  ⟨construct.code⟩

namespace Kind

def token? (kind : Kind) : Option Token :=
  Token.ofCode? kind.code

/-- The name for diagnostics; a kind that is neither token nor construct is unknown. -/
def name (kind : Kind) : String :=
  match kind.token? with
  | some token => token.name
  | none =>
    match Construct.ofCode? kind.code with
    | some construct => construct.name
    | none => Token.unknown.name

/-- Whether the kind is one of the four documentation kinds. -/
def isDoc (kind : Kind) : Bool :=
  kind.code == 310 || kind.code == 313 || kind.code == 321 || kind.code == 328

/-- Whether the kind is an identifier, private or not. -/
def isIdentifier (kind : Kind) : Bool :=
  kind.code == 80 || kind.code == 81

def isLiteral (kind : Kind) : Bool :=
  kind.code == 9 || kind.code == 10 || kind.code == 11 || kind.code == 14 || kind.code == 15

/-- The category of a kind: codes from the first construct on are composite unless they have a
category of their own, and codes below it are tokens. -/
def category (kind : Kind) : Category :=
  if kind.isIdentifier then .identifier
  else if kind.isLiteral then .literal
  else if kind.isDoc then .doc
  else if kind.code == 308 then .sourceFile
  else if kind.code == 267 then .enumeration
  else if kind.code == 307 then .enumMember
  else if kind.code == 168 then .computedName
  else if kind.code == 268 then .moduleDecl
  else if 167 ≤ kind.code then .composite
  else .token

theorem token?_kind (token : Token) : token.kind.token? = some token :=
  Token.ofCode?_code token

theorem name_token (token : Token) : token.kind.name = token.name := by
  simp only [name, token?_kind]

theorem name_construct (construct : Construct) : construct.kind.name = construct.name := by
  cases construct <;> rfl

theorem category_eq_doc_iff (kind : Kind) : kind.category = .doc ↔ kind.isDoc = true := by
  have disjoint : kind.isDoc = true → kind.isIdentifier = false ∧ kind.isLiteral = false := by
    simp only [isDoc, isIdentifier, isLiteral, Bool.or_eq_true, beq_iff_eq, Bool.or_eq_false_iff]
    rintro (((code | code) | code) | code) <;> rw [code] <;> decide
  unfold category
  repeat' split
  all_goals simp_all

end Kind

namespace Category

def name : Category → String
  | .token => "Token"
  | .identifier => "Identifier"
  | .literal => "Literal"
  | .sourceFile => "SourceFile"
  | .enumeration => "Enum"
  | .enumMember => "EnumMember"
  | .computedName => "ComputedProperty"
  | .moduleDecl => "Module"
  | .doc => "JsDoc"
  | .composite => "Composite"

end Category

end EnumStamp
