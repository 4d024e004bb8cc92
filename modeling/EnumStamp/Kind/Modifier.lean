import EnumStamp.Kind.Basic

set_option autoImplicit false

namespace EnumStamp

/-- What a modifier keyword says about a declaration, by ascending flag bit. -/
inductive Modifier where
  | exported
  | ambient
  | publicAccess
  | privateAccess
  | protectedAccess
  | static
  | readonly
  | abstract
  | async
  | defaulted
  | const
  deriving DecidableEq

namespace Modifier

def all : List Modifier :=
  [.exported, .ambient, .publicAccess, .privateAccess, .protectedAccess, .static, .readonly,
    .abstract, .async, .defaulted, .const]

def bit : Modifier → Nat
  | .exported => 0
  | .ambient => 1
  | .publicAccess => 2
  | .privateAccess => 3
  | .protectedAccess => 4
  | .static => 5
  | .readonly => 6
  | .abstract => 7
  | .async => 8
  | .defaulted => 9
  | .const => 11

def name : Modifier → String
  | .exported => "EXPORT"
  | .ambient => "AMBIENT"
  | .publicAccess => "PUBLIC"
  | .privateAccess => "PRIVATE"
  | .protectedAccess => "PROTECTED"
  | .static => "STATIC"
  | .readonly => "READONLY"
  | .abstract => "ABSTRACT"
  | .async => "ASYNC"
  | .defaulted => "DEFAULT"
  | .const => "CONST"

def keyword : Modifier → String
  | .exported => "export"
  | .ambient => "declare"
  | .publicAccess => "public"
  | .privateAccess => "private"
  | .protectedAccess => "protected"
  | .static => "static"
  | .readonly => "readonly"
  | .abstract => "abstract"
  | .async => "async"
  | .defaulted => "default"
  | .const => "const"

theorem mem_all (modifier : Modifier) : modifier ∈ all := by
  cases modifier <;> decide

theorem bit_injective {left right : Modifier} (same : left.bit = right.bit) : left = right := by
  revert same
  cases left <;> cases right <;> decide

end Modifier

/-- The modifier that a token contributes; only modifier keywords contribute one. -/
def Token.modifier? : Token → Option Modifier
  | .exportKeyword => some .exported
  | .declareKeyword => some .ambient
  | .publicKeyword => some .publicAccess
  | .privateKeyword => some .privateAccess
  | .protectedKeyword => some .protectedAccess
  | .staticKeyword => some .static
  | .readonlyKeyword => some .readonly
  | .abstractKeyword => some .abstract
  | .asyncKeyword => some .async
  | .defaultKeyword => some .defaulted
  | .constKeyword => some .const
  | _ => none

def Token.isModifier (token : Token) : Bool :=
  token.modifier?.isSome

/-- The text of a modifier keyword; other tokens have none. -/
def Token.keyword (token : Token) : String :=
  match token.modifier? with
  | some modifier => modifier.keyword
  | none => ""

def Kind.modifier? (kind : Kind) : Option Modifier :=
  kind.token?.bind Token.modifier?

theorem Token.keyword_eq_empty_iff (token : Token) :
    token.keyword = "" ↔ token.isModifier = false := by
  cases token <;> decide

/-- A set of modifiers, as the modifiers of a declaration in source order; only membership
counts. -/
abbrev Modifiers := List Modifier

namespace Modifiers

/-- The flag word: the bit of every modifier in the set. -/
def bits (modifiers : Modifiers) : Nat :=
  Modifier.all.foldr
    (fun modifier word => if modifier ∈ modifiers then word + 1 <<< modifier.bit else word) 0

/-- The flag names of the set, by ascending bit. -/
def names (modifiers : Modifiers) : List String :=
  (Modifier.all.filter (· ∈ modifiers)).map Modifier.name

theorem bits_congr {left right : Modifiers}
    (same : ∀ modifier, modifier ∈ left ↔ modifier ∈ right) : left.bits = right.bits := by
  simp only [bits, same]

end Modifiers

end EnumStamp
