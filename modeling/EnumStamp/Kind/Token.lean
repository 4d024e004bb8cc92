set_option autoImplicit false

namespace EnumStamp

/-- The tokens that trees of this library can hold, in the order of their codes. -/
inductive Token where
  | unknown
  | endOfFile
  | numericLiteral
  | bigIntLiteral
  | stringLiteral
  | regularExpressionLiteral
  | plainTemplateLiteral
  | identifier
  | privateIdentifier
  | constKeyword
  | defaultKeyword
  | enumKeyword
  | exportKeyword
  | falseKeyword
  | nullKeyword
  | superKeyword
  | thisKeyword
  | trueKeyword
  | privateKeyword
  | protectedKeyword
  | publicKeyword
  | staticKeyword
  | abstractKeyword
  | asyncKeyword
  | declareKeyword
  | readonlyKeyword
  deriving DecidableEq

namespace Token

def all : List Token :=
  [.unknown, .endOfFile, .numericLiteral, .bigIntLiteral, .stringLiteral,
    .regularExpressionLiteral, .plainTemplateLiteral, .identifier, .privateIdentifier,
    .constKeyword, .defaultKeyword, .enumKeyword, .exportKeyword, .falseKeyword, .nullKeyword,
    .superKeyword, .thisKeyword, .trueKeyword, .privateKeyword, .protectedKeyword, .publicKeyword,
    .staticKeyword, .abstractKeyword, .asyncKeyword, .declareKeyword, .readonlyKeyword]

def code : Token → UInt16
  | .unknown => 0
  | .endOfFile => 1
  | .numericLiteral => 9
  | .bigIntLiteral => 10
  | .stringLiteral => 11
  | .regularExpressionLiteral => 14
  | .plainTemplateLiteral => 15
  | .identifier => 80
  | .privateIdentifier => 81
  | .constKeyword => 87
  | .defaultKeyword => 90
  | .enumKeyword => 94
  | .exportKeyword => 95
  | .falseKeyword => 97
  | .nullKeyword => 106
  | .superKeyword => 108
  | .thisKeyword => 110
  | .trueKeyword => 112
  | .privateKeyword => 123
  | .protectedKeyword => 124
  | .publicKeyword => 125
  | .staticKeyword => 126
  | .abstractKeyword => 128
  | .asyncKeyword => 134
  | .declareKeyword => 138
  | .readonlyKeyword => 148

/-- The name used in diagnostics and in written tokens. -/
def name : Token → String
  | .unknown => "Unknown"
  | .endOfFile => "EndOfFileToken"
  | .numericLiteral => "NumericLiteral"
  | .bigIntLiteral => "BigIntLiteral"
  | .stringLiteral => "StringLiteral"
  | .regularExpressionLiteral => "RegularExpressionLiteral"
  | .plainTemplateLiteral => "NoSubstitutionTemplateLiteral"
  | .identifier => "Identifier"
  | .privateIdentifier => "PrivateIdentifier"
  | .constKeyword => "ConstKeyword"
  | .defaultKeyword => "DefaultKeyword"
  | .enumKeyword => "EnumKeyword"
  | .exportKeyword => "ExportKeyword"
  | .falseKeyword => "FalseKeyword"
  | .nullKeyword => "NullKeyword"
  | .superKeyword => "SuperKeyword"
  | .thisKeyword => "ThisKeyword"
  | .trueKeyword => "TrueKeyword"
  | .privateKeyword => "PrivateKeyword"
  | .protectedKeyword => "ProtectedKeyword"
  | .publicKeyword => "PublicKeyword"
  | .staticKeyword => "StaticKeyword"
  | .abstractKeyword => "AbstractKeyword"
  | .asyncKeyword => "AsyncKeyword"
  | .declareKeyword => "DeclareKeyword"
  | .readonlyKeyword => "ReadonlyKeyword"

def ofCode? (code : UInt16) : Option Token :=
  all.find? fun token => token.code == code

def ofName? (name : String) : Option Token :=
  all.find? fun token => token.name == name

theorem mem_all (token : Token) : token ∈ all := by
  cases token <;> decide

theorem ofCode?_code (token : Token) : ofCode? token.code = some token := by
  cases token <;> rfl

theorem code_of_ofCode? {code : UInt16} {token : Token} (found : ofCode? code = some token) :
    token.code = code := by
  simpa using List.find?_some found

theorem ofName?_name (token : Token) : ofName? token.name = some token := by
  cases token <;> decide

theorem name_of_ofName? {name : String} {token : Token} (found : ofName? name = some token) :
    token.name = name := by
  simpa using List.find?_some found

end Token

end EnumStamp
