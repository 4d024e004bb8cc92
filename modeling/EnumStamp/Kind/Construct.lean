set_option autoImplicit false

namespace EnumStamp

/-- The constructs with a code and a name of their own, in the order of their codes. -/
inductive Construct where
  | qualifiedName
  | computedName
  | parameter
  | decorator
  | propertyDeclaration
  | methodDeclaration
  | constructorDeclaration
  | typeReference
  | arrayLiteral
  | objectLiteral
  | propertyAccess
  | elementAccess
  | callExpression
  | newExpression
  | parenthesizedExpression
  | functionExpression
  | arrowFunction
  | unaryExpression
  | binaryExpression
  | conditionalExpression
  | classExpression
  | block
  | variableStatement
  | expressionStatement
  | ifStatement
  | returnStatement
  | variableDeclaration
  | variableDeclarationList
  | functionDeclaration
  | classDeclaration
  | interfaceDeclaration
  | typeAliasDeclaration
  | enumDeclaration
  | moduleDeclaration
  | moduleBlock
  | importDeclaration
  | exportAssignment
  | exportDeclaration
  | enumMember
  | sourceFile
  | docTypeExpression
  | docAllType
  | docComment
  | docTag
  deriving DecidableEq

namespace Construct

def all : List Construct :=
  [.qualifiedName, .computedName, .parameter, .decorator, .propertyDeclaration,
    .methodDeclaration, .constructorDeclaration, .typeReference, .arrayLiteral, .objectLiteral,
    .propertyAccess, .elementAccess, .callExpression, .newExpression, .parenthesizedExpression,
    .functionExpression, .arrowFunction, .unaryExpression, .binaryExpression,
    .conditionalExpression, .classExpression, .block, .variableStatement, .expressionStatement,
    .ifStatement, .returnStatement, .variableDeclaration, .variableDeclarationList,
    .functionDeclaration, .classDeclaration, .interfaceDeclaration, .typeAliasDeclaration,
    .enumDeclaration, .moduleDeclaration, .moduleBlock, .importDeclaration, .exportAssignment,
    .exportDeclaration, .enumMember, .sourceFile, .docTypeExpression, .docAllType, .docComment,
    .docTag]

def code : Construct → UInt16
  | .qualifiedName => 167
  | .computedName => 168
  | .parameter => 170
  | .decorator => 171
  | .propertyDeclaration => 173
  | .methodDeclaration => 175
  | .constructorDeclaration => 177
  | .typeReference => 184
  | .arrayLiteral => 210
  | .objectLiteral => 211
  | .propertyAccess => 212
  | .elementAccess => 213
  | .callExpression => 214
  | .newExpression => 215
  | .parenthesizedExpression => 218
  | .functionExpression => 219
  | .arrowFunction => 220
  | .unaryExpression => 225
  | .binaryExpression => 227
  | .conditionalExpression => 228
  | .classExpression => 232
  | .block => 242
  | .variableStatement => 244
  | .expressionStatement => 245
  | .ifStatement => 246
  | .returnStatement => 254
  | .variableDeclaration => 261
  | .variableDeclarationList => 262
  | .functionDeclaration => 263
  | .classDeclaration => 264
  | .interfaceDeclaration => 265
  | .typeAliasDeclaration => 266
  | .enumDeclaration => 267
  | .moduleDeclaration => 268
  | .moduleBlock => 269
  | .importDeclaration => 273
  | .exportAssignment => 278
  | .exportDeclaration => 279
  | .enumMember => 307
  | .sourceFile => 308
  | .docTypeExpression => 310
  | .docAllType => 313
  | .docComment => 321
  | .docTag => 328

def name : Construct → String
  | .qualifiedName => "QualifiedName"
  | .computedName => "ComputedPropertyName"
  | .parameter => "Parameter"
  | .decorator => "Decorator"
  | .propertyDeclaration => "PropertyDeclaration"
  | .methodDeclaration => "MethodDeclaration"
  | .constructorDeclaration => "Constructor"
  | .typeReference => "TypeReference"
  | .arrayLiteral => "ArrayLiteralExpression"
  | .objectLiteral => "ObjectLiteralExpression"
  | .propertyAccess => "PropertyAccessExpression"
  | .elementAccess => "ElementAccessExpression"
  | .callExpression => "CallExpression"
  | .newExpression => "NewExpression"
  | .parenthesizedExpression => "ParenthesizedExpression"
  | .functionExpression => "FunctionExpression"
  | .arrowFunction => "ArrowFunction"
  | .unaryExpression => "PrefixUnaryExpression"
  | .binaryExpression => "BinaryExpression"
  | .conditionalExpression => "ConditionalExpression"
  | .classExpression => "ClassExpression"
  | .block => "Block"
  | .variableStatement => "VariableStatement"
  | .expressionStatement => "ExpressionStatement"
  | .ifStatement => "IfStatement"
  | .returnStatement => "ReturnStatement"
  | .variableDeclaration => "VariableDeclaration"
  | .variableDeclarationList => "VariableDeclarationList"
  | .functionDeclaration => "FunctionDeclaration"
  | .classDeclaration => "ClassDeclaration"
  | .interfaceDeclaration => "InterfaceDeclaration"
  | .typeAliasDeclaration => "TypeAliasDeclaration"
  | .enumDeclaration => "EnumDeclaration"
  | .moduleDeclaration => "ModuleDeclaration"
  | .moduleBlock => "ModuleBlock"
  | .importDeclaration => "ImportDeclaration"
  | .exportAssignment => "ExportAssignment"
  | .exportDeclaration => "ExportDeclaration"
  | .enumMember => "EnumMember"
  | .sourceFile => "SourceFile"
  | .docTypeExpression => "JSDocTypeExpression"
  | .docAllType => "JSDocAllType"
  | .docComment => "JSDoc"
  | .docTag => "JSDocTag"

def ofCode? (code : UInt16) : Option Construct :=
  all.find? fun construct => construct.code == code

theorem mem_all (construct : Construct) : construct ∈ all := by
  cases construct <;> decide

theorem ofCode?_code (construct : Construct) : ofCode? construct.code = some construct := by
  cases construct <;> rfl

theorem code_of_ofCode? {code : UInt16} {construct : Construct}
    (found : ofCode? code = some construct) : construct.code = code := by
  simpa using List.find?_some found

end Construct

end EnumStamp
