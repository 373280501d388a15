/-!
# SwiftOutline.Kind

The kinds of nodes and tokens in a syntax tree.

* `Kind` — one enumeration for both, so that a tree is uniform;
* `number` / `ofNumber` — kinds are numbered in the order of `all`, and unknown numbers
  read as `error`;
* `isTrivia`, `isDeclaration`, `isType` — the classes of kinds the rest asks for.
-/

namespace SwiftOutline

/-- The kind of a node or token. -/
inductive Kind where
  -- nodes: blocks, clauses and names
  | sourceFile | memberBlock | codeBlock | statement | attributeList | attribute
  | attributeArguments | attributeArgument | modifierList | modifier | modifierDetail | name
  | genericParameterClause | genericParameter | genericWhereClause | genericRequirement
  | genericArgumentClause | inheritanceClause | inheritedType | annotatedType | typeInitializer
  | initializer | expression
  -- nodes: declarations
  | classDecl | structDecl | enumDecl | protocolDecl | actorDecl | extensionDecl | functionDecl
  | initializerDecl | deinitializerDecl | subscriptDecl | variableDecl | typeAliasDecl
  | associatedTypeDecl | importDecl | operatorDecl | precedenceGroupDecl | enumCaseDecl
  | ifConfigDecl
  -- nodes: parts of declarations
  | patternBindingList | patternBinding | identifierPattern | tuplePattern | accessorBlock
  | accessorDecl | accessorParameter | effectSpecifiers | functionSignature | parameterClause
  | functionParameter | returnClause | importPath | precedenceDesignation
  | precedenceGroupAttribute | enumCaseElement | enumCaseParameterClause | enumCaseParameter
  | ifConfigClause | ifConfigCondition
  -- nodes: types
  | typePath | typePathSegment | typeOptional | typeImplicitlyUnwrapped | typeArray
  | typeDictionary | typeTuple | typeTupleElement | typeFunction | typeComposition | typeSome
  | typeAny | typeAttributed
  -- tokens: literals and names
  | identifier | string | integer | float | boolean | nilLiteral
  -- tokens: words
  | kwAssociatedtype | kwCase | kwClass | kwDeinit | kwEnum | kwExtension | kwFileprivate
  | kwFunc | kwImport | kwInit | kwInout | kwInternal | kwLet | kwOperator | kwPrecedencegroup
  | kwPrivate | kwProtocol | kwPublic | kwStatic | kwStruct | kwSubscript | kwTypealias | kwVar
  | kwAs | kwIs | kwRethrows | kwSelfValue | kwSelfType | kwThrows | kwTry | kwWhere
  -- tokens: directives
  | poundIf | poundElseif | poundElse | poundEndif
  -- tokens: brackets
  | openParen | closeParen | openBrace | closeBrace | openBracket | closeBracket | openAngle
  | closeAngle
  -- tokens: punctuation and operators
  | semicolon | comma | dot | ellipsis | colon | equals | arrow | question | bang | ampersand
  | atSign | hash | backslash | customOperator
  -- tokens: trivia
  | whitespace | lineComment | blockComment
  -- anything that fits no rule, as token or node
  | error
  deriving DecidableEq, Repr, Inhabited
namespace Kind

/-- All kinds, in the order of their numbers. -/
def all : List Kind := [
  .sourceFile, .memberBlock, .codeBlock, .statement, .attributeList, .attribute,
  .attributeArguments, .attributeArgument, .modifierList, .modifier, .modifierDetail, .name,
  .genericParameterClause, .genericParameter, .genericWhereClause, .genericRequirement,
  .genericArgumentClause, .inheritanceClause, .inheritedType, .annotatedType, .typeInitializer,
  .initializer, .expression, .classDecl, .structDecl, .enumDecl, .protocolDecl, .actorDecl,
  .extensionDecl, .functionDecl, .initializerDecl, .deinitializerDecl, .subscriptDecl,
  .variableDecl, .typeAliasDecl, .associatedTypeDecl, .importDecl, .operatorDecl,
  .precedenceGroupDecl, .enumCaseDecl, .ifConfigDecl, .patternBindingList, .patternBinding,
  .identifierPattern, .tuplePattern, .accessorBlock, .accessorDecl, .accessorParameter,
  .effectSpecifiers, .functionSignature, .parameterClause, .functionParameter, .returnClause,
  .importPath, .precedenceDesignation, .precedenceGroupAttribute, .enumCaseElement,
  .enumCaseParameterClause, .enumCaseParameter, .ifConfigClause, .ifConfigCondition, .typePath,
  .typePathSegment, .typeOptional, .typeImplicitlyUnwrapped, .typeArray, .typeDictionary,
  .typeTuple, .typeTupleElement, .typeFunction, .typeComposition, .typeSome, .typeAny,
  .typeAttributed, .identifier, .string, .integer, .float, .boolean, .nilLiteral,
  .kwAssociatedtype, .kwCase, .kwClass, .kwDeinit, .kwEnum, .kwExtension, .kwFileprivate,
  .kwFunc, .kwImport, .kwInit, .kwInout, .kwInternal, .kwLet, .kwOperator, .kwPrecedencegroup,
  .kwPrivate, .kwProtocol, .kwPublic, .kwStatic, .kwStruct, .kwSubscript, .kwTypealias, .kwVar,
  .kwAs, .kwIs, .kwRethrows, .kwSelfValue, .kwSelfType, .kwThrows, .kwTry, .kwWhere, .poundIf,
  .poundElseif, .poundElse, .poundEndif, .openParen, .closeParen, .openBrace, .closeBrace,
  .openBracket, .closeBracket, .openAngle, .closeAngle, .semicolon, .comma, .dot, .ellipsis,
  .colon, .equals, .arrow, .question, .bang, .ampersand, .atSign, .hash, .backslash,
  .customOperator, .whitespace, .lineComment, .blockComment, .error]
/-- The number of a kind: its place in `all`. -/
def number (k : Kind) : Nat := k.ctorIdx

/-- The kind with a number; a number that no kind has reads as `error`. -/
def ofNumber (n : Nat) : Kind := all[n]?.getD .error

theorem getElem?_all (k : Kind) : all[k.number]? = some k := by cases k <;> rfl

@[simp] theorem ofNumber_number (k : Kind) : ofNumber k.number = k := by
  simp [ofNumber, getElem?_all]

/-- The label a kind is shown under. -/
def label : Kind → String
  | .sourceFile => "SourceFile"
  | .memberBlock => "MemberBlock"
  | .codeBlock => "CodeBlock"
  | .statement => "Statement"
  | .attributeList => "AttributeList"
  | .attribute => "Attribute"
  | .attributeArguments => "AttributeArguments"
  | .attributeArgument => "AttributeArgument"
  | .modifierList => "ModifierList"
  | .modifier => "Modifier"
  | .modifierDetail => "ModifierDetail"
  | .name => "Name"
  | .genericParameterClause => "GenericParameterClause"
  | .genericParameter => "GenericParameter"
  | .genericWhereClause => "GenericWhereClause"
  | .genericRequirement => "GenericRequirement"
  | .genericArgumentClause => "GenericArgumentClause"
  | .inheritanceClause => "InheritanceClause"
  | .inheritedType => "InheritedType"
  | .annotatedType => "TypeAnnotation"
  | .typeInitializer => "TypeInitializer"
  | .initializer => "Initializer"
  | .expression => "Expr"
  | .classDecl => "ClassDecl"
  | .structDecl => "StructDecl"
  | .enumDecl => "EnumDecl"
  | .protocolDecl => "ProtocolDecl"
  | .actorDecl => "ActorDecl"
  | .extensionDecl => "ExtensionDecl"
  | .functionDecl => "FunctionDecl"
  | .initializerDecl => "InitializerDecl"
  | .deinitializerDecl => "DeinitializerDecl"
  | .subscriptDecl => "SubscriptDecl"
  | .variableDecl => "VariableDecl"
  | .typeAliasDecl => "TypeAliasDecl"
  | .associatedTypeDecl => "AssociatedTypeDecl"
  | .importDecl => "ImportDecl"
  | .operatorDecl => "OperatorDecl"
  | .precedenceGroupDecl => "PrecedenceGroupDecl"
  | .enumCaseDecl => "EnumCaseDecl"
  | .ifConfigDecl => "IfConfigDecl"
  | .patternBindingList => "PatternBindingList"
  | .patternBinding => "PatternBinding"
  | .identifierPattern => "IdentifierPattern"
  | .tuplePattern => "TuplePattern"
  | .accessorBlock => "AccessorBlock"
  | .accessorDecl => "AccessorDecl"
  | .accessorParameter => "AccessorParameter"
  | .effectSpecifiers => "EffectSpecifiers"
  | .functionSignature => "FunctionSignature"
  | .parameterClause => "ParameterClause"
  | .functionParameter => "FunctionParameter"
  | .returnClause => "ReturnClause"
  | .importPath => "ImportPath"
  | .precedenceDesignation => "PrecedenceDesignation"
  | .precedenceGroupAttribute => "PrecedenceGroupAttribute"
  | .enumCaseElement => "EnumCaseElement"
  | .enumCaseParameterClause => "EnumCaseParameterClause"
  | .enumCaseParameter => "EnumCaseParameter"
  | .ifConfigClause => "IfConfigClause"
  | .ifConfigCondition => "IfConfigCondition"
  | .typePath => "TyPath"
  | .typePathSegment => "TyPathSegment"
  | .typeOptional => "TyOptional"
  | .typeImplicitlyUnwrapped => "TyImplicitlyUnwrapped"
  | .typeArray => "TyArray"
  | .typeDictionary => "TyDictionary"
  | .typeTuple => "TyTuple"
  | .typeTupleElement => "TyTupleElement"
  | .typeFunction => "TyFunction"
  | .typeComposition => "TyComposition"
  | .typeSome => "TySome"
  | .typeAny => "TyAny"
  | .typeAttributed => "TyAttributed"
  | .identifier => "Identifier"
  | .string => "String"
  | .integer => "Integer"
  | .float => "Float"
  | .boolean => "Boolean"
  | .nilLiteral => "Nil"
  | .kwAssociatedtype => "Associatedtype"
  | .kwCase => "Case"
  | .kwClass => "Class"
  | .kwDeinit => "Deinit"
  | .kwEnum => "Enum"
  | .kwExtension => "Extension"
  | .kwFileprivate => "Fileprivate"
  | .kwFunc => "Func"
  | .kwImport => "Import"
  | .kwInit => "Init"
  | .kwInout => "Inout"
  | .kwInternal => "Internal"
  | .kwLet => "Let"
  | .kwOperator => "Operator"
  | .kwPrecedencegroup => "Precedencegroup"
  | .kwPrivate => "Private"
  | .kwProtocol => "Protocol"
  | .kwPublic => "Public"
  | .kwStatic => "Static"
  | .kwStruct => "Struct"
  | .kwSubscript => "Subscript"
  | .kwTypealias => "Typealias"
  | .kwVar => "Var"
  | .kwAs => "As"
  | .kwIs => "Is"
  | .kwRethrows => "Rethrows"
  | .kwSelfValue => "SelfValue"
  | .kwSelfType => "SelfType"
  | .kwThrows => "Throws"
  | .kwTry => "Try"
  | .kwWhere => "Where"
  | .poundIf => "PoundIf"
  | .poundElseif => "PoundElseif"
  | .poundElse => "PoundElse"
  | .poundEndif => "PoundEndif"
  | .openParen => "LParen"
  | .closeParen => "RParen"
  | .openBrace => "LBrace"
  | .closeBrace => "RBrace"
  | .openBracket => "LBracket"
  | .closeBracket => "RBracket"
  | .openAngle => "LAngle"
  | .closeAngle => "RAngle"
  | .semicolon => "Semicolon"
  | .comma => "Comma"
  | .dot => "Dot"
  | .ellipsis => "Ellipsis"
  | .colon => "Colon"
  | .equals => "Equals"
  | .arrow => "Arrow"
  | .question => "Question"
  | .bang => "Bang"
  | .ampersand => "Ampersand"
  | .atSign => "At"
  | .hash => "Hash"
  | .backslash => "Backslash"
  | .customOperator => "CustomOperator"
  | .whitespace => "Whitespace"
  | .lineComment => "LineComment"
  | .blockComment => "BlockComment"
  | .error => "Error"

/-- The kind shown under a label. -/
def ofLabel? (s : String) : Option Kind := all.find? (·.label == s)

/-- White space and comments. -/
def isTrivia : Kind → Bool
  | .whitespace | .lineComment | .blockComment => true
  | _ => false

/-- Nodes that introduce a declaration. -/
def isDeclaration : Kind → Bool
  | .classDecl | .structDecl | .enumDecl | .protocolDecl | .actorDecl | .extensionDecl
  | .functionDecl | .initializerDecl | .deinitializerDecl | .subscriptDecl | .variableDecl
  | .typeAliasDecl | .associatedTypeDecl | .importDecl | .operatorDecl
  | .precedenceGroupDecl | .enumCaseDecl | .ifConfigDecl => true
  | _ => false

/-- Nodes that are a whole type. -/
def isType : Kind → Bool
  | .typePath | .typeOptional | .typeImplicitlyUnwrapped | .typeArray | .typeDictionary
  | .typeTuple | .typeFunction | .typeComposition | .typeSome | .typeAny
  | .typeAttributed => true
  | _ => false

/-- `(`, `[` or a brace that opens. -/
def isOpener : Kind → Bool
  | .openParen | .openBracket | .openBrace => true
  | _ => false

/-- `)`, `]` or a brace that closes. -/
def isCloser : Kind → Bool
  | .closeParen | .closeBracket | .closeBrace => true
  | _ => false

theorem isCloser_eq_false_of_isOpener {k : Kind} (h : k.isOpener = true) :
    k.isCloser = false := by
  cases k <;> simp_all [isOpener, isCloser]

end Kind

end SwiftOutline
