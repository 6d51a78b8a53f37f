import LlvmDsdl.Support.Rational

/-!
Contract: parsed definitions as the semantic analysis receives them.

Owns: source locations, diagnostics, type and constant expressions, statements
and the discovery metadata of a definition.

Documentation comments, name locations and the printed form of expressions take
no part in the analysis and are left out.
-/

namespace LlvmDsdl.Frontend

open Support

/-- A place in a file; lines and columns are counted in 32 bits, from one. -/
structure SourceLocation where
  file : String
  line : UInt32
  column : UInt32
  deriving DecidableEq, Inhabited

inductive Severity where
  | error
  | note
  deriving DecidableEq

/-- One reported diagnostic; an extent error carries the extent it suggests. -/
structure Diagnostic where
  severity : Severity
  location : SourceLocation
  message : String
  suggestedExtent : Option ℤ
  deriving DecidableEq

inductive CastMode where
  | saturated
  | truncated
  deriving DecidableEq

inductive PrimitiveKind where
  | bool
  | byte
  | utf8
  | unsignedInt
  | signedInt
  | float
  deriving DecidableEq

inductive ArrayKind where
  | none
  | fixed
  | variableInclusive
  | variableExclusive
  deriving DecidableEq

structure PrimitiveTypeExprAST where
  kind : PrimitiveKind
  castMode : CastMode
  bitLength : ℕ
  deriving DecidableEq

structure VersionedTypeExprAST where
  nameComponents : List String
  major : ℕ
  minor : ℕ
  deriving DecidableEq

inductive ScalarTypeExprAST where
  | primitive (type : PrimitiveTypeExprAST)
  | void (bitLength : ℕ)
  | versioned (type : VersionedTypeExprAST)
  deriving DecidableEq

inductive UnaryOp where
  | plus
  | minus
  | logicalNot
  deriving DecidableEq

inductive BinaryOp where
  | attribute
  | pow
  | mul
  | div
  | mod
  | add
  | sub
  | bitOr
  | bitXor
  | bitAnd
  | eq
  | ne
  | le
  | ge
  | lt
  | gt
  | logicalOr
  | logicalAnd
  deriving DecidableEq

mutual

inductive ExprAST where
  | boolean (location : SourceLocation) (value : Bool)
  | rational (location : SourceLocation) (value : Rational)
  | string (location : SourceLocation) (value : String)
  | identifier (location : SourceLocation) (name : String)
  | unary (location : SourceLocation) (op : UnaryOp) (operand : ExprAST)
  | binary (location : SourceLocation) (op : BinaryOp) (lhs rhs : ExprAST)
  | setLiteral (location : SourceLocation) (elements : List ExprAST)
  | typeLiteral (location : SourceLocation) (type : TypeExprAST)

inductive TypeExprAST where
  | mk (location : SourceLocation) (scalar : ScalarTypeExprAST) (arrayKind : ArrayKind)
    (arrayCapacity : Option ExprAST)

end

namespace ExprAST

def location : ExprAST → SourceLocation
  | boolean location _ => location
  | rational location _ => location
  | string location _ => location
  | identifier location _ => location
  | unary location _ _ => location
  | binary location _ _ _ => location
  | setLiteral location _ => location
  | typeLiteral location _ => location

end ExprAST

namespace TypeExprAST

def location : TypeExprAST → SourceLocation
  | mk location _ _ _ => location

def scalar : TypeExprAST → ScalarTypeExprAST
  | mk _ scalar _ _ => scalar

def arrayKind : TypeExprAST → ArrayKind
  | mk _ _ arrayKind _ => arrayKind

def arrayCapacity : TypeExprAST → Option ExprAST
  | mk _ _ _ arrayCapacity => arrayCapacity

end TypeExprAST

inductive DirectiveKind where
  | union
  | extent
  | sealed
  | deprecated
  | assert
  | print
  | aliasable
  | unknown
  deriving DecidableEq

structure ConstantDeclAST where
  location : SourceLocation
  type : TypeExprAST
  name : String
  value : ExprAST

structure FieldDeclAST where
  location : SourceLocation
  type : TypeExprAST
  name : String
  isPadding : Bool

structure DirectiveAST where
  location : SourceLocation
  kind : DirectiveKind
  rawName : String
  expression : Option ExprAST

inductive StatementAST where
  | constant (declaration : ConstantDeclAST)
  | field (declaration : FieldDeclAST)
  | directive (directive : DirectiveAST)
  | serviceResponseMarker (location : SourceLocation)

def StatementAST.location : StatementAST → SourceLocation
  | constant declaration => declaration.location
  | field declaration => declaration.location
  | directive statement => statement.location
  | serviceResponseMarker location => location

structure DefinitionAST where
  location : SourceLocation
  statements : List StatementAST

def StatementAST.isMarker : StatementAST → Bool
  | serviceResponseMarker _ => true
  | _ => false

def DefinitionAST.isService (definition : DefinitionAST) : Bool :=
  definition.statements.any StatementAST.isMarker

/-- Discovery metadata, as far as the analysis reads it. -/
structure DiscoveredDefinition where
  filePath : String
  fullName : String
  shortName : String
  namespaceComponents : List String
  majorVersion : ℕ
  minorVersion : ℕ
  fixedPortId : Option ℕ
  deriving DecidableEq

structure ParsedDefinition where
  info : DiscoveredDefinition
  ast : DefinitionAST

/-- The parsed definitions, in the order they are listed. -/
abbrev ASTModule := List ParsedDefinition

end LlvmDsdl.Frontend
