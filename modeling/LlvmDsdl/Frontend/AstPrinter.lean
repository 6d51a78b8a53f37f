import LlvmDsdl.Frontend.Ast

/-!
Contract: the printed form of expressions and types (`Frontend/ASTPrinter.cpp`).

Owns: the spelling of operators, `TypeExprAST::str` and `ExprAST::str`, trees without
their locations, how deep a printed form nests, and the literals that print as they
are written.
-/

namespace LlvmDsdl.Frontend

open Support

def unaryOpToString : UnaryOp → List Char
  | .plus => ['+']
  | .minus => ['-']
  | .logicalNot => ['!']

def binaryOpToString : BinaryOp → List Char
  | .attribute => ['.']
  | .pow => ['*', '*']
  | .mul => ['*']
  | .div => ['/']
  | .mod => ['%']
  | .add => ['+']
  | .sub => ['-']
  | .bitOr => ['|']
  | .bitXor => ['^']
  | .bitAnd => ['&']
  | .eq => ['=', '=']
  | .ne => ['!', '=']
  | .le => ['<', '=']
  | .ge => ['>', '=']
  | .lt => ['<']
  | .gt => ['>']
  | .logicalOr => ['|', '|']
  | .logicalAnd => ['&', '&']

/-- A number as it is printed. -/
def decimal (value : ℕ) : List Char :=
  Nat.toDigits 10 value

def CastMode.str : CastMode → List Char
  | .truncated => "truncated ".toList
  | .saturated => "saturated ".toList

def PrimitiveTypeExprAST.str (type : PrimitiveTypeExprAST) : List Char :=
  match type.kind with
  | .bool => "bool".toList
  | .byte => "byte".toList
  | .utf8 => "utf8".toList
  | .unsignedInt => type.castMode.str ++ ("uint".toList ++ decimal type.bitLength)
  | .signedInt => type.castMode.str ++ ("int".toList ++ decimal type.bitLength)
  | .float => type.castMode.str ++ ("float".toList ++ decimal type.bitLength)

/-- The components after the first, and the version. -/
def nameTailStr (components : List String) (major minor : ℕ) : List Char :=
  match components with
  | [] => '.' :: (decimal major ++ '.' :: decimal minor)
  | name :: more => '.' :: (name.toList ++ nameTailStr more major minor)

def VersionedTypeExprAST.str (type : VersionedTypeExprAST) : List Char :=
  match type.nameComponents with
  | [] => nameTailStr [] type.major type.minor
  | name :: more => name.toList ++ nameTailStr more type.major type.minor

def ScalarTypeExprAST.str : ScalarTypeExprAST → List Char
  | .primitive type => type.str
  | .void bitLength => "void".toList ++ decimal bitLength
  | .versioned type => type.str

/-- What is printed between the bracket and the capacity. -/
def ArrayKind.mark : ArrayKind → List Char
  | .none => []
  | .fixed => []
  | .variableInclusive => ['<', '=']
  | .variableExclusive => ['<']

def printedQuote : Char := Char.ofNat 39

mutual

def ExprAST.str : ExprAST → List Char
  | .boolean _ value => if value then "true".toList else "false".toList
  | .rational _ value => value.str.toList
  | .string _ value => printedQuote :: (value.toList ++ [printedQuote])
  | .identifier _ name => name.toList
  | .unary _ op operand => '(' :: (unaryOpToString op ++ (operand.str ++ [')']))
  | .binary _ op lhs rhs =>
      '(' :: (lhs.str ++ ' ' :: (binaryOpToString op ++ ' ' :: (rhs.str ++ [')'])))
  | .setLiteral _ [] => ['{', '}']
  | .setLiteral _ (first :: others) => '{' :: (first.str ++ (moreElementsStr others ++ ['}']))
  | .typeLiteral _ type => type.str

def moreElementsStr : List ExprAST → List Char
  | [] => []
  | element :: others => ',' :: ' ' :: (element.str ++ moreElementsStr others)

def TypeExprAST.str : TypeExprAST → List Char
  | .mk _ scalar arrayKind arrayCapacity =>
      match arrayKind with
      | .none => scalar.str
      | kind => scalar.str ++ '[' :: (kind.mark ++ (capacityStr arrayCapacity ++ [']']))

def capacityStr : Option ExprAST → List Char
  | none => ['?']
  | some capacity => capacity.str

end

/-- The location of nothing. -/
def nowhere : SourceLocation := ⟨"", 0, 0⟩

mutual

def ExprAST.unlocated : ExprAST → ExprAST
  | .boolean _ value => .boolean nowhere value
  | .rational _ value => .rational nowhere value
  | .string _ value => .string nowhere value
  | .identifier _ name => .identifier nowhere name
  | .unary _ op operand => .unary nowhere op operand.unlocated
  | .binary _ op lhs rhs => .binary nowhere op lhs.unlocated rhs.unlocated
  | .setLiteral _ elements => .setLiteral nowhere (unlocatedElements elements)
  | .typeLiteral _ type => .typeLiteral nowhere type.unlocated

def unlocatedElements : List ExprAST → List ExprAST
  | [] => []
  | element :: others => element.unlocated :: unlocatedElements others

def TypeExprAST.unlocated : TypeExprAST → TypeExprAST
  | .mk _ scalar arrayKind arrayCapacity =>
      .mk nowhere scalar arrayKind (unlocatedCapacity arrayCapacity)

def unlocatedCapacity : Option ExprAST → Option ExprAST
  | none => none
  | some capacity => some capacity.unlocated

end

mutual

def ExprAST.nesting : ExprAST → ℕ
  | .boolean _ _ => 0
  | .rational _ _ => 0
  | .string _ _ => 0
  | .identifier _ _ => 0
  | .unary _ _ operand => operand.nesting + 1
  | .binary _ _ lhs rhs => max lhs.nesting rhs.nesting + 1
  | .setLiteral _ elements => elementsNesting elements
  | .typeLiteral _ type => type.nesting

def elementsNesting : List ExprAST → ℕ
  | [] => 0
  | element :: others => max (element.nesting + 1) (elementsNesting others)

def TypeExprAST.nesting : TypeExprAST → ℕ
  | .mk _ _ _ arrayCapacity => capacityNesting arrayCapacity

def capacityNesting : Option ExprAST → ℕ
  | none => 0
  | some capacity => capacity.nesting + 1

end

def isPlainText (text : List Char) : Bool :=
  text.all fun c => c ≠ printedQuote && c ≠ Char.ofNat 92

mutual

/-- Every rational of a tree is an integer, and every string is plain text. -/
def ExprAST.isPrintable : ExprAST → Bool
  | .boolean _ _ => true
  | .rational _ value => value.isInteger
  | .string _ value => isPlainText value.toList
  | .identifier _ _ => true
  | .unary _ _ operand => operand.isPrintable
  | .binary _ _ lhs rhs => lhs.isPrintable && rhs.isPrintable
  | .setLiteral _ elements => elementsPrintable elements
  | .typeLiteral _ type => type.isPrintable

def elementsPrintable : List ExprAST → Bool
  | [] => true
  | element :: others => element.isPrintable && elementsPrintable others

def TypeExprAST.isPrintable : TypeExprAST → Bool
  | .mk _ _ _ arrayCapacity => capacityPrintable arrayCapacity

def capacityPrintable : Option ExprAST → Bool
  | none => true
  | some capacity => capacity.isPrintable

end

end LlvmDsdl.Frontend
