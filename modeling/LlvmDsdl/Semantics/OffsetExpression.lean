import LlvmDsdl.Semantics.SymbolicComparisons

/-!
Contract: the constant expressions written over `_offset_`.

Owns: sums and remainders of `_offset_` with integers, set literals of constants,
the six set comparisons, `.min`, `.max` and `.count`, the scalar expressions
built on these, their syntax trees, and how each is evaluated.
-/

namespace LlvmDsdl.Semantics

open Frontend Support Support.IntegerMath

/-- A number as it is written, possibly under signs. -/
inductive Numeral where
  | literal (location : SourceLocation) (value : Rational)
  | negated (location : SourceLocation) (operand : Numeral)

namespace Numeral

def value : Numeral → Rational
  | literal _ value => value
  | negated _ operand => operand.value.neg

def toExpr : Numeral → ExprAST
  | literal location value => .rational location value
  | negated location operand => .unary location .minus operand.toExpr

end Numeral

structure IntegerNumeral where
  numeral : Numeral
  integer : ℤ
  fits : InInt128 integer
  value_eq : numeral.value = .ofInteger integer

/-- `_offset_` under sums and remainders with integers. -/
inductive OffsetTerm where
  | offset (location : SourceLocation)
  | sum (location : SourceLocation) (term : OffsetTerm) (addend : IntegerNumeral)
  | sumLeft (location : SourceLocation) (addend : IntegerNumeral) (term : OffsetTerm)
  | remainder (location : SourceLocation) (term : OffsetTerm) (divisor : IntegerNumeral)

namespace OffsetTerm

def toExpr : OffsetTerm → ExprAST
  | offset location => .identifier location "_offset_"
  | sum location term addend => .binary location .add term.toExpr addend.numeral.toExpr
  | sumLeft location addend term => .binary location .add addend.numeral.toExpr term.toExpr
  | remainder location term divisor => .binary location .mod term.toExpr divisor.numeral.toExpr

/-- The term and the terms inside it. -/
def subterms : OffsetTerm → List OffsetTerm
  | offset location => [offset location]
  | sum location term addend => sum location term addend :: term.subterms
  | sumLeft location addend term => sumLeft location addend term :: term.subterms
  | remainder location term divisor => remainder location term divisor :: term.subterms

/-- The total a term adds to `_offset_`, where every addend is one that keeps
the set symbolic: an integer from 0 to `INT64_MAX`. -/
def shift : OffsetTerm → Option ℤ
  | offset _ => some 0
  | sum _ term addend =>
      if SymbolicAddend addend.integer then term.shift.map (· + addend.integer) else none
  | sumLeft _ addend term =>
      if SymbolicAddend addend.integer then term.shift.map (· + addend.integer) else none
  | remainder _ _ _ => none

end OffsetTerm

inductive ConstantExpr where
  | number (numeral : Numeral)
  | unary (location : SourceLocation) (op : UnaryOp) (operand : ConstantExpr)
  | binary (location : SourceLocation) (op : BinaryOp) (operator : op ≠ .attribute)
    (lhs rhs : ConstantExpr)

namespace ConstantExpr

def toExpr : ConstantExpr → ExprAST
  | number numeral => numeral.toExpr
  | unary location op operand => .unary location op operand.toExpr
  | binary location op _ lhs rhs => .binary location op lhs.toExpr rhs.toExpr

/-- The expression and the expressions inside it. -/
def subexpressions : ConstantExpr → List ConstantExpr
  | number numeral => [number numeral]
  | unary location op operand => unary location op operand :: operand.subexpressions
  | binary location op operator lhs rhs =>
      binary location op operator lhs rhs :: (lhs.subexpressions ++ rhs.subexpressions)

def value (host : Host) : ConstantExpr → Option Value
  | number numeral => some (.rational numeral.value)
  | unary _ op operand =>
      (operand.value host).bind fun inner => (applyUnary op inner).toOption
  | binary _ op _ lhs rhs =>
      (lhs.value host).bind fun left => (rhs.value host).bind fun right =>
        (applyBinary host op left right).toOption

end ConstantExpr

def literalNumbers (host : Host) : List ConstantExpr → Option (List Rational)
  | [] => some []
  | element :: rest =>
      match element.value host with
      | some (.rational number) => (literalNumbers host rest).map (number :: ·)
      | _ => none

/-- A set operand: a term over `_offset_` or a literal. -/
inductive SetOperand where
  | term (term : OffsetTerm)
  | literal (location : SourceLocation) (elements : List ConstantExpr)

namespace SetOperand

def toExpr : SetOperand → ExprAST
  | .term inner => inner.toExpr
  | .literal location elements => .setLiteral location (elements.map ConstantExpr.toExpr)

def terms : SetOperand → List OffsetTerm
  | .term inner => inner.subterms
  | .literal _ _ => []

/-- The set a literal stands for: its numbers inserted in order. -/
def literalSet (host : Host) : SetOperand → Option RationalSet
  | .term _ => none
  | .literal _ elements =>
      (literalNumbers host elements).map (RationalSet.empty.insertAll host.longDoubleLess)

end SetOperand

inductive SetAttribute where
  | min
  | max
  | count
  deriving DecidableEq

def SetAttribute.name : SetAttribute → String
  | min => "min"
  | max => "max"
  | count => "count"

/-- An expression whose value is a number or a truth value. -/
inductive ScalarExpr where
  | number (numeral : Numeral)
  | attribute (location nameLocation : SourceLocation) (operand : SetOperand)
    (name : SetAttribute)
  | compare (location : SourceLocation) (op : BinaryOp) (comparison : IsComparison op)
    (lhs rhs : SetOperand)
  | unary (location : SourceLocation) (op : UnaryOp) (operand : ScalarExpr)
  | binary (location : SourceLocation) (op : BinaryOp) (operator : op ≠ .attribute)
    (lhs rhs : ScalarExpr)

namespace ScalarExpr

def toExpr : ScalarExpr → ExprAST
  | number numeral => numeral.toExpr
  | .attribute location nameLocation operand name =>
      .binary location .attribute operand.toExpr (.identifier nameLocation name.name)
  | compare location op _ lhs rhs => .binary location op lhs.toExpr rhs.toExpr
  | unary location op operand => .unary location op operand.toExpr
  | binary location op _ lhs rhs => .binary location op lhs.toExpr rhs.toExpr

def operands : ScalarExpr → List SetOperand
  | number _ => []
  | .attribute _ _ operand _ => [operand]
  | compare _ _ _ lhs rhs => [lhs, rhs]
  | unary _ _ operand => operand.operands
  | binary _ _ _ lhs rhs => lhs.operands ++ rhs.operands

end ScalarExpr

inductive OffsetExpr where
  | operand (operand : SetOperand)
  | scalar (scalar : ScalarExpr)

namespace OffsetExpr

def toExpr : OffsetExpr → ExprAST
  | operand set => set.toExpr
  | scalar expr => expr.toExpr

def operands : OffsetExpr → List SetOperand
  | operand set => [set]
  | scalar expr => expr.operands

/-- Every term over `_offset_` inside the expression. -/
def terms (expr : OffsetExpr) : List OffsetTerm :=
  expr.operands.flatMap SetOperand.terms

end OffsetExpr

section Evaluation

variable (host : Host)

/-- Evaluate with `_offset_` bound to a value; what is reported is appended. -/
def evaluateOffset (offset : Value) (expr : ExprAST) (diagnostics : List Diagnostic) :
    Option Value × List Diagnostic :=
  evaluate (m := Id) host (fun name => if name = "_offset_" then some offset else none) none expr
    diagnostics

variable {host} {offset : Value}

/-- A settled result appends at most one error. -/
def settled (location : SourceLocation) (result : Except String Value)
    (diagnostics : List Diagnostic) : Option Value × List Diagnostic :=
  match result with
  | .ok value => (some value, diagnostics)
  | .error message => (none, diagnostics ++ [⟨.error, location, message, none⟩])

end Evaluation

end LlvmDsdl.Semantics
