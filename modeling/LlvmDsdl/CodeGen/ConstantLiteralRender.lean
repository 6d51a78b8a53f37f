import LlvmDsdl.Frontend.AstPrinter
import LlvmDsdl.Semantics.Evaluator
import LlvmDsdl.Support.LanguageTraits

/-!
Contract: `renderConstantLiteral`, the text of a constant in a target language.

Owns: what the declared type of a constant tells the renderer, and the text of each
kind of value.
-/

namespace LlvmDsdl.CodeGen

open LlvmDsdl.Frontend (TypeExprAST decimal)
open LlvmDsdl.Support (Rational Language)
open LlvmDsdl.Semantics (Value)

inductive ConstantNumericClass where
  /-- Non-numeric or unknown; render from the value alone. -/
  | other
  | signedInt
  | unsignedInt
  | float
  deriving DecidableEq, Repr

structure ConstantTypeInfo where
  numericClass : ConstantNumericClass
  /-- Declared bit width; 0 when unknown. -/
  bitLength : ℕ
  deriving DecidableEq, Repr

def makeConstantTypeInfo (type : TypeExprAST) : ConstantTypeInfo :=
  match type.scalar with
  | .primitive prim =>
      { numericClass :=
          match prim.kind with
          | .signedInt => .signedInt
          | .unsignedInt | .byte | .utf8 => .unsignedInt
          | .float => .float
          | .bool => .other
        bitLength := prim.bitLength }
  | _ => ⟨.other, 0⟩

def wideToString (value : ℤ) : List Char :=
  if value < 0 then '-' :: decimal value.natAbs else decimal value.natAbs

/-- `INT64_MIN` has no bare literal in Rust and C, an unsigned value above
`INT64_MAX` needs a suffix there, and a 64-bit integer is a `bigint` in TypeScript. -/
def renderIntegerConstant (language : Language) (wide : ℤ) (typeInfo : ConstantTypeInfo) :
    List Char :=
  let dec := wideToString wide
  match language with
  | .go | .python => dec
  | .typeScript => if 53 < typeInfo.bitLength then dec ++ ['n'] else dec
  | .rust =>
      if wide = -2 ^ 63 then "i64::MIN".toList
      else if 2 ^ 63 - 1 < wide then dec ++ "u64".toList
      else dec
  | .c | .cpp =>
      if wide = -2 ^ 63 then "(-9223372036854775807LL - 1)".toList
      else if 2 ^ 63 - 1 < wide then dec ++ "ULL".toList
      else dec

def quoteStringLiteral (value : List Char) : List Char :=
  '"' :: value.flatMap (fun c => if c = '\\' ∨ c = '"' then ['\\', c] else [c]) ++ ['"']

def quoteCharLiteral (value : Char) : List Char :=
  if value = '\\' ∨ value = '\'' then ['\'', '\\', value, '\''] else ['\'', value, '\'']

/-- A TypeScript `number` is already floating. -/
def renderIntegerValuedFloat (language : Language) (wide : ℤ) : List Char :=
  match language with
  | .typeScript => wideToString wide
  | _ => wideToString wide ++ ['.', '0']

def renderFraction (language : Language) (num den : List Char) : List Char :=
  match language with
  | .c | .cpp => "((double)".toList ++ num ++ "/(double)".toList ++ den ++ [')']
  | .rust => ['('] ++ num ++ "f64 / ".toList ++ den ++ "f64)".toList
  | .go | .typeScript | .python => ['('] ++ num ++ " / ".toList ++ den ++ [')']

/-- Renders a semantic constant value as source code for one language. No constant
holds a value that `Value::str` renders. -/
def renderConstantLiteral (str : Value → List Char) (language : Language) (value : Value)
    (typeInfo : ConstantTypeInfo) : List Char :=
  match value with
  | .boolean booleanValue =>
      match language with
      | .python => if booleanValue then "True".toList else "False".toList
      | _ => if booleanValue then "true".toList else "false".toList
  | .rational rationalValue =>
      match rationalValue.asWideInteger with
      | some wide =>
          if typeInfo.numericClass = .float then renderIntegerValuedFloat language wide
          else renderIntegerConstant language wide typeInfo
      | none =>
          renderFraction language (wideToString rationalValue.numerator)
            (wideToString rationalValue.denominator)
  | .string stringValue =>
      match language, stringValue.toList with
      | .c, [c] | .cpp, [c] =>
          if c.val ≤ 127 then quoteCharLiteral c else quoteStringLiteral [c]
      | _, text => quoteStringLiteral text
  | other => str other

end LlvmDsdl.CodeGen
