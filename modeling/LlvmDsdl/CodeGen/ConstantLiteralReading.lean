import LlvmDsdl.CodeGen.ConstantLiteralRender
import LlvmDsdl.Frontend.Parser
import LlvmDsdl.Semantics.TypeAnalysis

/-!
Contract: how the target languages read the text of a constant.

Owns: the tokens, the constant expressions and their typed values in each
language, restricted to the forms a rendered constant takes, and the constants
analysis accepts.
-/

namespace LlvmDsdl.CodeGen

open LlvmDsdl.Frontend (TypeExprAST PrimitiveTypeExprAST decimal validateBitLength)
open LlvmDsdl.Support (Rational Language)
open LlvmDsdl.Semantics (Value constantError)

inductive LiteralToken where
  /-- Digits, the digits after a point, and the letters that follow. -/
  | number (whole : List Char) (fraction : Option (List Char)) (suffix : List Char)
  | word (letters : List Char)
  | quoted (quote : Char) (content : List Char)
  | symbol (c : Char)
  deriving DecidableEq

/-- The character may stand for itself between quotes. -/
def standsInLiteral (language : Language) (c : Char) : Bool :=
  match language with
  | .c | .cpp | .typeScript => c ≠ '\n' && c ≠ '\r'
  | .python => c ≠ '\n' && c ≠ '\r' && c.toNat ≠ 0
  | .go => c ≠ '\n' && c.toNat ≠ 0
  | .rust => c ≠ '\r'

/-- The characters up to the closing quote, and the text after it. -/
def quotedContent (language : Language) (quote : Char) :
    List Char → Option (List Char × List Char)
  | [] => none
  | c :: rest =>
      if c = quote then some ([], rest)
      else if c = '\\' then
        match rest with
        | [] => none
        | escaped :: after =>
            if escaped = '\\' ∨ escaped = quote then
              (quotedContent language quote after).map fun read => (escaped :: read.1, read.2)
            else none
      else if standsInLiteral language c = true then
        (quotedContent language quote rest).map fun read => (c :: read.1, read.2)
      else none

def isWordPart (c : Char) : Bool :=
  c.isAlphanum || c == '_'

/-- The rest of a number after its first digits. -/
def numberTail (whole : List Char) : List Char → LiteralToken × List Char
  | '.' :: digit :: more =>
      if digit.isDigit then
        let after := (digit :: more).dropWhile Char.isDigit
        (.number whole (some ((digit :: more).takeWhile Char.isDigit)) (after.takeWhile isWordPart),
          after.dropWhile isWordPart)
      else (.number whole none [], '.' :: digit :: more)
  | tail => (.number whole none (tail.takeWhile isWordPart), tail.dropWhile isWordPart)

/-- The first token of a text, and the text after it. A blank is a symbol. -/
def nextToken (language : Language) : List Char → Option (LiteralToken × List Char)
  | [] => none
  | c :: rest =>
      if c = '"' ∨ c = '\'' then
        (quotedContent language c rest).map fun read => (.quoted c read.1, read.2)
      else if c.isDigit then
        some (numberTail ((c :: rest).takeWhile Char.isDigit) ((c :: rest).dropWhile Char.isDigit))
      else if isWordPart c then
        some (.word ((c :: rest).takeWhile isWordPart), (c :: rest).dropWhile isWordPart)
      else if c ∈ ['(', ')', '-', '/', ':', ' '] then some (.symbol c, rest)
      else none

def tokens (language : Language) (text : List Char) : Option (List LiteralToken) :=
  if text = [] then some []
  else
    match nextToken language text with
    | none => none
    | some (token, rest) =>
        if rest.length < text.length then (tokens language rest).map (token :: ·) else none
  termination_by text.length

inductive ConstantExpr where
  | number (whole : List Char) (fraction : Option (List Char)) (suffix : List Char)
  | named (path : List (List Char))
  | quoted (quote : Char) (content : List Char)
  | negate (operand : ConstantExpr)
  | divide (left right : ConstantExpr)
  | subtract (left right : ConstantExpr)
  /-- The cast `(double)` of C. -/
  | double (operand : ConstantExpr)
  deriving DecidableEq

abbrev Parsed := Option (ConstantExpr × List LiteralToken)

def isCast (language : Language) (letters : List Char) : Bool :=
  language.isCLike && letters = "double".toList

/-- The operand without operators of its own. -/
def parseAtom : List LiteralToken → Parsed
  | .number whole fraction suffix :: rest => some (.number whole fraction suffix, rest)
  | .quoted quote content :: rest => some (.quoted quote content, rest)
  | .word first :: .symbol ':' :: .symbol ':' :: .word second :: rest =>
      some (.named [first, second], rest)
  | .word letters :: rest => some (.named [letters], rest)
  | _ => none

mutual

def parseSum (language : Language) : ℕ → List LiteralToken → Parsed
  | 0, _ => none
  | fuel + 1, toks =>
      match parseProduct language fuel toks with
      | none => none
      | some (left, rest) => parseSumTail language fuel left rest

def parseSumTail (language : Language) : ℕ → ConstantExpr → List LiteralToken → Parsed
  | 0, _, _ => none
  | fuel + 1, left, .symbol '-' :: toks =>
      match parseProduct language fuel toks with
      | none => none
      | some (right, rest) => parseSumTail language fuel (.subtract left right) rest
  | _ + 1, left, toks => some (left, toks)

def parseProduct (language : Language) : ℕ → List LiteralToken → Parsed
  | 0, _ => none
  | fuel + 1, toks =>
      match parseOperand language fuel toks with
      | none => none
      | some (left, rest) => parseProductTail language fuel left rest

def parseProductTail (language : Language) : ℕ → ConstantExpr → List LiteralToken → Parsed
  | 0, _, _ => none
  | fuel + 1, left, .symbol '/' :: toks =>
      match parseOperand language fuel toks with
      | none => none
      | some (right, rest) => parseProductTail language fuel (.divide left right) rest
  | _ + 1, left, toks => some (left, toks)

/-- Signs and casts bind tighter than the operators between two operands. -/
def parseOperand (language : Language) : ℕ → List LiteralToken → Parsed
  | 0, _ => none
  | fuel + 1, .symbol '-' :: toks =>
      (parseOperand language fuel toks).map fun read => (.negate read.1, read.2)
  | fuel + 1, .symbol '(' :: toks =>
      match toks with
      | .word letters :: .symbol ')' :: rest =>
          if isCast language letters then
            (parseOperand language fuel rest).map fun read => (.double read.1, read.2)
          else some (.named [letters], rest)
      | _ =>
          match parseSum language fuel toks with
          | some (inner, .symbol ')' :: rest) => some (inner, rest)
          | _ => none
  | _ + 1, toks => parseAtom toks

end

/-- The expression the whole text spells. -/
def parseConstant (language : Language) (text : List Char) : Option ConstantExpr :=
  match tokens language text with
  | none => none
  | some toks =>
      let words := toks.filter (· ≠ .symbol ' ')
      match parseSum language (5 * words.length + 5) words with
      | some (tree, []) => some tree
      | _ => none

inductive IntegerType where
  | signed (bits : ℕ)
  | unsigned (bits : ℕ)
  | unbounded
  deriving DecidableEq, Repr

def IntegerType.holds (type : IntegerType) (value : ℤ) : Bool :=
  match type with
  | .signed bits => -2 ^ (bits - 1) ≤ value && value < 2 ^ (bits - 1)
  | .unsigned bits => 0 ≤ value && value < 2 ^ bits
  | .unbounded => true

inductive Typed where
  | boolean (value : Bool)
  | integer (type : IntegerType) (value : ℤ)
  /-- A floating value, taken exactly. -/
  | float (value : ℚ)
  | text (content : List Char)
  deriving DecidableEq

/-- A result of its type; C takes an unsigned one modulo its range. -/
def settle (language : Language) (type : IntegerType) (value : ℤ) : Option Typed :=
  if type.holds value then some (.integer type value)
  else
    match type with
    | .unsigned bits =>
        if language.isCLike then some (.integer type (value % 2 ^ bits)) else none
    | _ => none

/-- A literal that its type does not hold is none. -/
def literalOf (type : IntegerType) (value : ℤ) : Option Typed :=
  if type.holds value then some (.integer type value) else none

/-- The integer type Rust infers from the declared type of the constant. -/
def expectedType (typeInfo : ConstantTypeInfo) : IntegerType :=
  match typeInfo.numericClass with
  | .unsignedInt => .unsigned 64
  | _ => .signed 64

/-- The type a suffix gives a literal, in C the first of its types that holds it. -/
def literalValue (language : Language) (typeInfo : ConstantTypeInfo) (value : ℕ)
    (suffix : List Char) : Option Typed :=
  match language with
  | .c | .cpp =>
      if suffix = [] then
        if (IntegerType.signed 32).holds value then some (.integer (.signed 32) value)
        else literalOf (.signed 64) value
      else if suffix = ['L', 'L'] then literalOf (.signed 64) value
      else if suffix = ['U', 'L', 'L'] then literalOf (.unsigned 64) value
      else none
  | .rust =>
      if suffix = [] then literalOf (expectedType typeInfo) value
      else if suffix = ['u', '6', '4'] then literalOf (.unsigned 64) value
      else if suffix = ['f', '6', '4'] then some (.float value)
      else none
  | .go | .python => if suffix = [] then some (.integer .unbounded value) else none
  | .typeScript =>
      if suffix = [] then some (.float value)
      else if suffix = ['n'] then some (.integer .unbounded value)
      else none

/-- A decimal literal; more digits after a zero are not decimal in every language. -/
def wholeValue (language : Language) (typeInfo : ConstantTypeInfo) (whole suffix : List Char) :
    Option Typed :=
  if whole.head? = some '0' ∧ 1 < whole.length then none
  else literalValue language typeInfo (Nat.ofDigitChars 10 whole 0) suffix

def numberValue (language : Language) (typeInfo : ConstantTypeInfo) (whole : List Char)
    (fraction : Option (List Char)) (suffix : List Char) : Option Typed :=
  match fraction with
  | none => wholeValue language typeInfo whole suffix
  | some digits =>
      if suffix = [] then
        some (.float (Nat.ofDigitChars 10 whole 0 +
          Nat.ofDigitChars 10 digits 0 / 10 ^ digits.length))
      else none

def namedValue (language : Language) (path : List (List Char)) : Option Typed :=
  if path = [(if language = .python then "True" else "true").toList] then some (.boolean true)
  else if path = [(if language = .python then "False" else "false").toList] then
    some (.boolean false)
  else if language = .rust ∧ path = ["i64".toList, "MIN".toList] then
    some (.integer (.signed 64) (-2 ^ 63))
  else none

/-- Single quotes make a character of C, and a string of TypeScript and Python. -/
def quotedValue (language : Language) (quote : Char) (content : List Char) : Option Typed :=
  if quote = '"' then some (.text content)
  else if language.isCLike then
    match content with
    | [c] => if c.toNat ≤ 127 then some (.integer (.signed 32) c.toNat) else none
    | _ => none
  else if language = .typeScript ∨ language = .python then some (.text content)
  else none

def negateValue (language : Language) : Typed → Option Typed
  | .integer (.unsigned bits) value =>
      if language = .rust then none else settle language (.unsigned bits) (-value)
  | .integer type value => settle language type (-value)
  | .float value => some (.float (-value))
  | _ => none

def commonType : IntegerType → IntegerType → Option IntegerType
  | .signed left, .signed right => some (.signed (max left right))
  | left, right => if left = right then some left else none

/-- Integers divide to the integer toward zero, in Python to a fraction. -/
def divideValues (language : Language) : Typed → Typed → Option Typed
  | .integer left dividend, .integer right divisor =>
      if divisor = 0 then none
      else if language = .python then some (.float (dividend / divisor))
      else
        match commonType left right with
        | none => none
        | some type => settle language type (dividend.tdiv divisor)
  | .float dividend, .float divisor =>
      if divisor = 0 then none else some (.float (dividend / divisor))
  | _, _ => none

def subtractValues (language : Language) : Typed → Typed → Option Typed
  | .integer left first, .integer right second =>
      match commonType left right with
      | none => none
      | some type => settle language type (first - second)
  | .float first, .float second => some (.float (first - second))
  | _, _ => none

def doubleValue : Typed → Option Typed
  | .integer _ value => some (.float value)
  | .float value => some (.float value)
  | _ => none

/-- The value of an expression where a constant of the type is declared. -/
def valueOf (language : Language) (typeInfo : ConstantTypeInfo) : ConstantExpr → Option Typed
  | .number whole fraction suffix => numberValue language typeInfo whole fraction suffix
  | .named path => namedValue language path
  | .quoted quote content => quotedValue language quote content
  | .negate operand => (valueOf language typeInfo operand).bind (negateValue language)
  | .divide left right =>
      (valueOf language typeInfo left).bind fun dividend =>
        (valueOf language typeInfo right).bind (divideValues language dividend)
  | .subtract left right =>
      (valueOf language typeInfo left).bind fun first =>
        (valueOf language typeInfo right).bind (subtractValues language first)
  | .double operand => (valueOf language typeInfo operand).bind doubleValue

/-- What a text says in the place of a constant of the type. -/
def meaning (language : Language) (typeInfo : ConstantTypeInfo) (text : List Char) :
    Option Typed :=
  (parseConstant language text).bind (valueOf language typeInfo)

def WidthAccepted (prim : PrimitiveTypeExprAST) : Prop :=
  match prim.kind with
  | .signedInt => validateBitLength .signedInteger prim.bitLength = none
  | .unsignedInt => validateBitLength .unsignedInteger prim.bitLength = none
  | .float => validateBitLength .float prim.bitLength = none
  | _ => True

structure AcceptedConstant (type : TypeExprAST) (value : Value) : Prop where
  parsed : ∀ prim, type.scalar = .primitive prim → WidthAccepted prim
  compatible : constantError type value = none

/-- The typed value is the integer, which TypeScript holds in a `number` up to 53 bits. -/
def IsInteger (language : Language) (typeInfo : ConstantTypeInfo) (value : ℤ) (typed : Typed) :
    Prop :=
  if language = .typeScript ∧ typeInfo.bitLength ≤ 53 then typed = .float value
  else ∃ type, (language = .rust → type = expectedType typeInfo) ∧ typed = .integer type value

/-- The typed value is the constant's, a character being its code. -/
def IsValue (language : Language) (typeInfo : ConstantTypeInfo) (value : Value) (typed : Typed) :
    Prop :=
  match value with
  | .boolean value => typed = .boolean value
  | .rational value =>
      if typeInfo.numericClass = .float then typed = .float value.toRat
      else IsInteger language typeInfo value.numerator typed
  | .string text => ∃ c, text.toList = [c] ∧ IsInteger language typeInfo c.toNat typed
  | _ => False

/-- The typed value is the constant's, a character being a string outside C and C++. -/
def IsRendered (language : Language) (typeInfo : ConstantTypeInfo) (value : Value)
    (typed : Typed) : Prop :=
  match value with
  | .string text =>
      if language.isCLike then IsValue language typeInfo value typed
      else typed = .text text.toList
  | _ => IsValue language typeInfo value typed

def SameValue : Value → Value → Prop
  | .boolean first, .boolean second => first = second
  | .rational first, .rational second => first.toRat = second.toRat
  | .string first, .string second => first = second
  | _, _ => False

end LlvmDsdl.CodeGen
