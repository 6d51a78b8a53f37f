import LlvmDsdl.Support.Rational
import LlvmDsdl.Support.IntegerMath

/-!
Contract: the spelling and the value of numeric literals (`Frontend/Lexer.cpp`,
`Frontend/Parser.cpp`).

Owns: the patterns a literal must match, and the values of integer literals, real
literals and version specifiers.

A pattern is the function that decides its language. A text is a list of bytes.
-/

namespace LlvmDsdl.Frontend

open Support Support.IntegerMath

/-- `(?:_?[p])*`. -/
def isRun (p : Char → Bool) : List Char → Bool
  | [] => true
  | '_' :: c :: rest => p c && isRun p rest
  | c :: rest => p c && isRun p rest

/-- `[0-9](?:_?[0-9])*`. -/
def isDigits : List Char → Bool
  | [] => false
  | c :: rest => c.isDigit && isRun Char.isDigit rest

def isOctalDigit (c : Char) : Bool :=
  decide ('0' ≤ c ∧ c ≤ '7')

def isHexDigit (c : Char) : Bool :=
  c.isDigit || decide ('a' ≤ c ∧ c ≤ 'f') || decide ('A' ≤ c ∧ c ≤ 'F')

/-- `(?:_?[p])+`. -/
def isPrefixedRun (p : Char → Bool) (text : List Char) : Bool :=
  !text.isEmpty && isRun p text

/-- `(?:0(?:_?0)*)+|(?:[1-9](?:_?[0-9])*)`. -/
def isDecimal : List Char → Bool
  | [] => false
  | c :: rest =>
      if c = '0' then isRun (· = '0') rest else c.isDigit && isRun Char.isDigit rest

/-- `(?:(?:digits)?\.digits|digits\.)`. -/
def isPoint (text : List Char) : Bool :=
  let whole := text.takeWhile (· ≠ '.')
  match text.dropWhile (· ≠ '.') with
  | [] => false
  | _ :: [] => isDigits whole
  | _ :: fraction => isDigits fraction && (whole.isEmpty || isDigits whole)

def isExponentMark (c : Char) : Bool :=
  c = 'e' || c = 'E'

/-- `[+-]?digits`. -/
def isExponent : List Char → Bool
  | [] => false
  | c :: rest => if c = '+' ∨ c = '-' then isDigits rest else isDigits (c :: rest)

/-- `(?:(?:point|digits)[eE]exponent)|point`. -/
def isReal (text : List Char) : Bool :=
  let mantissa := text.takeWhile fun c => !isExponentMark c
  match text.dropWhile fun c => !isExponentMark c with
  | [] => isPoint text
  | _ :: exponent => (isPoint mantissa || isDigits mantissa) && isExponent exponent

def numericLiteralConforms (text : List Char) (real : Bool) : Bool :=
  if real then isReal text
  else
    match text with
    | '0' :: mark :: rest =>
        if mark = 'b' ∨ mark = 'B' then isPrefixedRun (fun c => c = '0' || c = '1') rest
        else if mark = 'o' ∨ mark = 'O' then isPrefixedRun isOctalDigit rest
        else if mark = 'x' ∨ mark = 'X' then isPrefixedRun isHexDigit rest
        else isDecimal text
    | _ => isDecimal text

def removeUnderscores (text : List Char) : List Char :=
  text.filter (· ≠ '_')

def digitValue (c : Char) : Option ℕ :=
  if '0' ≤ c ∧ c ≤ '9' then some (c.toNat - '0'.toNat)
  else if 'a' ≤ c ∧ c ≤ 'f' then some (10 + (c.toNat - 'a'.toNat))
  else if 'A' ≤ c ∧ c ≤ 'F' then some (10 + (c.toNat - 'A'.toNat))
  else none

/-- The digits of a base, accumulated up to `UINT64_MAX`. -/
def accumulateDigits (base : ℕ) : ℕ → List Char → Option ℕ
  | out, [] => some out
  | out, c :: rest =>
      match digitValue c with
      | none => none
      | some v =>
          if base ≤ v then none
          else if (2 ^ 64 - 1 - v) / base < out then none
          else accumulateDigits base (out * base + v) rest

def splitBase (text : List Char) : ℕ × List Char :=
  match text with
  | '0' :: mark :: c :: rest =>
      if mark = 'x' ∨ mark = 'X' then (16, c :: rest)
      else if mark = 'b' ∨ mark = 'B' then (2, c :: rest)
      else if mark = 'o' ∨ mark = 'O' then (8, c :: rest)
      else (10, text)
  | _ => (10, text)

def parseIntegerLiteral (text : String) : Option ℕ :=
  let split := splitBase (removeUnderscores text.toList)
  accumulateDigits split.1 0 split.2

/-- `isDecimalIntegerLiteral`: the literal has no base prefix. -/
def isDecimalIntegerLiteral (text : String) : Bool :=
  match text.toList with
  | '0' :: mark :: _ => !(['x', 'X', 'b', 'B', 'o', 'O'].contains mark)
  | _ => true

def isDecimalIntegerToken (text : String) : Bool :=
  isDecimal text.toList

/-- A value as an `int` of 32 bits. -/
def toInt (value : ℤ) : ℤ :=
  value.bmod (2 ^ 32)

/-- `pow10i`, which stops at `INT64_MAX`. -/
def pow10iFrom (out : ℤ) : ℕ → ℤ
  | 0 => out
  | n + 1 => if int64Max / 10 < out then int64Max else pow10iFrom (out * 10) n

def pow10i (n : ℤ) : ℤ :=
  pow10iFrom 1 n.toNat

/-- `std::stoi` on an optional sign and digits; what follows them is not read. -/
def stoi (text : List Char) : Option ℤ :=
  let negative := text.head? = some '-'
  let unsigned := if text.head? = some '-' ∨ text.head? = some '+' then text.tail else text
  let digits := unsigned.takeWhile Char.isDigit
  if digits.isEmpty then none
  else
    let magnitude : ℤ := digits.foldl (fun out c => out * 10 + ((c.toNat - '0'.toNat : ℕ) : ℤ)) 0
    let value := if negative then -magnitude else magnitude
    if -2 ^ 31 ≤ value ∧ value < 2 ^ 31 then some value else none

/-- The digits of a significand, accumulated up to `INT64_MAX`. -/
def accumulateSignificand : ℤ → List Char → Option ℤ
  | num, [] => some num
  | num, c :: rest =>
      if !c.isDigit then none
      else
        let v : ℤ := ((c.toNat - '0'.toNat : ℕ) : ℤ)
        if (int64Max - v) / 10 < num then none else accumulateSignificand (num * 10 + v) rest

/-- The significand of a real literal with its digits after the point. -/
def parseSignificand (text : List Char) : Option (ℤ × ℕ) :=
  let fraction := (text.dropWhile (· ≠ '.')).drop 1
  let digits := text.takeWhile (· ≠ '.') ++ fraction
  if digits = [] ∨ digits = ['+'] ∨ digits = ['-'] then none
  else
    let negative := digits.head? = some '-'
    let unsigned :=
      if digits.head? = some '-' ∨ digits.head? = some '+' then digits.tail else digits
    (accumulateSignificand 0 unsigned).map fun num =>
      (if negative then -num else num, fraction.length)

/-- A significand scaled by a power of ten; `none` where a product leaves 64 bits. The count
of digits and the negated exponent are of type `int`. -/
def scaleSignificand (num : ℤ) (fracDigits : ℕ) (exp : ℤ) : Option Rational :=
  let den := pow10i (toInt fracDigits)
  if 0 < exp then
    let p := pow10i exp
    if p = int64Max then none
    else if 0 < num ∧ int64Max / p < num then none
    else if num < 0 ∧ num < (-2 ^ 63 : ℤ).tdiv p then none
    else some (.ofFraction (num * p) den)
  else if exp < 0 then
    let p := pow10i (toInt (-exp))
    if p = int64Max then none
    else if int64Max / p < den then none
    else some (.ofFraction num (den * p))
  else some (.ofFraction num den)

def parseRealLiteral (text : String) : Option Rational :=
  let plain := removeUnderscores text.toList
  let significand := plain.takeWhile fun c => !isExponentMark c
  match plain.dropWhile fun c => !isExponentMark c with
  | [] => (parseSignificand significand).bind fun parts => scaleSignificand parts.1 parts.2 0
  | _ :: exponent =>
      (stoi exponent).bind fun exp =>
        (parseSignificand significand).bind fun parts => scaleSignificand parts.1 parts.2 exp

/-- `parseVersionTokenAsMajorMinor`; both numbers are cut to 32 bits. -/
def parseVersionTokenAsMajorMinor (text : String) : Option (ℕ × ℕ) :=
  let majorText := text.toList.takeWhile (· ≠ '.')
  let minorText := (text.toList.dropWhile (· ≠ '.')).drop 1
  if majorText = [] ∨ minorText = [] ∨ '.' ∈ minorText then none
  else if !isDecimal majorText || !isDecimal minorText then none
  else
    match parseIntegerLiteral (.ofList majorText), parseIntegerLiteral (.ofList minorText) with
    | some major, some minor => some (major % 2 ^ 32, minor % 2 ^ 32)
    | _, _ => none

end LlvmDsdl.Frontend
