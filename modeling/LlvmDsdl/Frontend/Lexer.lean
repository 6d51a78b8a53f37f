import LlvmDsdl.Frontend.Ast
import LlvmDsdl.Frontend.NumericLiteral

/-!
Contract: the tokens of a source text (`Frontend/Lexer.cpp`).

Owns: token kinds, tokens, the reading position, one token's reading for every class
of tokens, and the loop over a text.

A text is a list of bytes, a byte the character of its code. Lines and columns are
counted in 32 bits and wrap.
-/

namespace LlvmDsdl.Frontend

inductive TokenKind where
  | eof
  | newline
  | comment
  | identifier
  | integer
  | real
  | string
  | trueKeyword
  | falseKeyword
  | at_
  | serviceResponseMarker
  | lParen
  | rParen
  | lBracket
  | rBracket
  | lBrace
  | rBrace
  | comma
  | dot
  | equal
  | plus
  | minus
  | star
  | slash
  | percent
  | pipe
  | caret
  | amp
  | bang
  | less
  | greater
  | lessEqual
  | greaterEqual
  | equalEqual
  | bangEqual
  | pipePipe
  | ampAmp
  | starStar
  deriving DecidableEq

/-- The length of a text in 32 bits. -/
def columns (text : List Char) : UInt32 :=
  .ofNat text.length

structure Token where
  kind : TokenKind
  text : String
  location : SourceLocation
  deriving DecidableEq

structure LexerError where
  location : SourceLocation
  message : String
  deriving DecidableEq

structure LexerCursor where
  rest : List Char
  line : UInt32
  column : UInt32
  deriving DecidableEq

namespace LexerCursor

def endMark : Char := Char.ofNat 0

def peek (cursor : LexerCursor) (lookahead : ℕ) : Char :=
  cursor.rest.getD lookahead endMark

def advance (cursor : LexerCursor) : LexerCursor :=
  match cursor.rest with
  | [] => cursor
  | c :: rest =>
      if c = '\n' then ⟨rest, cursor.line + 1, 1⟩ else ⟨rest, cursor.line, cursor.column + 1⟩

/-- `advance` as often as said. -/
def skip (cursor : LexerCursor) : ℕ → LexerCursor
  | 0 => cursor
  | count + 1 => cursor.advance.skip count

/-- What a loop reads while its condition holds of the next byte. -/
def readWhile (condition : Char → Bool) (cursor : LexerCursor) : List Char × LexerCursor :=
  let text := cursor.rest.takeWhile condition
  (text, cursor.skip text.length)

end LexerCursor

/-- What one iteration of `lex` emits, records and leaves. -/
structure LexStep where
  tokens : List Token
  errors : List LexerError
  next : LexerCursor
  deriving DecidableEq

section Lexing

variable (file : String)

def tokenAt (start : LexerCursor) (kind : TokenKind) (text : List Char) : Token :=
  ⟨kind, .ofList text, ⟨file, start.line, start.column⟩⟩

def errorAt (start : LexerCursor) (message : String) : LexerError :=
  ⟨⟨file, start.line, start.column⟩, message⟩

def isIdentifierCharacter (c : Char) : Bool :=
  c.isAlphanum || c = '_'

def identifierKind (text : List Char) : TokenKind :=
  if text = "true".toList then .trueKeyword
  else if text = "false".toList then .falseKeyword
  else .identifier

def lexIdentifierOrKeyword (start : LexerCursor) : LexStep :=
  let read := start.readWhile isIdentifierCharacter
  ⟨[tokenAt file start (identifierKind read.1) read.1], [], read.2⟩

def isBaseMark (c : Char) : Bool :=
  ['x', 'X', 'b', 'B', 'o', 'O'].contains c

def isDigitOrUnderscore (c : Char) : Bool :=
  c.isDigit || c = '_'

def lexPrefixedInteger (start : LexerCursor) : LexStep :=
  let read := (start.skip 2).readWhile isIdentifierCharacter
  let text := start.rest.take 2 ++ read.1
  ⟨[tokenAt file start .integer text],
    if numericLiteralConforms text false then []
    else [errorAt file start ("malformed integer literal '" ++ .ofList text ++ "'")],
    read.2⟩

/-- The fraction of a number: a point with a digit after it, or a point before an exponent. -/
def readFraction (cursor : LexerCursor) : List Char × LexerCursor :=
  if cursor.peek 0 = '.' ∧ (cursor.peek 1).isDigit then
    let read := cursor.advance.readWhile isDigitOrUnderscore
    ('.' :: read.1, read.2)
  else if cursor.peek 0 = '.' ∧ isExponentMark (cursor.peek 1) then (['.'], cursor.advance)
  else ([], cursor)

def readExponent (cursor : LexerCursor) : List Char × LexerCursor :=
  if isExponentMark (cursor.peek 0) then
    let mark := cursor.peek 0
    let signed := cursor.advance
    if signed.peek 0 = '+' ∨ signed.peek 0 = '-' then
      let read := signed.advance.readWhile isDigitOrUnderscore
      (mark :: signed.peek 0 :: read.1, read.2)
    else
      let read := signed.readWhile isDigitOrUnderscore
      (mark :: read.1, read.2)
  else ([], cursor)

/-- The token before is a point that ends where the number starts. -/
def precededByDot (last : Option Token) (start : LexerCursor) : Bool :=
  last.any fun token => token.kind = .dot && token.location.line = start.line &&
    token.location.column + 1 = start.column

def lexNumber (last : Option Token) (start : LexerCursor) : LexStep :=
  if start.peek 0 = '0' ∧ isBaseMark (start.peek 1) then lexPrefixedInteger file start
  else
    let whole := start.readWhile isDigitOrUnderscore
    let fraction := readFraction whole.2
    let exponent := readExponent fraction.2
    let text := whole.1 ++ fraction.1 ++ exponent.1
    let real := !fraction.1.isEmpty || !exponent.1.isEmpty
    -- a run of digits beside a point is part of a real literal, which may start with zeros
    let conforms :=
      if real then numericLiteralConforms text true
      else if precededByDot last start || exponent.2.peek 0 = '.' then
        numericLiteralConforms ('.' :: text) true
      else numericLiteralConforms text false
    ⟨[tokenAt file start (if real then .real else .integer) text],
      if conforms then []
      else [errorAt file start ("malformed " ++ (if real then "real" else "integer") ++
        " literal '" ++ .ofList text ++ "'")],
      exponent.2⟩

def singleQuote : Char := Char.ofNat 39

def doubleQuote : Char := Char.ofNat 34

def backslash : Char := Char.ofNat 92

/-- `appendUtf8`: the bytes of a code point. -/
def utf8Bytes (codePoint : ℕ) : List Char :=
  if codePoint ≤ 0x7F then [Char.ofNat codePoint]
  else if codePoint ≤ 0x7FF then
    [Char.ofNat (0xC0 ||| codePoint >>> 6), Char.ofNat (0x80 ||| codePoint &&& 0x3F)]
  else if codePoint ≤ 0xFFFF then
    [Char.ofNat (0xE0 ||| codePoint >>> 12), Char.ofNat (0x80 ||| codePoint >>> 6 &&& 0x3F),
      Char.ofNat (0x80 ||| codePoint &&& 0x3F)]
  else
    [Char.ofNat (0xF0 ||| codePoint >>> 18), Char.ofNat (0x80 ||| codePoint >>> 12 &&& 0x3F),
      Char.ofNat (0x80 ||| codePoint >>> 6 &&& 0x3F), Char.ofNat (0x80 ||| codePoint &&& 0x3F)]

/-- `decodeUnicodeEscape`: what it appends, the errors, and where it stops. -/
def decodeUnicodeEscape (start : LexerCursor) :
    ℕ → ℕ → LexerCursor → List Char × List LexerError × LexerCursor
  | 0, codePoint, cursor =>
      if 0x10FFFF < codePoint ∨ (0xD800 ≤ codePoint ∧ codePoint ≤ 0xDFFF) then
        ([], [errorAt file start "invalid unicode code point in string literal"], cursor)
      else (utf8Bytes codePoint, [], cursor)
  | digits + 1, codePoint, cursor =>
      match digitValue (cursor.peek 0) with
      | none =>
          ([], [errorAt file start "incomplete unicode escape sequence in string literal"], cursor)
      | some nibble => decodeUnicodeEscape start digits (codePoint * 16 + nibble) cursor.advance

/-- An escape sequence after its backslash, which stood at `start`. -/
def lexEscape (start cursor : LexerCursor) : List Char × List LexerError × LexerCursor :=
  let esc := cursor.peek 0
  let after := cursor.advance
  if esc = 'n' then (['\n'], [], after)
  else if esc = 'r' then ([Char.ofNat 13], [], after)
  else if esc = 't' then ([Char.ofNat 9], [], after)
  else if esc = backslash ∨ esc = singleQuote ∨ esc = doubleQuote then ([esc], [], after)
  else if esc = 'u' then decodeUnicodeEscape file start 4 0 after
  else if esc = 'U' then decodeUnicodeEscape file start 8 0 after
  else
    ([esc], [errorAt file start ("invalid escape sequence '" ++ .ofList [backslash, esc] ++
      "' in string literal")], after)

/-- The content of a string up to its quote, the end, or a broken escape. -/
def lexStringContent (quote : Char) :
    ℕ → LexerCursor → List Char × List LexerError × LexerCursor
  | 0, cursor => ([], [], cursor)
  | fuel + 1, cursor =>
      match cursor.rest with
      | [] => ([], [], cursor)
      | c :: rest =>
          if c = quote then ([], [], cursor)
          else if c ≠ backslash then
            let content := lexStringContent quote fuel cursor.advance
            (c :: content.1, content.2.1, content.2.2)
          else
            match rest with
            | [] =>
                ([], [errorAt file cursor "unterminated escape sequence in string literal"],
                  cursor.advance)
            | next :: _ =>
                if next = '\n' ∨ next = Char.ofNat 13 then
                  ([], [errorAt file cursor "unterminated escape sequence in string literal"],
                    cursor.advance)
                else
                  let escape := lexEscape file cursor cursor.advance
                  let content := lexStringContent quote fuel escape.2.2
                  (escape.1 ++ content.1, escape.2.1 ++ content.2.1, content.2.2)

def lexString (quote : Char) (start : LexerCursor) : LexStep :=
  let content := lexStringContent file quote start.rest.length start.advance
  let token := tokenAt file start .string content.1
  match content.2.2.rest with
  | c :: _ =>
      if c = quote then ⟨[token], content.2.1, content.2.2.advance⟩
      else ⟨[token], content.2.1 ++ [errorAt file start "unterminated string literal"],
        content.2.2⟩
  | [] => ⟨[token], content.2.1 ++ [errorAt file start "unterminated string literal"],
      content.2.2⟩

/-- The operators of two characters. -/
def pairKind (c next : Char) : Option TokenKind :=
  match c, next with
  | '<', '=' => some .lessEqual
  | '>', '=' => some .greaterEqual
  | '=', '=' => some .equalEqual
  | '!', '=' => some .bangEqual
  | '|', '|' => some .pipePipe
  | '&', '&' => some .ampAmp
  | '*', '*' => some .starStar
  | _, _ => none

/-- The operators and brackets of one character. -/
def singleKind (c : Char) : Option TokenKind :=
  match c with
  | '@' => some .at_
  | '(' => some .lParen
  | ')' => some .rParen
  | '[' => some .lBracket
  | ']' => some .rBracket
  | '{' => some .lBrace
  | '}' => some .rBrace
  | ',' => some .comma
  | '.' => some .dot
  | '=' => some .equal
  | '+' => some .plus
  | '-' => some .minus
  | '*' => some .star
  | '/' => some .slash
  | '%' => some .percent
  | '|' => some .pipe
  | '^' => some .caret
  | '&' => some .amp
  | '!' => some .bang
  | '<' => some .less
  | '>' => some .greater
  | _ => none

def hexDigitOf (value : ℕ) : Char :=
  if value < 10 then Char.ofNat (value + '0'.toNat) else Char.ofNat (value - 10 + 'A'.toNat)

def describeByte (c : Char) : String :=
  if 0x20 ≤ c.toNat ∧ c.toNat < 0x7F then .ofList [singleQuote, c, singleQuote]
  else "0x" ++ .ofList [hexDigitOf (c.toNat / 16), hexDigitOf (c.toNat % 16)]

def lexOperator (start : LexerCursor) (c : Char) : LexStep :=
  match pairKind c (start.peek 1) with
  | some kind => ⟨[tokenAt file start kind [c, start.peek 1]], [], start.skip 2⟩
  | none =>
      match singleKind c with
      | some kind => ⟨[tokenAt file start kind [c]], [], start.advance⟩
      | none =>
          ⟨[], [errorAt file start ("unexpected character " ++ describeByte c ++ " in source")],
            start.advance⟩

/-- One iteration of `lex` at a byte, after the last token emitted. -/
def lexAt (last : Option Token) (start : LexerCursor) (c : Char) : LexStep :=
  if c = Char.ofNat 13 then
    if start.peek 1 = '\n' then ⟨[], [], start.advance⟩
    else
      ⟨[], [errorAt file start
        "stray carriage return (line endings must be '\\n' or '\\r\\n')"], start.advance⟩
  else if c = '\n' then
    ⟨[tokenAt file start .newline [backslash, 'n']], [], start.advance⟩
  else if c = ' ' ∨ c = Char.ofNat 9 then ⟨[], [], start.advance⟩
  else if c = '#' then
    let read := start.readWhile fun c => c ≠ '\n' ∧ c ≠ Char.ofNat 13
    ⟨[tokenAt file start .comment read.1], [], read.2⟩
  else if c = '-' ∧ start.peek 1 = '-' ∧ start.peek 2 = '-' then
    ⟨[tokenAt file start .serviceResponseMarker "---".toList], [],
      ((start.skip 3).readWhile (· = '-')).2⟩
  else if c.isAlpha ∨ c = '_' then lexIdentifierOrKeyword file start
  else if c.isDigit then lexNumber file last start
  else if c = singleQuote ∨ c = doubleQuote then lexString file c start
  else lexOperator file start c

/-- `lex` from a position; every iteration reads a byte. -/
def lexFrom : ℕ → Option Token → LexerCursor → List Token × List LexerError
  | 0, _, cursor => ([tokenAt file cursor .eof []], [])
  | fuel + 1, last, cursor =>
      match cursor.rest with
      | [] => ([tokenAt file cursor .eof []], [])
      | c :: _ =>
          let step := lexAt file last cursor c
          let lexed := lexFrom fuel (step.tokens.getLast?.or last) step.next
          (step.tokens ++ lexed.1, step.errors ++ lexed.2)

/-- `Lexer::lex` with `Lexer::errors`. -/
def lex (text : String) : List Token × List LexerError :=
  lexFrom file text.toList.length none ⟨text.toList, 1, 1⟩

end Lexing

end LlvmDsdl.Frontend
