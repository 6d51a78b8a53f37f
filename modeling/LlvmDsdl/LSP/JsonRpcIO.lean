import LlvmDsdl.Library.Framing
import LlvmDsdl.Library.Transition
import Mathlib.Data.List.DropRight
import Mathlib.Data.Nat.Digits.Defs

/-!
Contract: `Content-Length` framed JSON-RPC over byte streams.

Owns: the reader of a header block with its bounds, one read of a message, and
what one write puts on the stream. The JSON library is a parameter.
-/

namespace LlvmDsdl.LSP

open Library

def bytesOf (text : String) : List UInt8 :=
  text.toList.map fun character => UInt8.ofNat character.toNat

def lineFeed : UInt8 := 10

def carriageReturn : UInt8 := 13

/-- What `trim` removes: blank, `\t`, `\n`, `\v`, `\f` and `\r`. -/
def isTrimmed (byte : UInt8) : Bool :=
  byte == 32 || (9 ≤ byte && byte ≤ 13)

def trim (text : List UInt8) : List UInt8 :=
  (text.dropWhile isTrimmed).rdropWhile isTrimmed

def isDigit (byte : UInt8) : Bool :=
  48 ≤ byte && byte ≤ 57

/-- The largest `std::size_t`. -/
def sizeMax : ℕ := 2 ^ 64 - 1

def contentLengthPrefix : List UInt8 := bytesOf "Content-Length:"

/-- The digit loop; it stops at the first digit that would overflow. -/
def parseLengthDigits (value : ℕ) : List UInt8 → Option ℕ
  | [] => some value
  | byte :: rest =>
      if isDigit byte then
        let digit := byte.toNat - 48
        if (sizeMax - digit) / 10 < value then some sizeMax
        else parseLengthDigits (value * 10 + digit) rest
      else none

def parseContentLengthHeader (line : List UInt8) : Option ℕ :=
  if contentLengthPrefix.isPrefixOf line then
    let header := trim (line.drop contentLengthPrefix.length)
    if header = [] then none else parseLengthDigits 0 header
  else none

def maxHeaderLineBytes : ℕ := 8 * 1024

def maxHeaderBytes : ℕ := 64 * 1024

/-- A line without the `\r` that its terminator may begin with. -/
def stripReturn (line : List UInt8) : List UInt8 :=
  if line.getLast? = some carriageReturn then line.dropLast else line

/-- The reader between two bytes: the line buffered so far and what earlier lines said. -/
structure HeaderReader where
  line : List UInt8 := []
  headerBytesTotal : ℕ := 0
  hasHeaders : Bool := false
  contentLength : ℕ := 0
deriving DecidableEq, Repr

/-- Why the reader stops taking bytes. -/
inductive HeaderEnd where
  | lineTooLong
  | sectionTooLong
  /-- The empty line has been read. -/
  | block (reader : HeaderReader)
  /-- The stream ended first. -/
  | streamEnd (reader : HeaderReader)
deriving DecidableEq, Repr

namespace HeaderReader

/-- A terminated line: counted against the section, then interpreted. -/
def acceptLine (reader : HeaderReader) : HeaderReader ⊕ HeaderEnd :=
  let line := stripReturn reader.line
  let headerBytesTotal := reader.headerBytesTotal + (line.length + 2)
  if maxHeaderBytes < headerBytesTotal then .inr .sectionTooLong
  else if line = [] then
    .inr (.block { reader with line := line, headerBytesTotal := headerBytesTotal })
  else
    .inl
      { line := []
        headerBytesTotal := headerBytesTotal
        hasHeaders := true
        contentLength := (parseContentLengthHeader line).getD reader.contentLength }

/-- One byte of `readBoundedHeaderLine`, and the body of the loop over lines at its end. -/
def get (reader : HeaderReader) (byte : UInt8) : HeaderReader ⊕ HeaderEnd :=
  if byte = lineFeed then reader.acceptLine
  else if maxHeaderLineBytes ≤ reader.line.length then .inr .lineTooLong
  else .inl { reader with line := reader.line ++ [byte] }

/-- The loop over header lines: why it stopped, and the bytes it left. -/
def run (reader : HeaderReader) : List UInt8 → HeaderEnd × List UInt8
  | [] => (.streamEnd reader, [])
  | byte :: rest =>
      match reader.get byte with
      | .inl next => next.run rest
      | .inr stop => (stop, rest)

end HeaderReader

/-- What the transport uses of the JSON library; a failed parse answers its error text. -/
structure JsonLibrary (Json : Type) where
  parse : List UInt8 → Except String Json
  print : Json → List UInt8

/-- An input stream, which answers end of stream for ever once it has done so. -/
structure InputStream where
  bytes : List UInt8
  failed : Bool := false
deriving DecidableEq, Repr

/-- A transport; the longest string is a constant of the standard library. -/
structure Transport (Json : Type) where
  json : JsonLibrary Json
  maxContentLength : ℕ
  maxStringLength : ℕ
  maxContentLength_fits : maxContentLength ≤ sizeMax

/-- What one call of `readMessage` reports. -/
inductive ReadOutcome (Json : Type) where
  | message (value : Json)
  | recoverable (error : String)
  /-- Returned false, with the error text when it set one. -/
  | fatal (error : Option String)
  /-- The payload string cannot be constructed. -/
  | lengthError
deriving DecidableEq, Repr

/-- A message, or an error after which the caller keeps serving. -/
def ReadOutcome.InStep {Json : Type} : ReadOutcome Json → Prop
  | .message _ => True
  | .recoverable _ => True
  | .fatal _ => False
  | .lengthError => False

variable {Json : Type}

namespace Transport

/-- A complete payload. -/
def decode (transport : Transport Json) (payload : List UInt8) : ReadOutcome Json :=
  match transport.json.parse payload with
  | .ok value => .message value
  | .error text => .recoverable ("invalid JSON payload: " ++ text)

/-- The part of `readMessage` after the loop over header lines. -/
def readPayload (transport : Transport Json) (reader : HeaderReader) (stream : InputStream) :
    ReadOutcome Json × InputStream :=
  if reader.hasHeaders = false then (.fatal none, stream)
  else if reader.contentLength = 0 then (.fatal (some "missing Content-Length header"), stream)
  else if transport.maxContentLength < reader.contentLength then
    (.fatal (some "Content-Length exceeds maximum"), stream)
  else if transport.maxStringLength < reader.contentLength then (.lengthError, stream)
  else if stream.failed || stream.bytes.length < reader.contentLength then
    (.fatal (some "truncated JSON-RPC payload"), { bytes := [], failed := true })
  else
    (transport.decode (stream.bytes.take reader.contentLength),
      { stream with bytes := stream.bytes.drop reader.contentLength })

def readMessage (transport : Transport Json) (stream : InputStream) :
    ReadOutcome Json × InputStream :=
  match HeaderReader.run {} (if stream.failed then [] else stream.bytes) with
  | (.lineTooLong, rest) =>
      (.fatal (some "JSON-RPC header line exceeds maximum"), { bytes := rest })
  | (.sectionTooLong, rest) =>
      (.fatal (some "JSON-RPC header section exceeds maximum"), { bytes := rest })
  | (.block reader, rest) => transport.readPayload reader { bytes := rest }
  | (.streamEnd reader, rest) =>
      transport.readPayload reader { bytes := rest, failed := true }

/-- The decimal digits of a length, as the stream prints it. -/
def printLength (length : ℕ) : List UInt8 :=
  bytesOf (toString length)

def writeMessage (transport : Transport Json) (message : Json) : List UInt8 :=
  let payload := transport.json.print message
  bytesOf "Content-Length: " ++ printLength payload.length ++ bytesOf "\r\n\r\n" ++ payload

end Transport

end LlvmDsdl.LSP
