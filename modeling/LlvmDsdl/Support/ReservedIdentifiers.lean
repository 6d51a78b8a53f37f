import Mathlib

/-!
Contract: the reserved attribute names (`Support/ReservedIdentifiers.cpp`).

Owns: the exact words and the name patterns, both on the lower-cased name.
-/

namespace LlvmDsdl.Support

def reservedWords : List String :=
  ["truncated", "saturated", "true", "false", "bool", "byte", "utf8", "optional", "aligned",
    "const", "struct", "super", "template", "enum", "self", "and", "or", "not", "auto", "type",
    "con", "prn", "aux", "nul"]

def following (word : String) (name : List Char) : Option (List Char) :=
  if word.toList.isPrefixOf name then some (name.drop word.length) else none

def isNumbered (word : String) (name : List Char) : Bool :=
  (following word name).any fun rest => rest.all Char.isDigit

/-- A word and one digit. -/
def isDevice (word : String) (name : List Char) : Bool :=
  (following word name).any fun rest => rest.length == 1 && rest.all Char.isDigit

/-- `q`, digits, an underscore, digits. -/
def isFixedPoint (name : List Char) : Bool :=
  (following "q" name).any fun rest =>
    let whole := rest.takeWhile Char.isDigit
    match rest.dropWhile Char.isDigit with
    | '_' :: fraction => !whole.isEmpty && !fraction.isEmpty && fraction.all Char.isDigit
    | _ => false

/-- An underscore at either end of a single line. -/
def isIntrinsic (name : List Char) : Bool :=
  2 ≤ name.length && name.head? == some '_' && name.getLast? == some '_' &&
    name.all fun c => c != '\n' && c != '\r'

def isReservedIdentifier (identifier : String) : Bool :=
  let lowered := identifier.toList.map Char.toLower
  reservedWords.any (·.toList == lowered) ||
    isNumbered "uint" lowered || isNumbered "int" lowered || isNumbered "float" lowered ||
    isNumbered "void" lowered || isFixedPoint lowered || isDevice "com" lowered ||
    isDevice "lpt" lowered || isIntrinsic lowered

end LlvmDsdl.Support
