import Mathlib
import LlvmDsdl.Support.LanguageTraits

/-!
Contract: how a DSDL name becomes an identifier (`NamingPolicy.cpp`,
`NameCanonicalization.cpp`).

Owns: the keywords, the roles and their policies, the case styles, the names the
generated code claims, the encoding of reserved underscores, and the pipeline.
-/

namespace LlvmDsdl.Support

def cKeywords : List String :=
  ["auto", "break", "case", "char", "const", "continue", "default", "do", "double", "else",
   "enum", "extern", "float", "for", "goto", "if", "inline", "int", "long", "register",
   "restrict", "return", "short", "signed", "sizeof", "static", "struct", "switch", "typedef",
   "union", "unsigned", "void", "volatile", "while", "_Alignas", "_Alignof", "_Atomic", "_Bool",
   "_Complex", "_Generic", "_Imaginary", "_Noreturn", "_Static_assert", "_Thread_local", "true",
   "false"]

def cppKeywords : List String :=
  ["alignas", "alignof", "and", "and_eq", "asm", "atomic_cancel", "atomic_commit",
   "atomic_noexcept", "auto", "bitand", "bitor", "bool", "break", "case", "catch", "char",
   "char8_t", "char16_t", "char32_t", "class", "compl", "concept", "const", "consteval",
   "constexpr", "constinit", "const_cast", "continue", "co_await", "co_return", "co_yield",
   "decltype", "default", "delete", "do", "double", "dynamic_cast", "else", "enum", "explicit",
   "export", "extern", "false", "float", "for", "friend", "goto", "if", "inline", "int", "long",
   "mutable", "namespace", "new", "noexcept", "not", "not_eq", "nullptr", "operator", "or",
   "or_eq", "private", "protected", "public", "register", "reinterpret_cast", "requires",
   "return", "short", "signed", "sizeof", "static", "static_assert", "static_cast", "struct",
   "switch", "template", "this", "thread_local", "throw", "true", "try", "typedef", "typeid",
   "typename", "union", "unsigned", "using", "virtual", "void", "volatile", "wchar_t", "while",
   "xor", "xor_eq"]

def rustKeywords : List String :=
  ["as", "break", "const", "continue", "crate", "else", "enum", "extern", "false", "fn", "for",
   "if", "impl", "in", "let", "loop", "match", "mod", "move", "mut", "pub", "ref", "return",
   "self", "Self", "static", "struct", "super", "trait", "true", "type", "unsafe", "use", "where",
   "while", "async", "await", "dyn", "abstract", "become", "box", "do", "final", "macro",
   "override", "priv", "try", "typeof", "unsized", "virtual", "yield"]

def goKeywords : List String :=
  ["break", "default", "func", "interface", "select", "case", "defer", "go", "map", "struct",
   "chan", "else", "goto", "package", "switch", "const", "fallthrough", "if", "range", "type",
   "continue", "for", "import", "return", "var"]

def tsKeywords : List String :=
  ["break", "case", "catch", "class", "const", "continue", "debugger", "default", "delete", "do",
   "else", "enum", "export", "extends", "false", "finally", "for", "function", "if", "import",
   "in", "instanceof", "new", "null", "return", "super", "switch", "this", "throw", "true", "try",
   "typeof", "var", "void", "while", "with", "as", "implements", "interface", "let", "package",
   "private", "protected", "public", "static", "yield", "any", "boolean", "number", "string",
   "symbol", "type", "from", "of"]

def pyKeywords : List String :=
  ["False", "None", "True", "and", "as", "assert", "async", "await", "break", "class", "continue",
   "def", "del", "elif", "else", "except", "finally", "for", "from", "global", "if", "import",
   "in", "is", "lambda", "nonlocal", "not", "or", "pass", "raise", "return", "try", "while",
   "with", "yield", "match", "case"]

/-- C is escaped against both sets, since its headers are also compiled as C++. -/
def keywordSet : Language → List (List Char)
  | .c => (cKeywords ++ cppKeywords).map String.toList
  | .cpp => cppKeywords.map String.toList
  | .rust => rustKeywords.map String.toList
  | .go => goKeywords.map String.toList
  | .typeScript => tsKeywords.map String.toList
  | .python => pyKeywords.map String.toList

inductive IdentifierRole where
  | typeName
  | fieldName
  | constantName
  | functionName
  | internalFunctionName
  | localName
  | namespaceName
  | fileStem
  | macroName
  deriving DecidableEq, Repr

inductive CaseStyle where
  | preserve
  | snake
  | pascal
  | camel
  | goExported
  | goUnexported
  | goPackage
  deriving DecidableEq, Repr

structure RolePolicy where
  caseStyle : CaseStyle
  /-- Characters no identifier holds, and a leading digit, are escaped. -/
  escape : Bool
  /-- A keyword is escaped. -/
  strop : Bool
  upper : Bool
  deriving DecidableEq, Repr

def RolePolicy.cased (style : CaseStyle) : RolePolicy :=
  { caseStyle := style, escape := true, strop := true, upper := false }

def RolePolicy.upperSnake : RolePolicy :=
  { caseStyle := .snake, escape := true, strop := true, upper := true }

/-- A preprocessor token, never stropped against keywords. -/
def RolePolicy.macroToken : RolePolicy :=
  { caseStyle := .preserve, escape := true, strop := false, upper := true }

/-- A file name taken from the DSDL short name, untouched. -/
def RolePolicy.verbatim : RolePolicy :=
  { caseStyle := .preserve, escape := false, strop := false, upper := false }

def rolePolicy (language : Language) : IdentifierRole → RolePolicy
  | .typeName => if language.isCLike then .cased .preserve else .cased .pascal
  | .internalFunctionName =>
      if language.isCLike then .cased .preserve
      else if language = .go then .cased .goUnexported
      else if language = .typeScript then .cased .camel
      else .cased .snake
  | .fieldName =>
      if language.isCLike then .cased .preserve
      else if language = .go then .cased .goExported
      else .cased .snake
  | .functionName =>
      if language.isCLike then .cased .preserve
      else if language = .typeScript then .cased .camel
      else if language = .go then .cased .goExported
      else .cased .snake
  | .localName =>
      if language.isCLike then .cased .preserve
      else if language = .go then .cased .goUnexported
      else .cased .snake
  | .constantName =>
      if language.isCLike then .macroToken
      else if language = .go then .cased .goExported
      else .upperSnake
  | .macroName => if language.isCLike then .macroToken else .upperSnake
  | .namespaceName =>
      if language.isCLike then .cased .preserve
      else if language = .go then .cased .goPackage
      else .cased .snake
  | .fileStem => if language.isCLike then .verbatim else .cased .snake

/-- `before` is the character before the text, `started` that something is written
already, and `underscore` that it ends in an underscore set between two words. -/
def snakeFrom (before : Option Char) (started underscore : Bool) : List Char → List Char
  | [] => []
  | c :: rest =>
      if c.isAlphanum = false then
        if started && !underscore then '_' :: snakeFrom (some c) true true rest
        else snakeFrom (some c) started underscore rest
      else if c.isUpper then
        let boundary := before.any Char.isLower ||
          (before.any Char.isUpper && rest.head?.any Char.isLower)
        let word := c.toLower :: snakeFrom (some c) true false rest
        if started && !underscore && boundary then '_' :: word else word
      else c :: snakeFrom (some c) true false rest

def canonicalSnakeCase (name : List Char) : List Char :=
  snakeFrom none false false name

/-- `upperNext` is set at the start of a word. -/
def pascalFrom (upperNext : Bool) : List Char → List Char
  | [] => []
  | c :: rest =>
      if c.isAlphanum = false then pascalFrom true rest
      else (if upperNext then c.toUpper else c) :: pascalFrom false rest

def normalizePascalCase (name : List Char) : List Char :=
  pascalFrom true name

def normalizeCamelCase (name : List Char) : List Char :=
  match normalizePascalCase name with
  | [] => []
  | c :: rest => c.toLower :: rest

def goInitialisms : List String :=
  ["ACL", "AMQP", "API", "ASCII", "CPU", "CSS", "DB", "DNS", "EOF", "GID", "GUID", "HTML", "HTTP",
   "HTTPS", "ID", "IP", "JSON", "LHS", "QPS", "RAM", "RHS", "RPC", "RTP", "SIP", "SLA", "SMTP",
   "SQL", "SSH", "TCP", "TLS", "TTL", "UDP", "UI", "UID", "URI", "URL", "UTF8", "UUID", "VM",
   "XML", "XMPP", "XSRF", "XSS"]

def isGoInitialism (word : List Char) : Bool :=
  goInitialisms.any fun initialism => initialism.toList == word

/-- The words found so far, and the one being read. -/
structure WordSplit where
  words : List (List Char)
  current : List Char
  deriving DecidableEq, Repr

def WordSplit.flush (split : WordSplit) : WordSplit :=
  if split.current = [] then split
  else { words := split.words ++ [split.current], current := [] }

def WordSplit.read (split : WordSplit) (c : Char) : WordSplit :=
  if c.isAlphanum = false then split.flush
  else
    let cut :=
      match split.current.getLast? with
      | none => split
      | some previous =>
          if !previous.isUpper && c.isUpper then split.flush
          else if previous.isUpper && c.isLower && 1 < split.current.length then
            -- The capital that begins this word was taken as part of the run before it.
            { words := split.words ++ [split.current.dropLast], current := [previous] }
          else split
    { cut with current := cut.current ++ [c] }

def splitWords (name : List Char) : List (List Char) :=
  (name.foldl WordSplit.read ⟨[], []⟩).flush.words

def normalizeGoPackageName (name : List Char) : List Char :=
  (splitWords name).flatMap fun word => word.map Char.toLower

/-- One word after the first, or the first of an exported name. -/
def goWord (recase : Bool) (word : List Char) : List Char :=
  let upper := word.map Char.toUpper
  if isGoInitialism upper then upper
  else upper.take 1 ++ (word.drop 1).map fun c => if recase then c.toLower else c

def normalizeGoName (name : List Char) (exported : Bool) : List Char :=
  let recase := !name.any Char.isLower
  (splitWords name).foldl
    (fun out word =>
      if out.isEmpty && !exported then word.map Char.toLower else out ++ goWord recase word)
    []

def CaseStyle.project : CaseStyle → List Char → List Char
  | .preserve, name => name
  | .snake, name => canonicalSnakeCase name
  | .pascal, name => normalizePascalCase name
  | .camel, name => normalizeCamelCase name
  | .goExported, name => normalizeGoName name true
  | .goUnexported, name => normalizeGoName name false
  | .goPackage, name => normalizeGoPackageName name

/-- The prelude names the generated Rust reaches without qualifying them. -/
def rustPrelude : List String :=
  ["Default", "Ok", "Err"]

def cppGlobalNames : List String :=
  ["index", "std"]

/-- What the generated crate root already answers to. -/
def rustCrateModules : List String :=
  ["dsdl_runtime", "dsdl_runtime_semantic_wrappers", "lib", "alloc", "core", "std"]

def metadataNames : List String :=
  ["FULL_NAME", "FULL_NAME_AND_VERSION", "IS_DEPRECATED", "EXTENT_BYTES",
   "SERIALIZATION_BUFFER_SIZE_BYTES", "WIRE_FLAT", "WIRE_FLAT_REASON", "HOST_IMAGE",
   "HOST_IMAGE_REASON", "UNION_OPTION_COUNT", "HAS_FIXED_PORT_ID", "FIXED_PORT_ID"]

def cppMembers : List String :=
  metadataNames ++
    ["serialize", "deserialize", "set_memory_resource", "_memory_resource", "to_c", "from_c"]

def goMethods : List String :=
  ["Serialize", "Deserialize", "AppendBinary", "MarshalBinary", "UnmarshalBinary", "Tag"]

def goPackages : List String :=
  ["dsdlruntime"]

def pyMembers : List String :=
  metadataNames ++
    ["serialize", "deserialize", "_serialize_into", "_deserialize_from"]

def tsProperties : List String :=
  ["constructor", "prototype"]

/-- C spells the constants as macros with a trailing underscore. -/
def cMacros : List String :=
  metadataNames.map (· ++ "_")

/-- The names generated code claims for a role. -/
def runtimeOwnedNames : Language → IdentifierRole → List String
  | .cpp, .fieldName => cppMembers
  | .cpp, .namespaceName => cppGlobalNames
  | .cpp, .constantName => metadataNames
  | .go, .namespaceName => goPackages
  | .go, .fieldName => goMethods
  | .rust, .typeName => rustPrelude
  | .rust, .namespaceName => rustCrateModules
  | .rust, .constantName => metadataNames
  | .python, .fieldName => pyMembers
  | .python, .constantName => metadataNames
  | .typeScript, .fieldName => tsProperties
  | .typeScript, .constantName => metadataNames
  | .c, .constantName => cMacros
  | .c, .macroName => cMacros
  | _, _ => []

inductive ReservedUnderscores where
  | none
  | leading
  | leadingAndInterior
  deriving DecidableEq, Repr

def reservedUnderscores : Language → ReservedUnderscores
  | .c => .leading
  | .cpp => .leadingAndInterior
  | _ => .none

def escapedUnderscore : List Char :=
  ['z', 'X', '0', '0', '5', 'F']

/-- A run of underscores that the language reserves, followed by `next`. -/
def violates (interior leading : Bool) (run : ℕ) (next : Option Char) : Bool :=
  (decide (2 ≤ run) && (leading || interior)) ||
    (leading && decide (run = 1) && next.any Char.isUpper)

structure EncodedText where
  text : List Char
  /-- Some run was encoded. -/
  encoded : Bool
  deriving DecidableEq, Repr

def spellRun (interior leading : Bool) (run : ℕ) (next : Option Char) : List Char :=
  if violates interior leading run next then (List.replicate run escapedUnderscore).flatten
  else List.replicate run '_'

/-- `run` underscores are read already; `leading` holds before any other character. -/
def encodeRuns (interior : Bool) : Bool → ℕ → List Char → EncodedText
  | leading, run, [] =>
      { text := spellRun interior leading run none
        encoded := violates interior leading run none }
  | leading, run, c :: rest =>
      if c = '_' then encodeRuns interior leading (run + 1) rest
      else
        let after := encodeRuns interior false 0 rest
        { text := spellRun interior leading run (some c) ++ c :: after.text
          encoded := violates interior leading run (some c) || after.encoded }

def encodeReservedNamespace (language : Language) (identifier : List Char) : EncodedText :=
  match reservedUnderscores language with
  | .none => { text := identifier, encoded := false }
  | .leading => encodeRuns false true 0 identifier
  | .leadingAndInterior => encodeRuns true true 0 identifier

structure ProjectedIdentifier where
  identifier : List Char
  escaped : Bool
  reservedEncoded : Bool
  deriving DecidableEq, Repr

/-- An identifier being made, and whether it was escaped. -/
abbrev Draft := List Char × Bool

def fillEmpty (style : CaseStyle) (out : List Char) : Draft :=
  if out = [] then (if style = .pascal then ['X'] else ['_'], true) else (out, false)

def escapeIdentifierStart (name : List Char) : List Char :=
  if name.head?.any Char.isDigit then '_' :: name else name

def isIdentifierChar (c : Char) : Bool :=
  c.isAlphanum || c = '_'

def escapeCharacters (draft : Draft) : Draft :=
  let out := draft.1.map fun c => if isIdentifierChar c then c else '_'
  (escapeIdentifierStart out,
    draft.2 || !draft.1.all isIdentifierChar || out.head?.any Char.isDigit)

/-- A name that `taken` holds gets a trailing underscore. -/
def stropDraft (taken : List (List Char)) (draft : Draft) : Draft :=
  if draft.1 ∈ taken then (draft.1 ++ ['_'], true) else draft

/-- The stages up to the finished identifier, before reserved underscores are encoded. -/
def finishedDraft (language : Language) (role : Option IdentifierRole) (policy : RolePolicy)
    (name : List Char) : Draft :=
  let filled := fillEmpty policy.caseStyle (policy.caseStyle.project name)
  let escaped := if policy.escape then escapeCharacters filled else filled
  let stropped := if policy.strop then stropDraft (keywordSet language) escaped else escaped
  let cased := if policy.upper then (stropped.1.map Char.toUpper, stropped.2) else stropped
  match role with
  | none => cased
  | some role => stropDraft ((runtimeOwnedNames language role).map String.toList) cased

/-- No role is given for a token that the generator constructed. -/
def runPipeline (language : Language) (role : Option IdentifierRole) (policy : RolePolicy)
    (name : List Char) : ProjectedIdentifier :=
  let draft := finishedDraft language role policy name
  -- A file stem is no identifier.
  if role.isSome && role != some .fileStem then
    let encoded := encodeReservedNamespace language draft.1
    { identifier := encoded.text
      escaped := draft.2 || encoded.encoded
      reservedEncoded := encoded.encoded }
  else { identifier := draft.1, escaped := draft.2, reservedEncoded := false }

def codegenProjectIdentifier (language : Language) (role : IdentifierRole) (name : List Char) :
    List Char :=
  (runPipeline language (some role) (rolePolicy language role) name).identifier

end LlvmDsdl.Support
