import LlvmDsdl.Library.DepthFirst
import LlvmDsdl.Semantics.Model
import LlvmDsdl.Support.ReservedIdentifiers

/-!
Contract: the analysis of types and constants (`Semantics/Analyzer.cpp`).

Owns: what a definition's analysis knows and may ask for, composite
resolution, the layout of a type, type attributes, and the check of a constant.

Another definition's result is asked for by key; who answers is not known here.
-/

namespace LlvmDsdl.Semantics

open Frontend Support Support.IntegerMath Library

abbrev Ask := Query TypeKey (Option SemanticDefinition)

/-- A computation that also reports diagnostics. -/
abbrev Analysis := Diagnosed Ask

/-- `analyzeOne` of the definition a key names. -/
def analyzeOther (key : TypeKey) : Analysis (Option SemanticDefinition) :=
  fun diagnostics => Query.ask key fun answer => pure (answer, diagnostics)

def reportNote (location : SourceLocation) (message : String) : Analysis Unit :=
  modify (· ++ [⟨.note, location, message, none⟩])

def reportExtent (location : SourceLocation) (message : String) (suggested : ℤ) : Analysis Unit :=
  modify (· ++ [⟨.error, location, message, some suggested⟩])

def reportWhen (condition : Bool) (location : SourceLocation) (message : String) : Analysis Unit :=
  if condition then reportError location message else pure ()

/-- What the analysis of a definition knows beside the definition: the evaluator's
host, the printed form of values, the definitions of the module and those of the
catalogue. -/
structure Scope where
  host : Host
  printed : Value → String
  isLocal : TypeKey → Bool
  external : TypeKey → Option SemanticDefinition

variable (scope : Scope)

def joinComponents (components : List String) : String :=
  String.intercalate "." components

structure ResolvedCompositeDefinition where
  candidateName : String
  key : TypeKey
  definition : Option SemanticDefinition

/-- The full names a reference may stand for, in the order they are tried. -/
def candidateNames (owner : DiscoveredDefinition) (type : VersionedTypeExprAST) : List String :=
  let explicitName := joinComponents type.nameComponents
  let namespaceName := joinComponents owner.namespaceComponents
  match type.nameComponents with
  | [name] => if owner.namespaceComponents.isEmpty then [name] else [namespaceName ++ "." ++ name]
  | _ =>
      match owner.namespaceComponents with
      | [] => [explicitName]
      | root :: _ => [explicitName, root ++ "." ++ explicitName, namespaceName ++ "." ++ explicitName]

/-- A definition of the module or, failing that, of the catalogue. -/
def resolveCandidate (type : VersionedTypeExprAST) (candidate : String) :
    Option ResolvedCompositeDefinition :=
  let key : TypeKey := ⟨candidate, type.major, type.minor⟩
  if scope.isLocal key then some ⟨candidate, key, none⟩
  else (scope.external key).map fun definition => ⟨candidate, key, some definition⟩

def resolveCompositeType (owner : DiscoveredDefinition) (type : VersionedTypeExprAST)
    (location : SourceLocation) : Analysis (Option ResolvedCompositeDefinition) :=
  match (candidateNames owner type).eraseDups.findSome? (resolveCandidate scope type) with
  | some resolved => pure (some resolved)
  | none =>
      refuse location ("unresolved composite type: " ++ joinComponents type.nameComponents ++ "." ++
        toString type.major ++ "." ++ toString type.minor)

/-- The analysed definition a reference was resolved to. -/
def resolvedDefinition (resolved : ResolvedCompositeDefinition) :
    Analysis (Option SemanticDefinition) :=
  match resolved.definition with
  | some definition => pure (some definition)
  | none => analyzeOther resolved.key

def ceilLog2 (x : ℤ) : ℤ :=
  if x ≤ 1 then 0 else Nat.size (x - 1).toNat

/-- Doubling until `x` is reached, at most to `2^62`. -/
def pow2ceilLoop (x : ℤ) : ℕ → ℤ → ℤ
  | 0, out => out
  | steps + 1, out => if out < x then pow2ceilLoop x steps (2 * out) else out

def pow2ceil (x : ℤ) : ℤ :=
  if x ≤ 1 then 1 else pow2ceilLoop x 62 1

def compositeWireBitLengthSet (sec : SemanticSection) : LengthSet :=
  if sec.sealed then sec.offsetAtEnd
  else (LengthSet.ofValue 32).add ((LengthSet.ofValue 8).repeatRange ((sec.extentBits.getD 0).tdiv 8))

/-- The declared extent, or the longest serialised form. -/
def extentOrMax (sec : SemanticSection) : ℤ :=
  sec.extentBits.getD sec.offsetAtEnd.max

structure TypeLayout where
  bls : LengthSet := .ofValue 0
  alignment : ℤ := 1
  resolved : SemanticFieldType := {}

def TypeLayout.faulty : TypeLayout := {}

def primitiveCategory : PrimitiveKind → SemanticScalarCategory
  | .bool => .bool
  | .byte => .byte
  | .utf8 => .utf8
  | .unsignedInt => .unsignedInt
  | .signedInt => .signedInt
  | .float => .float

def scalarLayout (category : SemanticScalarCategory) (castMode : CastMode) (bitLength : ℕ) :
    TypeLayout :=
  let bls := LengthSet.ofValue bitLength
  { bls := bls
    resolved := { scalarCategory := category, castMode := castMode, bitLength := bitLength,
                  bitLengthSet := bls } }

/-- The reference to an analysed definition. -/
def typeRefOf (info : DiscoveredDefinition) : SemanticTypeRef :=
  ⟨info.fullName, info.namespaceComponents, info.shortName, info.majorVersion, info.minorVersion⟩

/-- A composite field of an analysed message type. -/
def compositeLayout (definition : SemanticDefinition) : TypeLayout :=
  let sec := definition.request
  let bls := compositeWireBitLengthSet sec
  { bls := bls
    alignment := 8
    resolved :=
      { scalarCategory := .composite
        alignmentBits := 8
        bitLengthSet := bls
        compositeType := some (typeRefOf definition.info)
        compositeSealed := sec.sealed
        compositeExtentBits := extentOrMax sec } }

def baseFromScalar (owner : DiscoveredDefinition) (type : TypeExprAST) : Analysis TypeLayout :=
  match type.scalar with
  | .primitive p => pure (scalarLayout (primitiveCategory p.kind) p.castMode p.bitLength)
  | .void bitLength => pure (scalarLayout .void .saturated bitLength)
  | .versioned v => do
      match ← resolveCompositeType scope owner v type.location with
      | none => pure .faulty
      | some resolved =>
          match ← resolvedDefinition resolved with
          | none => pure .faulty
          | some definition =>
              if definition.isService then do
                reportError type.location "service types are not valid field types"
                pure .faulty
              else pure (compositeLayout definition)

/-- An array of an element layout: its lengths and the width of its prefix. -/
def TypeLayout.arrayOf (element : TypeLayout) (kind : ArrayKind) (capacity prefixBits : ℤ)
    (bls : LengthSet) : TypeLayout :=
  { bls := bls
    alignment := element.alignment
    resolved :=
      { element.resolved with
        arrayKind := kind
        arrayCapacity := capacity
        arrayLengthPrefixBits := prefixBits
        alignmentBits := element.alignment
        bitLengthSet := bls } }

def faultyType (location : SourceLocation) (message : String) : Analysis TypeLayout := do
  reportError location message
  pure .faulty

def fixedArray (location : SourceLocation) (element : TypeLayout) (capacity : ℤ) :
    Analysis TypeLayout :=
  if capacity < 1 then faultyType location "fixed-length array capacity must be positive"
  else pure (element.arrayOf .fixed capacity 0 (element.bls.repeated capacity))

/-- The width of the length prefix of an array with at most `capacity` elements. -/
def lengthPrefixBits (capacity : ℤ) : ℤ :=
  pow2ceil (max 8 (Nat.size capacity.toNat))

def variableArray (kind : ArrayKind) (element : TypeLayout) (capacity : ℤ) : TypeLayout :=
  let prefixBits := lengthPrefixBits capacity
  element.arrayOf kind capacity prefixBits
    ((LengthSet.ofValue prefixBits).add (element.bls.repeatRange capacity))

def arrayLayout (location : SourceLocation) (kind : ArrayKind) (element : TypeLayout)
    (capacity : ℤ) : Analysis TypeLayout :=
  match kind with
  | .none => pure element
  | .fixed => fixedArray location element capacity
  | .variableExclusive =>
      if capacity ≤ 1 then
        faultyType location "exclusive variable-length array bound must be > 1"
      else pure (variableArray kind element (capacity - 1))
  | .variableInclusive =>
      if capacity < 1 then
        faultyType location "inclusive variable-length array bound must be >= 1"
      else pure (variableArray kind element capacity)

/-- An integer value: none where it is not one, or where 64 bits do not hold it. -/
def integerOf : Option Value → Option (Option ℤ)
  | some (.rational value) => if value.isInteger then some value.asInteger else none
  | _ => none

variable (env : ValueEnv) (resolver : TypeAttributeResolver Ask)

def analyzeType (owner : DiscoveredDefinition) (type : TypeExprAST) : Analysis TypeLayout := do
  let base ← baseFromScalar scope owner type
  let element : TypeLayout :=
    { base with resolved := { base.resolved with arrayKind := type.arrayKind } }
  match type.arrayKind, type.scalar, type.arrayCapacity with
  | .none, _, _ => pure element
  | _, .void _, _ => faultyType type.location "void type is not allowed as array element type"
  | _, _, none => faultyType type.location "array type missing capacity expression"
  | kind, _, some expression => do
      let capValue ← evaluateExpression scope.host env (some resolver) expression type.location
      match integerOf capValue with
      | none =>
          faultyType type.location "array capacity expression must yield integer rational"
      | some none => faultyType type.location "array capacity is too large"
      | some (some capacity) => arrayLayout type.location kind element capacity

/-- The value of an attribute of an analysed message type. -/
def attributeOf (sec : SemanticSection) (attributeName : String) : Option Value :=
  if attributeName = "_extent_" then some (.rational (.ofInteger (extentOrMax sec)))
  else if attributeName = "_bit_length_" then some (.bitLengthSet (compositeWireBitLengthSet sec))
  else (sec.constants.find? (·.name = attributeName)).map SemanticConstant.value

def typeAttrResolver (owner : DiscoveredDefinition) : TypeAttributeResolver Ask :=
  fun typeExpr attributeName location => do
    let unsupported := "unsupported metaserializable attribute: " ++ attributeName
    match typeExpr.arrayKind, typeExpr.scalar with
    | .none, .versioned versioned =>
        match ← resolveCompositeType scope owner versioned location with
        | none => pure none
        | some resolved =>
            match ← resolvedDefinition resolved with
            | none =>
                refuse location ("failed to analyse dependent type: " ++ resolved.candidateName)
            | some definition =>
                if definition.isService then
                  refuse location
                    ("service types do not expose value attributes: " ++ resolved.candidateName)
                else
                  match attributeOf definition.request attributeName with
                  | some value => pure (some value)
                  | none => refuse location unsupported
    | _, _ => refuse location unsupported

/-- The least and the greatest value of an integer type. -/
def integerRange (isSigned : Bool) (bits : ℕ) : ℤ × ℤ :=
  if isSigned then (-2 ^ (bits - 1), 2 ^ (bits - 1) - 1) else (0, 2 ^ bits - 1)

def isAsciiCharacter (text : String) : Bool :=
  match text.toList with
  | [c] => c.val ≤ 127
  | _ => false

def constantError (type : TypeExprAST) (value : Value) : Option String :=
  match type.scalar with
  | .primitive prim =>
      match prim.kind, value with
      | .bool, .boolean _ => none
      | .bool, _ => some "boolean constants must be initialised from bool"
      | .float, .rational _ => none
      | .float, _ => some "floating constants require rational values"
      | .byte, _ => some "byte/utf8 are not valid constant attribute types"
      | .utf8, _ => some "byte/utf8 are not valid constant attribute types"
      | kind, .rational r =>
          match r.isInteger, r.asWideInteger with
          | false, _ => some "integer constants require integer rational values"
          | true, none => some "integer constant value is not representable"
          | true, some wide =>
              let isSigned := kind == .signedInt
              let range := integerRange isSigned prim.bitLength
              if wide < range.1 ∨ range.2 < wide then
                some ("constant value " ++ toString wide ++ " is out of range for " ++
                  (if isSigned then "int" else "uint") ++ toString prim.bitLength)
              else none
      | kind, .string text =>
          if kind = .unsignedInt ∧ prim.bitLength = 8 ∧ isAsciiCharacter text then none
          else some "integer constants require rational or ASCII single-char string"
      | _, _ => some "integer constants require rational or ASCII single-char string"
  | _ => some "constant attributes must be primitive-typed"

def checkConstantCompatibility (decl : ConstantDeclAST) (value : Value) : Analysis Bool :=
  match constantError decl.type value with
  | none => pure true
  | some message => do
      reportError decl.location message
      pure false

end LlvmDsdl.Semantics
