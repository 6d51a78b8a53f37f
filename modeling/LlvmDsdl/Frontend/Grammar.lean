import LlvmDsdl.Frontend.Parser

/-!
Contract: the stratified expression grammar, as relations between tokens and trees.

Owns: versioned names, type expressions, expression atoms, attribute access, the
precedence levels, derivations of bounded nesting, what a derivation starts with, and
that a deeper nesting allows no less.

A level is the relation of its operators over the level below. A literal's point and a
type's name are taken greedily: an integer that touches a point is no operand of an
attribute access, and a name that is a type's is no identifier.
-/

namespace LlvmDsdl.Frontend

open Support Library.Parsing

/-- What a parser of trees relates. -/
abbrev Derives := List Token → ExprAST → Prop

/-- The components of a versioned name after a token, and its version. -/
inductive NameTail : Token → List Token → List String → ℕ × ℕ → Prop where
  | integers {last dot major mid minor : Token} {version : ℕ × ℕ}
      (isDot : dot.kind = .dot) (touches : tokensAdjacent last dot = true)
      (ahead : major.kind = .integer ∧ mid.kind = .dot ∧ minor.kind = .integer)
      (isVersion : versionOfIntegers dot major mid minor = some version) :
      NameTail last [dot, major, mid, minor] [] version
  | real {last dot number : Token} {version : ℕ × ℕ}
      (isDot : dot.kind = .dot) (touches : tokensAdjacent last dot = true)
      (isReal : number.kind = .real) (isVersion : versionOfReal dot number = some version) :
      NameTail last [dot, number] [] version
  | component {last dot name : Token} {used : List Token} {components : List String}
      {version : ℕ × ℕ} (isDot : dot.kind = .dot) (touches : tokensAdjacent last dot = true)
      (isName : name.kind = .identifier) (nameTouches : tokensAdjacent dot name = true)
      (tail : NameTail name used components version) :
      NameTail last (dot :: name :: used) (name.text :: components) version

inductive ScalarType : List Token → ScalarTypeExprAST → Prop where
  | named {token : Token} {scalar : ScalarTypeExprAST} (isName : token.kind = .identifier)
      (isType : parseNamedScalar .saturated token.text = some (.ok scalar)) :
      ScalarType [token] scalar
  | cast {castToken token : Token} {scalar : ScalarTypeExprAST} {mode : CastMode}
      (isCast : castToken.kind = .identifier ∧
        (castToken.text = "saturated" ∧ mode = .saturated ∨
          castToken.text = "truncated" ∧ mode = .truncated))
      (isName : token.kind = .identifier) (castable : isCastable token.text = true)
      (isType : parseNamedScalar mode token.text = some (.ok scalar)) :
      ScalarType [castToken, token] scalar
  | versioned {token : Token} {used : List Token} {components : List String} {version : ℕ × ℕ}
      (isName : token.kind = .identifier)
      (isOther : parseNamedScalar .saturated token.text = none)
      (tail : NameTail token used components version) :
      ScalarType (token :: used) (.versioned ⟨token.text :: components, version.1, version.2⟩)

inductive ArrayMark : List Token → ArrayKind → Prop where
  | fixed : ArrayMark [] .fixed
  | inclusive {token : Token} (isMark : token.kind = .lessEqual) :
      ArrayMark [token] .variableInclusive
  | exclusive {token : Token} (isMark : token.kind = .less) :
      ArrayMark [token] .variableExclusive

inductive TypeExpr (derives : Derives) : List Token → TypeExprAST → Prop where
  | scalar {used : List Token} {scalar : ScalarTypeExprAST} (derived : ScalarType used scalar) :
      TypeExpr derives used (.mk (currentLocation used) scalar .none none)
  | array {used mark inner : List Token} {scalar : ScalarTypeExprAST} {bracket close : Token}
      {kind : ArrayKind} {capacity : ExprAST} (derived : ScalarType used scalar)
      (isOpen : bracket.kind = .lBracket) (marked : ArrayMark mark kind)
      (capacityDerived : derives inner capacity) (isClose : close.kind = .rBracket) :
      TypeExpr derives (used ++ bracket :: (mark ++ (inner ++ [close])))
        (.mk (currentLocation used) scalar kind (some capacity))

inductive Elements (derives : Derives) : List Token → List ExprAST → Prop where
  | single {used : List Token} {item : ExprAST} (derived : derives used item) :
      Elements derives used [item]
  | more {used later : List Token} {comma : Token} {item : ExprAST} {items : List ExprAST}
      (derived : derives used item) (isComma : comma.kind = .comma)
      (others : Elements derives later items) :
      Elements derives (used ++ comma :: later) (item :: items)

inductive Atom (derives : Derives) : Derives where
  | leadingPoint {dot fraction : Token} {value : Rational} (isDot : dot.kind = .dot)
      (digits : fraction.kind = .integer ∧ isDecimalIntegerLiteral fraction.text = true ∨
        fraction.kind = .real)
      (touches : tokensAdjacent dot fraction = true)
      (isLiteral : parseRealLiteral ("." ++ fraction.text) = some value) :
      Atom derives [dot, fraction] (.rational dot.location value)
  | trueKeyword {token : Token} (isTrue : token.kind = .trueKeyword) :
      Atom derives [token] (.boolean token.location true)
  | falseKeyword {token : Token} (isFalse : token.kind = .falseKeyword) :
      Atom derives [token] (.boolean token.location false)
  | integer {token : Token} {value : ℕ} (isInteger : token.kind = .integer)
      (isLiteral : parseIntegerLiteral token.text = some value) :
      Atom derives [token] (.rational token.location (.ofInteger value))
  | trailingPoint {token dot : Token} {value : Rational} (isInteger : token.kind = .integer)
      (isDot : dot.kind = .dot) (decimal : isDecimalIntegerLiteral token.text = true)
      (touches : tokensAdjacent token dot = true)
      (isLiteral : parseRealLiteral (token.text ++ ".") = some value) :
      Atom derives [token, dot] (.rational token.location value)
  | real {token : Token} {value : Rational} (isReal : token.kind = .real)
      (isLiteral : parseRealLiteral token.text = some value) :
      Atom derives [token] (.rational token.location value)
  | string {token : Token} (isString : token.kind = .string) :
      Atom derives [token] (.string token.location token.text)
  | parenthesised {opening closing : Token} {inner : List Token} {value : ExprAST}
      (isOpen : opening.kind = .lParen) (derived : derives inner value)
      (isClose : closing.kind = .rParen) :
      Atom derives (opening :: (inner ++ [closing])) value
  | emptySet {opening closing : Token} (isOpen : opening.kind = .lBrace)
      (isClose : closing.kind = .rBrace) :
      Atom derives [opening, closing] (.setLiteral opening.location [])
  | set {opening closing : Token} {inner : List Token} {items : List ExprAST}
      (isOpen : opening.kind = .lBrace) (derived : Elements derives inner items)
      (isClose : closing.kind = .rBrace) :
      Atom derives (opening :: (inner ++ [closing])) (.setLiteral opening.location items)
  | type {used : List Token} {value : TypeExprAST} (derived : TypeExpr derives used value) :
      Atom derives used (.typeLiteral value.location value)
  | identifier {token : Token} (isName : token.kind = .identifier)
      (isNoType : ∀ scalar, parseNamedScalar .saturated token.text ≠ some (.ok scalar)) :
      Atom derives [token] (.identifier token.location token.text)

/-- A single integer whose point this dot would be. -/
def TrailingPoint (used : List Token) (dot : Token) : Prop :=
  ∃ token, used = [token] ∧ token.kind = .integer ∧ dot.kind = .dot ∧
    isDecimalIntegerLiteral token.text = true ∧ tokensAdjacent token dot = true

inductive Attributes (derives : Derives) : Derives where
  | bare {used : List Token} {value : ExprAST} (derived : derives used value) :
      Attributes derives used value
  | access {used : List Token} {lhs : ExprAST} {dot name : Token}
      (left : Attributes derives used lhs) (isDot : dot.kind = .dot)
      (isName : name.kind = .identifier) (free : ¬TrailingPoint used dot) :
      Attributes derives (used ++ [dot, name])
        (.binary dot.location .attribute lhs (.identifier name.location name.text))

section Levels

variable (derives : Derives)

def AttributeAccess : Derives :=
  Attributes (Atom derives)

def Exponential : Derives :=
  Power (binaryOperator [.starStar]) signOperator (AttributeAccess derives)

def Inversion : Derives :=
  Signed signOperator (Exponential derives)

def Multiplicative : Derives :=
  Chain (binaryOperator multiplicativeKinds) (Inversion derives)

def Additive : Derives :=
  Chain (binaryOperator additiveKinds) (Multiplicative derives)

def Bitwise : Derives :=
  Chain (binaryOperator bitwiseKinds) (Additive derives)

def Comparison : Derives :=
  Chain (binaryOperator comparisonKinds) (Bitwise derives)

def LogicalNot : Derives :=
  Prefixed notOperator (Comparison derives)

def Logical : Derives :=
  Chain (binaryOperator logicalKinds) (LogicalNot derives)

end Levels

/-- The expressions that nest less than a number of times. -/
def Derivation : ℕ → Derives
  | 0 => fun _ _ => False
  | nesting + 1 => Logical (Derivation nesting)

def Expression (tokens : List Token) (value : ExprAST) : Prop :=
  ∃ nesting, Derivation nesting tokens value

def atomKinds : List TokenKind :=
  [.dot, .trueKeyword, .falseKeyword, .integer, .real, .string, .lParen, .lBrace, .identifier]

def expressionKinds : List TokenKind :=
  [.bang] ++ ([.plus, .minus] ++ atomKinds)

/-- What is derived starts with a token of some kinds. -/
def StartsWith (kinds : List TokenKind) (derives : Derives) : Prop :=
  ∀ used value, derives used value → ∃ first more, used = first :: more ∧ first.kind ∈ kinds

theorem StartsWith.startsWithout {kinds : List TokenKind} {derives : Derives}
    {operator : Token → Option (ExprAST → ExprAST)} (starts : StartsWith kinds derives)
    (none : ∀ token : Token, token.kind ∈ kinds → operator token = none) :
    StartsWithout operator derives := by
  intro used value derived
  have ⟨first, more, same, isKind⟩ := starts used value derived
  exact ⟨first, more, same, none first isKind⟩

theorem scalarType_starts {used : List Token} {scalar : ScalarTypeExprAST}
    (derived : ScalarType used scalar) :
    ∃ first more, used = first :: more ∧ first.kind = .identifier := by
  cases derived with
  | named isName _ => exact ⟨_, _, rfl, isName⟩
  | cast isCast _ _ _ => exact ⟨_, _, rfl, isCast.1⟩
  | versioned isName _ _ => exact ⟨_, _, rfl, isName⟩

theorem typeExpr_starts {derives : Derives} {used : List Token} {value : TypeExprAST}
    (derived : TypeExpr derives used value) :
    ∃ first more, used = first :: more ∧ first.kind = .identifier := by
  cases derived with
  | scalar derived => exact scalarType_starts derived
  | array derived _ _ _ _ =>
      have ⟨first, more, same, isName⟩ := scalarType_starts derived
      exact ⟨first, _, congrArg (· ++ _) same, isName⟩

theorem atom_starts (derives : Derives) : StartsWith atomKinds (Atom derives) := by
  intro used value derived
  cases derived with
  | leadingPoint isDot _ _ _ => exact ⟨_, _, rfl, by rw [isDot]; decide⟩
  | trueKeyword isTrue => exact ⟨_, _, rfl, by rw [isTrue]; decide⟩
  | falseKeyword isFalse => exact ⟨_, _, rfl, by rw [isFalse]; decide⟩
  | integer isInteger _ => exact ⟨_, _, rfl, by rw [isInteger]; decide⟩
  | trailingPoint isInteger _ _ _ _ => exact ⟨_, _, rfl, by rw [isInteger]; decide⟩
  | real isReal _ => exact ⟨_, _, rfl, by rw [isReal]; decide⟩
  | string isString => exact ⟨_, _, rfl, by rw [isString]; decide⟩
  | parenthesised isOpen _ _ => exact ⟨_, _, rfl, by rw [isOpen]; decide⟩
  | emptySet isOpen _ => exact ⟨_, _, rfl, by rw [isOpen]; decide⟩
  | set isOpen _ _ => exact ⟨_, _, rfl, by rw [isOpen]; decide⟩
  | type derived =>
      have ⟨first, more, same, isName⟩ := typeExpr_starts derived
      exact ⟨first, more, same, by rw [isName]; decide⟩
  | identifier isName _ => exact ⟨_, _, rfl, by rw [isName]; decide⟩

theorem attributes_starts {kinds : List TokenKind} {derives : Derives}
    (starts : StartsWith kinds derives) : StartsWith kinds (Attributes derives) := by
  intro used value derived
  induction derived with
  | bare derived => exact starts _ _ derived
  | access _ _ _ _ ih =>
      have ⟨first, more, same, isKind⟩ := ih
      exact ⟨first, _, congrArg (· ++ _) same, isKind⟩

theorem power_starts {kinds : List TokenKind} {derives : Derives}
    {power : Token → Option (ExprAST → ExprAST → ExprAST)}
    {sign : Token → Option (ExprAST → ExprAST)} (starts : StartsWith kinds derives) :
    StartsWith kinds (Power power sign derives) := by
  intro used value derived
  cases derived with
  | bare derived => exact starts _ _ derived
  | raised left _ _ =>
      have ⟨first, more, same, isKind⟩ := starts _ _ left
      exact ⟨first, _, congrArg (· ++ _) same, isKind⟩
  | raisedSigned left _ _ _ =>
      have ⟨first, more, same, isKind⟩ := starts _ _ left
      exact ⟨first, _, congrArg (· ++ _) same, isKind⟩

theorem chain_starts {kinds : List TokenKind} {derives : Derives}
    {operator : Token → Option (ExprAST → ExprAST → ExprAST)}
    (starts : StartsWith kinds derives) : StartsWith kinds (Chain operator derives) := by
  intro used value derived
  induction derived with
  | single derived => exact starts _ _ derived
  | more _ _ _ ih =>
      have ⟨first, more, same, isKind⟩ := ih
      exact ⟨first, _, congrArg (· ++ _) same, isKind⟩

theorem signed_starts {kinds more : List TokenKind} {derives : Derives}
    {operator : Token → Option (ExprAST → ExprAST)} (starts : StartsWith kinds derives)
    (operators : ∀ token, operator token ≠ none → token.kind ∈ more) :
    StartsWith (more ++ kinds) (Signed operator derives) := by
  intro used value derived
  cases derived with
  | bare derived =>
      have ⟨first, later, same, isKind⟩ := starts _ _ derived
      exact ⟨first, later, same, List.mem_append_right _ isKind⟩
  | under isOperator _ =>
      refine ⟨_, _, rfl, List.mem_append_left _ (operators _ ?_)⟩
      rw [isOperator]
      exact Option.some_ne_none _

theorem prefixed_starts {kinds more : List TokenKind} {derives : Derives}
    {operator : Token → Option (ExprAST → ExprAST)} (starts : StartsWith kinds derives)
    (operators : ∀ token, operator token ≠ none → token.kind ∈ more) :
    StartsWith (more ++ kinds) (Prefixed operator derives) := by
  intro used value derived
  cases derived with
  | bare derived =>
      have ⟨first, later, same, isKind⟩ := starts _ _ derived
      exact ⟨first, later, same, List.mem_append_right _ isKind⟩
  | under isOperator _ =>
      refine ⟨_, _, rfl, List.mem_append_left _ (operators _ ?_)⟩
      rw [isOperator]
      exact Option.some_ne_none _

theorem signOperator_kind (token : Token) (isSign : signOperator token ≠ none) :
    token.kind ∈ [TokenKind.plus, .minus] := by
  unfold signOperator at isSign
  split at isSign
  · rename_i isPlus
    rw [isPlus]
    decide
  · split at isSign
    · rename_i isMinus
      rw [isMinus]
      decide
    · exact absurd rfl isSign

theorem notOperator_kind (token : Token) (isNot : notOperator token ≠ none) :
    token.kind ∈ [TokenKind.bang] := by
  unfold notOperator at isNot
  split at isNot
  · rename_i isBang
    rw [isBang]
    decide
  · exact absurd rfl isNot

theorem exponential_starts (derives : Derives) : StartsWith atomKinds (Exponential derives) :=
  power_starts (attributes_starts (atom_starts derives))

theorem comparison_starts (derives : Derives) :
    StartsWith ([.plus, .minus] ++ atomKinds) (Comparison derives) := by
  apply chain_starts
  apply chain_starts
  apply chain_starts
  apply chain_starts
  exact signed_starts (exponential_starts derives) signOperator_kind

theorem logical_starts (derives : Derives) : StartsWith expressionKinds (Logical derives) := by
  apply chain_starts
  exact prefixed_starts (comparison_starts derives) notOperator_kind

theorem derivation_starts (nesting : ℕ) : StartsWith expressionKinds (Derivation nesting) := by
  cases nesting with
  | zero =>
      intro used value derived
      exact derived.elim
  | succ nesting => exact logical_starts (Derivation nesting)

section Mono

variable {derives other : Derives}
  (sub : ∀ used value, derives used value → other used value)

include sub

theorem TypeExpr.mono {used : List Token} {value : TypeExprAST}
    (derived : TypeExpr derives used value) : TypeExpr other used value := by
  cases derived with
  | scalar derived => exact .scalar derived
  | array derived isOpen marked capacityDerived isClose =>
      exact .array derived isOpen marked (sub _ _ capacityDerived) isClose

theorem Elements.mono {used : List Token} {items : List ExprAST}
    (derived : Elements derives used items) : Elements other used items := by
  induction derived with
  | single derived => exact .single (sub _ _ derived)
  | more derived isComma _ ih =>
      exact .more (sub _ _ derived) isComma ih

theorem Atom.mono {used : List Token} {value : ExprAST} (derived : Atom derives used value) :
    Atom other used value := by
  cases derived with
  | leadingPoint isDot digits touches isLiteral =>
      exact .leadingPoint isDot digits touches isLiteral
  | trueKeyword isTrue => exact .trueKeyword isTrue
  | falseKeyword isFalse => exact .falseKeyword isFalse
  | integer isInteger isLiteral => exact .integer isInteger isLiteral
  | trailingPoint isInteger isDot decimal touches isLiteral =>
      exact .trailingPoint isInteger isDot decimal touches isLiteral
  | real isReal isLiteral => exact .real isReal isLiteral
  | string isString => exact .string isString
  | parenthesised isOpen derived isClose => exact .parenthesised isOpen (sub _ _ derived) isClose
  | emptySet isOpen isClose => exact .emptySet isOpen isClose
  | set isOpen derived isClose => exact .set isOpen (derived.mono sub) isClose
  | type derived => exact .type (derived.mono sub)
  | identifier isName isNoType => exact .identifier isName isNoType

theorem Attributes.mono {used : List Token} {value : ExprAST}
    (derived : Attributes derives used value) : Attributes other used value := by
  induction derived with
  | bare derived => exact .bare (sub _ _ derived)
  | access _ isDot isName free ih =>
      exact .access ih isDot isName free

end Mono

theorem logical_mono {derives other : Derives}
    (sub : ∀ used value, derives used value → other used value) {used : List Token}
    {value : ExprAST} (derived : Logical derives used value) : Logical other used value := by
  refine Chain.mono ?_ derived
  intro used value derived
  refine Prefixed.mono ?_ derived
  intro used value derived
  refine Chain.mono ?_ derived
  intro used value derived
  refine Chain.mono ?_ derived
  intro used value derived
  refine Chain.mono ?_ derived
  intro used value derived
  refine Chain.mono ?_ derived
  intro used value derived
  refine Signed.mono ?_ derived
  intro used value derived
  refine Power.mono ?_ derived
  intro used value derived
  exact Attributes.mono (fun _ _ atom => atom.mono sub) derived

theorem derivation_succ (nesting : ℕ) {used : List Token} {value : ExprAST}
    (derived : Derivation nesting used value) : Derivation (nesting + 1) used value := by
  induction nesting generalizing used value with
  | zero => exact derived.elim
  | succ nesting ih =>
      exact logical_mono (fun _ _ inner => ih inner) derived

theorem derivation_mono {nesting deeper : ℕ} (less : nesting ≤ deeper) {used : List Token}
    {value : ExprAST} (derived : Derivation nesting used value) :
    Derivation deeper used value := by
  induction less with
  | refl => exact derived
  | step _ ih => exact derivation_succ _ ih

end LlvmDsdl.Frontend
