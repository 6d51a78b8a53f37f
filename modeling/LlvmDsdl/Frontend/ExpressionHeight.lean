import LlvmDsdl.Frontend.ParserCompleteness
import LlvmDsdl.Frontend.LexedText
import LlvmDsdl.Library.ChainLength

/-!
Contract: how high the trees are that the expression parser builds.

Owns: the height of a tree, the grammar with operator chains of bounded length,
that such chains under the nesting limit give bounded trees and bounded trees
come from such chains, and a family of texts whose trees are higher than any
multiple of the limit.

The nesting limit counts entries of `parseExpression`. Operators of one nesting
are read in loops and by recursion that does not enter it.
-/

namespace LlvmDsdl.Frontend

open Library.Parsing

mutual

/-- The unary, binary, attribute, set and array nodes on the longest path. -/
def ExprAST.height : ExprAST → ℕ
  | .boolean _ _ => 0
  | .rational _ _ => 0
  | .string _ _ => 0
  | .identifier _ _ => 0
  | .unary _ _ operand => operand.height + 1
  | .binary _ _ lhs rhs => max lhs.height rhs.height + 1
  | .setLiteral _ elements => elementsHeight elements + 1
  | .typeLiteral _ type => type.height

def elementsHeight : List ExprAST → ℕ
  | [] => 0
  | element :: others => max element.height (elementsHeight others)

def TypeExprAST.height : TypeExprAST → ℕ
  | .mk _ _ _ arrayCapacity => capacityHeight arrayCapacity

def capacityHeight : Option ExprAST → ℕ
  | none => 0
  | some capacity => capacity.height + 1

end

theorem binaryOperator_raises (kinds : List TokenKind) :
    RaisesBinary ExprAST.height (binaryOperator kinds) := by
  intro op combine lhs rhs isOperator
  unfold binaryOperator at isOperator
  split at isOperator
  · obtain ⟨operator, _, rfl⟩ := Option.map_eq_some_iff.mp isOperator
    rw [ExprAST.height]
  · cases isOperator

theorem notOperator_raises : RaisesUnary ExprAST.height notOperator := by
  intro op apply value isOperator
  unfold notOperator at isOperator
  split at isOperator
  · cases isOperator
    rw [ExprAST.height]
  · cases isOperator

theorem signOperator_raises : RaisesUnary ExprAST.height signOperator := by
  intro op apply value isOperator
  unfold signOperator at isOperator
  split at isOperator
  · cases isOperator
    rw [ExprAST.height]
  · split at isOperator
    · cases isOperator
      rw [ExprAST.height]
    · cases isOperator

/-- Attributes after an operand, and how many there are. -/
inductive CountedAttributes (derives : Derives) : ℕ → Derives where
  | bare {used : List Token} {value : ExprAST} (derived : derives used value) :
      CountedAttributes derives 0 used value
  | access {count : ℕ} {used : List Token} {lhs : ExprAST} {dot name : Token}
      (left : CountedAttributes derives count used lhs) (isDot : dot.kind = .dot)
      (isName : name.kind = .identifier) (free : ¬TrailingPoint used dot) :
      CountedAttributes derives (count + 1) (used ++ [dot, name])
        (.binary dot.location .attribute lhs (.identifier name.location name.text))

def AttributesWithin (limit : ℕ) (derives : Derives) : Derives := fun used value =>
  ∃ count ≤ limit, CountedAttributes derives count used value

section Levels

variable (limit : ℕ) (derives : Derives)

def ExponentialWithin : Derives :=
  PowerWithin (binaryOperator [.starStar]) signOperator (AttributesWithin limit (Atom derives)) limit

def MultiplicativeWithin : Derives :=
  ChainWithin (binaryOperator multiplicativeKinds)
    (Signed signOperator (ExponentialWithin limit derives)) limit

def AdditiveWithin : Derives :=
  ChainWithin (binaryOperator additiveKinds) (MultiplicativeWithin limit derives) limit

def BitwiseWithin : Derives :=
  ChainWithin (binaryOperator bitwiseKinds) (AdditiveWithin limit derives) limit

def ComparisonWithin : Derives :=
  ChainWithin (binaryOperator comparisonKinds) (BitwiseWithin limit derives) limit

def LogicalWithin : Derives :=
  ChainWithin (binaryOperator logicalKinds)
    (PrefixedWithin notOperator (ComparisonWithin limit derives) limit) limit

end Levels

/-- The expressions that nest less than a number of times and whose chains of
operators are no longer than a limit. -/
def DerivationWithin (limit : ℕ) : ℕ → Derives
  | 0 => fun _ _ => False
  | nesting + 1 => LogicalWithin limit (DerivationWithin limit nesting)

/-- The tokens are an expression of which every operator chain is this short. -/
def ChainsWithin (limit : ℕ) (used : List Token) : Prop :=
  ∃ value, DerivationWithin limit kMaxExpressionDepth used value

theorem attributesWithin_attributes {derives other : Derives} {limit : ℕ}
    (sub : ∀ used value, derives used value → other used value) (used : List Token)
    (value : ExprAST) (derived : AttributesWithin limit derives used value) :
    Attributes other used value := by
  obtain ⟨count, few, derived⟩ := derived
  clear few
  induction derived with
  | bare derived => exact .bare (sub _ _ derived)
  | access _ isDot isName free ih =>
      exact .access ih isDot isName free

theorem DerivationWithin.derivation {limit : ℕ} (nesting : ℕ) (used : List Token) (value : ExprAST)
    (derived : DerivationWithin limit nesting used value) : Derivation nesting used value := by
  induction nesting generalizing used value with
  | zero => exact derived.elim
  | succ nesting ih =>
      have atoms := fun used value (atom : Atom (DerivationWithin limit nesting) used value) =>
        atom.mono ih
      have attributes := @attributesWithin_attributes _ _ limit atoms
      have powers := fun used value (power : ExponentialWithin limit _ used value) =>
        power.power attributes
      have products := fun used value (chain : MultiplicativeWithin limit _ used value) =>
        chain.chain fun _ _ signed => signed.mono powers
      have sums := fun used value (chain : AdditiveWithin limit _ used value) =>
        chain.chain products
      have bits := fun used value (chain : BitwiseWithin limit _ used value) => chain.chain sums
      have comparisons := fun used value (chain : ComparisonWithin limit _ used value) =>
        chain.chain bits
      exact ChainWithin.chain (fun _ _ negated => negated.prefixed comparisons) derived

section Low

variable {derives : Derives} {bound limit : ℕ}

theorem elements_height_le (below : ∀ used value, derives used value → value.height ≤ bound)
    {used : List Token} {items : List ExprAST} (derived : Elements derives used items) :
    elementsHeight items ≤ bound := by
  induction derived with
  | single derived =>
      have first := below _ _ derived
      simpa [elementsHeight] using first
  | more derived _ _ ih =>
      have first := below _ _ derived
      rw [elementsHeight]
      omega

theorem typeExpr_height_le (below : ∀ used value, derives used value → value.height ≤ bound)
    {used : List Token} {type : TypeExprAST} (derived : TypeExpr derives used type) :
    type.height ≤ bound + 1 := by
  cases derived with
  | scalar _ => simp [TypeExprAST.height, capacityHeight]
  | array _ _ _ capacityDerived _ =>
      have capacity := below _ _ capacityDerived
      rw [TypeExprAST.height, capacityHeight]
      omega

theorem atom_height_le (below : ∀ used value, derives used value → value.height ≤ bound)
    (used : List Token) (value : ExprAST) (derived : Atom derives used value) :
    value.height ≤ bound + 1 := by
  cases derived with
  | parenthesised _ derived _ => exact Nat.le_succ_of_le (below _ _ derived)
  | emptySet _ _ => simp [ExprAST.height, elementsHeight]
  | set _ derived _ =>
      have items := elements_height_le below derived
      rw [ExprAST.height]
      omega
  | type derived => exact typeExpr_height_le below derived
  | leadingPoint _ _ _ _ => exact Nat.zero_le _
  | trueKeyword _ => exact Nat.zero_le _
  | falseKeyword _ => exact Nat.zero_le _
  | integer _ _ => exact Nat.zero_le _
  | trailingPoint _ _ _ _ _ => exact Nat.zero_le _
  | real _ _ => exact Nat.zero_le _
  | string _ => exact Nat.zero_le _
  | identifier _ _ => exact Nat.zero_le _

theorem attributes_height_le (below : ∀ used value, derives used value → value.height ≤ bound)
    (used : List Token) (value : ExprAST) (derived : AttributesWithin limit derives used value) :
    value.height ≤ bound + limit := by
  obtain ⟨count, few, derived⟩ := derived
  have counted : value.height ≤ bound + count := by
    clear few
    induction derived with
    | bare derived => exact below _ _ derived
    | access _ _ _ _ ih =>
        rw [ExprAST.height, ExprAST.height]
        omega
  omega

theorem logicalWithin_height_le (below : ∀ used value, derives used value → value.height ≤ bound)
    (used : List Token) (value : ExprAST) (derived : LogicalWithin limit derives used value) :
    value.height ≤ bound + (9 * limit + 2) := by
  have atoms := atom_height_le below
  have attributes := @attributes_height_le _ _ limit atoms
  have powers : ∀ used value, ExponentialWithin limit derives used value →
      value.height ≤ bound + 1 + limit + 2 * limit := fun _ _ power =>
    power.height_le (binaryOperator_raises _) signOperator_raises attributes
  have signs : ∀ used value, Signed signOperator (ExponentialWithin limit derives) used value →
      value.height ≤ bound + 1 + limit + 2 * limit + 1 := fun _ _ signed =>
    signed.height_le signOperator_raises powers
  have products := fun used value (chain : MultiplicativeWithin limit derives used value) =>
    chain.height_le (binaryOperator_raises _) signs
  have sums := fun used value (chain : AdditiveWithin limit derives used value) =>
    chain.height_le (binaryOperator_raises _) products
  have bits := fun used value (chain : BitwiseWithin limit derives used value) =>
    chain.height_le (binaryOperator_raises _) sums
  have comparisons := fun used value (chain : ComparisonWithin limit derives used value) =>
    chain.height_le (binaryOperator_raises _) bits
  have whole := derived.height_le (binaryOperator_raises _) fun used value negated =>
    negated.height_le notOperator_raises comparisons
  omega

/-- **Short chains under a nesting limit give low trees.** -/
theorem derivationWithin_height_le (nesting : ℕ) (used : List Token) (value : ExprAST)
    (derived : DerivationWithin limit nesting used value) :
    value.height ≤ (9 * limit + 2) * nesting := by
  induction nesting generalizing used value with
  | zero => exact derived.elim
  | succ nesting ih =>
      have grown := logicalWithin_height_le ih used value derived
      rw [Nat.mul_succ]
      exact grown

end Low

section Short

variable {derives other : Derives} {limit : ℕ}
  (low : ∀ used value, derives used value → value.height ≤ limit → other used value)

include low

theorem elements_within {used : List Token} {items : List ExprAST}
    (derived : Elements derives used items) (small : elementsHeight items ≤ limit) :
    Elements other used items := by
  induction derived with
  | single derived => exact .single (low _ _ derived (by simpa [elementsHeight] using small))
  | more derived isComma _ ih =>
      rw [elementsHeight] at small
      exact .more (low _ _ derived (by omega)) isComma (ih (by omega))

theorem typeExpr_within {used : List Token} {type : TypeExprAST}
    (derived : TypeExpr derives used type) (small : type.height ≤ limit) :
    TypeExpr other used type := by
  cases derived with
  | scalar derived => exact .scalar derived
  | array derived isOpen marked capacityDerived isClose =>
      rw [TypeExprAST.height, capacityHeight] at small
      exact .array derived isOpen marked (low _ _ capacityDerived (by omega)) isClose

theorem atom_within (used : List Token) (value : ExprAST) (derived : Atom derives used value)
    (small : value.height ≤ limit) : Atom other used value := by
  cases derived with
  | parenthesised isOpen derived isClose =>
      exact .parenthesised isOpen (low _ _ derived small) isClose
  | set isOpen derived isClose =>
      rw [ExprAST.height] at small
      exact .set isOpen (elements_within low derived (by omega)) isClose
  | type derived => exact .type (typeExpr_within low derived small)
  | emptySet isOpen isClose => exact .emptySet isOpen isClose
  | leadingPoint isDot digits touches isLiteral =>
      exact .leadingPoint isDot digits touches isLiteral
  | trueKeyword isTrue => exact .trueKeyword isTrue
  | falseKeyword isFalse => exact .falseKeyword isFalse
  | integer isInteger isLiteral => exact .integer isInteger isLiteral
  | trailingPoint isInteger isDot decimal touches isLiteral =>
      exact .trailingPoint isInteger isDot decimal touches isLiteral
  | real isReal isLiteral => exact .real isReal isLiteral
  | string isString => exact .string isString
  | identifier isName isNoType => exact .identifier isName isNoType

theorem attributes_within (used : List Token) (value : ExprAST)
    (derived : Attributes derives used value) (small : value.height ≤ limit) :
    AttributesWithin limit other used value := by
  have counted : ∃ count ≤ value.height, CountedAttributes other count used value := by
    induction derived with
    | bare derived => exact ⟨0, Nat.zero_le _, .bare (low _ _ derived small)⟩
    | access _ isDot isName free ih =>
        rw [ExprAST.height] at small ⊢
        obtain ⟨count, few, derived⟩ := ih (by omega)
        exact ⟨count + 1, by omega, .access derived isDot isName free⟩
  obtain ⟨count, few, derived⟩ := counted
  exact ⟨count, few.trans small, derived⟩

theorem logical_within (used : List Token) (value : ExprAST) (derived : Logical derives used value)
    (small : value.height ≤ limit) : LogicalWithin limit other used value := by
  have attributes := attributes_within (atom_within low)
  have powers := fun used value (power : Exponential derives used value) =>
    @Power.within _ _ _ _ _ _ _ limit used value attributes (binaryOperator_raises _)
      signOperator_raises power
  have signs := fun used value (signed : Inversion derives used value) =>
    @Signed.within _ _ _ _ _ _ limit used value powers signOperator_raises signed
  have products := fun used value (chain : Multiplicative derives used value) =>
    @Chain.within _ _ _ _ _ _ limit used value signs (binaryOperator_raises _) chain
  have sums := fun used value (chain : Additive derives used value) =>
    @Chain.within _ _ _ _ _ _ limit used value products (binaryOperator_raises _) chain
  have bits := fun used value (chain : Bitwise derives used value) =>
    @Chain.within _ _ _ _ _ _ limit used value sums (binaryOperator_raises _) chain
  have comparisons := fun used value (chain : Comparison derives used value) =>
    @Chain.within _ _ _ _ _ _ limit used value bits (binaryOperator_raises _) chain
  have negations := fun used value (negated : LogicalNot derives used value) =>
    @Prefixed.within _ _ _ _ _ _ limit used value comparisons notOperator_raises negated
  exact Chain.within negations (binaryOperator_raises _) derived small

end Short

/-- **A low tree has short chains.** -/
theorem derivation_within {limit : ℕ} (nesting : ℕ) (used : List Token) (value : ExprAST)
    (derived : Derivation nesting used value) (small : value.height ≤ limit) :
    DerivationWithin limit nesting used value := by
  induction nesting generalizing used value with
  | zero => exact derived.elim
  | succ nesting ih =>
      exact logical_within ih used value derived small

/-- **The trees built from a family of token sequences are bounded exactly when
its operator chains are.** A sequence is what is left of a source text where
`parseExpression` is entered from outside of every expression. -/
theorem height_bounded_iff (entered : Set (List Token)) :
    (∃ multiple, ∀ tokens ∈ entered, ∀ value rest,
        parseExpression tokens = ⟨some value, rest, []⟩ →
          value.height ≤ multiple * kMaxExpressionDepth) ↔
      ∃ limit, ∀ used rest, used ++ rest ∈ entered →
        (∃ value, parseExpression (used ++ rest) = ⟨some value, rest, []⟩) →
          ChainsWithin limit used := by
  constructor
  · intro bounded
    obtain ⟨multiple, low⟩ := bounded
    refine ⟨multiple * kMaxExpressionDepth, fun used rest member accepted => ?_⟩
    obtain ⟨value, parsed⟩ := accepted
    have small := low _ member value rest parsed
    obtain ⟨read, split, derived, _⟩ := parseExpressionWithin_sound _ _ value rest parsed
    rw [List.append_cancel_right split]
    exact ⟨value, derivation_within _ read value derived small⟩
  · intro bounded
    obtain ⟨limit, short⟩ := bounded
    refine ⟨9 * limit + 2, fun tokens member value rest parsed => ?_⟩
    obtain ⟨used, rfl, derived, _⟩ := parseExpressionWithin_sound _ tokens value rest parsed
    obtain ⟨other, within⟩ := short used rest member ⟨value, parsed⟩
    have same : value = other := expression_unique ⟨_, derived⟩ ⟨_, within.derivation⟩
    rw [same]
    exact derivationWithin_height_le _ used other within

/-- `!` a number of times before `true`. -/
def negations (count : ℕ) : List Char :=
  List.replicate count '!' ++ "true".toList

theorem negations_lexed (file : String) (count : ℕ) (line column : UInt32) :
    ∃ tokens column' value, Lexed file ⟨negations count, line, column⟩ tokens ⟨[], line, column'⟩ ∧
      Prefixed notOperator (Comparison (Derivation 0)) tokens value ∧ value.height = count := by
  induction count generalizing column with
  | zero =>
      have ends : EndsWord [] := by
        intro c after same
        cases same
      have lexed := @lexed_word file "true".toList [] (by decide) ends line column
      refine ⟨_, _, .boolean ⟨file, line, column⟩ true, lexed, .bare ?_, rfl⟩
      exact .single (.single (.single (.single (.bare (.bare (.bare (.trueKeyword rfl)))))))
  | succ count ih =>
      obtain ⟨tokens, column', value, lexed, derived, high⟩ := ih (column + 1)
      have opens : OpensOperand (negations count) := by
        intro c after same
        cases count with
        | zero =>
            cases same
            decide
        | succ count =>
            cases same
            decide
      have bang := @lexed_single file '!' .bang (by decide) (negations count) opens line column
      refine ⟨_, column', _, bang.trans lexed, .under rfl derived, ?_⟩
      rw [ExprAST.height, high]

def assertNegations (count : ℕ) : List Char :=
  "@assert ".toList ++ negations count

/-- **No multiple of the limit bounds the trees**: `@assert !…!true` is parsed without errors
into a tree as high as it has negations. -/
theorem height_unbounded : ¬∃ multiple, ∀ text before tokens value rest,
    lex "" text = (before ++ tokens, []) → parseExpression tokens = ⟨some value, rest, []⟩ →
      value.height ≤ multiple * kMaxExpressionDepth := by
  intro bounded
  obtain ⟨multiple, low⟩ := bounded
  have marker : Lexed "" ⟨assertNegations (multiple * kMaxExpressionDepth + 1), 1, 1⟩ _ _ :=
    .step rfl (fun _ => rfl) (Nat.le_refl _)
  have word := @lexed_word "" "assert".toList
    (' ' :: negations (multiple * kMaxExpressionDepth + 1)) (by decide)
    (by intro c after same; cases same; decide) 1 2
  have space := @lexed_space "" (negations (multiple * kMaxExpressionDepth + 1)) 1 8
  obtain ⟨tokens, column, value, lexed, derived, high⟩ :=
    negations_lexed "" (multiple * kMaxExpressionDepth + 1) 1 9
  have whole := (((marker.trans word).trans space).trans lexed).lex
  have ends : EndsBefore expressionBlocked [tokenAt "" ⟨[], 1, column⟩ .eof []] := by
    have notBlocked : TokenKind.eof ∉ expressionBlocked := by decide
    exact endsBefore_cons notBlocked
  have nested : Derivation kMaxExpressionDepth tokens value :=
    @derivation_mono 1 _ (by decide) _ _ (.single derived)
  have parsed := parseExpressionWithin_complete kMaxExpressionDepth tokens value _ nested ends
  rw [List.append_assoc] at whole
  have small := low _ _ _ value _ whole parsed
  omega

end LlvmDsdl.Frontend
