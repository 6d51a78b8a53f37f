import LlvmDsdl.Frontend.Ast
import LlvmDsdl.Semantics.BitLengthSet.Tree
import LlvmDsdl.Support.RationalSet

/-!
Contract: constant-expression evaluation (`Semantics/Evaluator.cpp`).

Owns: evaluated values, the rational and set operators, the answers given from
the symbolic form of `_offset_`, and the recursive evaluator.

An operator of two values is pure: it yields a value or the text of the one
error it reports at the operator. Evaluation runs in any monad, since a type
attribute asks a resolver that may analyse other definitions.
-/

namespace LlvmDsdl.Semantics

open Frontend Support Support.IntegerMath

/-- An evaluated constant. -/
inductive Value where
  | boolean (value : Bool)
  | rational (value : Rational)
  | string (value : String)
  | set (elements : RationalSet)
  | type (type : TypeExprAST)
  | bitLengthSet (set : LengthSet)

/-- `Value::typeName`; the symbolic form of a set is not told apart. -/
def Value.typeName : Value → String
  | boolean _ => "bool"
  | rational _ => "rational"
  | string _ => "string"
  | set _ => "set<rational>"
  | bitLengthSet _ => "set<rational>"
  | type _ => "metaserializable"

/-- What evaluation depends on beside its input: the order of `long double`
quotients, and whether two sets are one object. -/
structure Host where
  longDoubleLess : Rational → Rational → Bool
  sameRoot : LengthSet → LengthSet → Bool
  sameRoot_eq : ∀ lhs rhs, sameRoot lhs rhs = true → lhs = rhs

/-- The ceiling on the elements a symbolic set is materialised to. -/
def kExactMaterializationLimit : ℕ := 16384

/-- `out * base` repeated, given up at the first overflow. -/
def powLoop (base : Rational) : ℕ → Rational → Option Rational
  | 0, out => some out
  | count + 1, out =>
      let next := out.mul base
      if next.overflowed then none else powLoop base count next

def intPow (base exponent : Rational) : Option Rational :=
  match exponent.asWideInteger with
  | none => none
  | some e =>
      if base.equal (.ofInteger 1) then some (.ofInteger 1)
      else if base.equal (.ofInteger 0) then
        if e < 0 then none else if e = 0 then some (.ofInteger 1) else some (.ofInteger 0)
      else if base.equal (.ofInteger (-1)) then
        if e.tmod 2 = 0 then some (.ofInteger 1) else some (.ofInteger (-1))
      else
        (powLoop base e.natAbs (.ofInteger 1)).bind fun out =>
          if e < 0 then
            let inverse := (Rational.ofInteger 1).div out
            if inverse.overflowed then none else some inverse
          else some out

/-- A result that did not overflow. -/
def exactRational (result : Rational) : Option Value :=
  if result.overflowed then none else some (.rational result)

/-- A bitwise operator on two 128-bit integers. -/
def bitwise (op : BitVec 128 → BitVec 128 → BitVec 128) (lhs rhs : Rational) : Option Value :=
  match lhs.asWideInteger, rhs.asWideInteger with
  | some li, some ri =>
      some (.rational (.ofInteger (op (BitVec.ofInt 128 li) (BitVec.ofInt 128 ri)).toInt))
  | _, _ => none

/-- Remainder of two integers, truncated toward zero. -/
def remainder (lhs rhs : Rational) : Option Value :=
  match lhs.asWideInteger, rhs.asWideInteger with
  | some li, some ri =>
      if ri = 0 then none
      else if ri = -1 then some (.rational (.ofInteger 0))
      else some (.rational (.ofInteger (li.tmod ri)))
  | _, _ => none

section Operators

variable (host : Host)

def applyBinaryRational (op : BinaryOp) (lhs rhs : Rational) : Option Value :=
  match op with
  | .pow => (intPow lhs rhs).map .rational
  | .mul => exactRational (lhs.mul rhs)
  | .div => if rhs.equal (.ofInteger 0) then none else exactRational (lhs.div rhs)
  | .mod => remainder lhs rhs
  | .add => exactRational (lhs.add rhs)
  | .sub => exactRational (lhs.sub rhs)
  | .bitOr => bitwise (· ||| ·) lhs rhs
  | .bitXor => bitwise (· ^^^ ·) lhs rhs
  | .bitAnd => bitwise (· &&& ·) lhs rhs
  | .eq => some (.boolean (lhs.equal rhs))
  | .ne => some (.boolean (!lhs.equal rhs))
  | .le => some (.boolean (lhs.lessEqual host.longDoubleLess rhs))
  | .ge => some (.boolean (rhs.lessEqual host.longDoubleLess lhs))
  | .lt => some (.boolean (lhs.less host.longDoubleLess rhs))
  | .gt => some (.boolean (rhs.less host.longDoubleLess lhs))
  | .attribute | .logicalOr | .logicalAnd => none

def applySetBinary (op : BinaryOp) (lhs rhs : RationalSet) : RationalSet :=
  let common := lhs.elements.filter fun x => rhs.contains host.longDoubleLess x
  let onlyLeft := lhs.elements.filter fun x => !rhs.contains host.longDoubleLess x
  let onlyRight := rhs.elements.filter fun x => !lhs.contains host.longDoubleLess x
  match op with
  | .bitOr => lhs.insertAll host.longDoubleLess rhs.elements
  | .bitAnd => RationalSet.empty.insertAll host.longDoubleLess common
  | .bitXor => RationalSet.empty.insertAll host.longDoubleLess (onlyLeft ++ onlyRight)
  | _ => .empty

/-- One row of `applySetElementwise`: a left value against the right values. -/
def elementwiseRow (op : BinaryOp) (a : Rational) :
    List Rational → RationalSet → Option RationalSet
  | [], out => some out
  | b :: rest, out =>
      match applyBinaryRational host op a b with
      | some (.rational value) =>
          elementwiseRow op a rest (out.insert host.longDoubleLess value)
      | _ => none

def elementwiseRows (op : BinaryOp) (right : List Rational) :
    List Rational → RationalSet → Option RationalSet
  | [], out => some out
  | a :: rest, out => (elementwiseRow host op a right out).bind (elementwiseRows op right rest)

def applySetElementwise (op : BinaryOp) (lhs rhs : RationalSet) : Option RationalSet :=
  elementwiseRows host op rhs.elements lhs.elements .empty

def isElementwise : BinaryOp → Bool
  | .pow | .mul | .div | .mod | .add | .sub => true
  | _ => false

/-- An element-wise result, or the error it reports. -/
def elementwise (op : BinaryOp) (lhs rhs : RationalSet) : Except String Value :=
  match applySetElementwise host op lhs rhs with
  | some out => .ok (.set out)
  | none => .error "invalid elementwise set operation"

/-- Every element of one set is found in the other. -/
def isContained (lhs rhs : RationalSet) : Bool :=
  lhs.elements.all (rhs.contains host.longDoubleLess)

def unsupportedOperands (lhs rhs : Value) : Except String Value :=
  .error ("unsupported operand types: " ++ lhs.typeName ++ " and " ++ rhs.typeName)

def concreteBinary (op : BinaryOp) (lhs rhs : Value) : Except String Value :=
  match lhs, rhs with
  | .rational l, .rational r =>
      match applyBinaryRational host op l r with
      | some value => .ok value
      | none => .error "invalid rational operation"
  | .boolean l, .boolean r =>
      match op with
      | .logicalOr => .ok (.boolean (l || r))
      | .logicalAnd => .ok (.boolean (l && r))
      | .eq => .ok (.boolean (l == r))
      | .ne => .ok (.boolean (l != r))
      | _ => unsupportedOperands lhs rhs
  | .string l, .string r =>
      match op with
      | .add => .ok (.string (l ++ r))
      | .eq => .ok (.boolean (l == r))
      | .ne => .ok (.boolean (l != r))
      | _ => unsupportedOperands lhs rhs
  | .set l, .set r =>
      match op with
      | .eq => .ok (.boolean (l.equal r))
      | .ne => .ok (.boolean (!l.equal r))
      | .le => .ok (.boolean (isContained host l r))
      | .lt => .ok (.boolean (isContained host l r && !l.equal r))
      | .ge => .ok (.boolean (isContained host r l))
      | .gt => .ok (.boolean (isContained host r l && !l.equal r))
      | .bitOr | .bitAnd | .bitXor => .ok (.set (applySetBinary host op l r))
      | _ => if isElementwise op then elementwise host op l r else unsupportedOperands lhs rhs
  | .set l, .rational r =>
      if isElementwise op then elementwise host op l (.singleton r)
      else unsupportedOperands lhs rhs
  | .rational l, .set r =>
      if isElementwise op then elementwise host op (.singleton l) r
      else unsupportedOperands lhs rhs
  | _, _ => unsupportedOperands lhs rhs

/-- The report on a set too large to list. -/
def notMaterialised : String :=
  "this expression requires the full contents of '_offset_', which cannot be materialised " ++
    "exactly within the evaluator's capacity of 16384 values; rewrite using '_offset_.min', " ++
    "'_offset_.max', '_offset_.count', '_offset_ % <divisor>', or a set comparison, which use " ++
    "exact-or-refuse symbolic evaluation"

def materializeExact (set : LengthSet) : Except String RationalSet :=
  match set.runSet with
  | some runs =>
      match runs.materialize kExactMaterializationLimit with
      | some values => .ok (.ofFlatSet host.longDoubleLess values)
      | none => .error notMaterialised
  | none =>
      let expansion := set.expandChecked kExactMaterializationLimit
      if expansion.exact then .ok (.ofFlatSet host.longDoubleLess expansion.values)
      else .error notMaterialised

/-- `literalElementAsInt`: the integer an element stands for, if 64 bits hold it. -/
def literalElementAsInt (element : Rational) : Option ℤ :=
  element.asWideInteger.bind fun wide => if InInt64 wide then some wide else none

def memberOfRuns (runs : RunSet) (element : Rational) : Bool :=
  (literalElementAsInt element).any runs.contains

def undecidedComparison : String :=
  "cannot decide this '_offset_' set comparison exactly within the evaluator's capacity of " ++
    "16384 values; compare '_offset_.min'/'_offset_.max' or '_offset_ % <divisor>' instead"

/-- The steps of `decideSetEquality` that use an expansion. -/
def decideByExpansion (set : LengthSet) (literal : RationalSet) : Except String Bool :=
  let expansion := set.expandChecked kExactMaterializationLimit
  let values := RationalSet.ofFlatSet host.longDoubleLess expansion.values
  if expansion.exact then .ok (values.equal literal)
  else if values.size > literal.size then .ok false
  else if values.elements.any fun v => !literal.contains host.longDoubleLess v then .ok false
  else .error undecidedComparison

def decideSetEquality (set : LengthSet) (literal : RationalSet) : Except String Bool :=
  match literal.elements.head?, literal.elements.getLast? with
  | some first, some last =>
      if !first.equal (.ofInteger set.min) || !last.equal (.ofInteger set.max) then .ok false
      else
        match set.runSet.bind fun runs => runs.count.map fun total => (runs, total) with
        | some (runs, total) =>
            if total ≠ literal.size then .ok false
            else .ok (literal.elements.all (memberOfRuns runs))
        | none => decideByExpansion host set literal
  | _, _ => .ok false

/-- The three verdicts an ordered comparison of a symbolic set uses. -/
structure SetRelation where
  literalInSet : Option Bool
  setInLiteral : Option Bool
  sameCardinality : Option Bool

def relationByRuns (runs : RunSet) (total : ℤ) (literal : RationalSet) : SetRelation :=
  let members := literal.elements.filter (memberOfRuns runs)
  { literalInSet := some (literal.elements.all (memberOfRuns runs))
    setInLiteral := some (total ≤ literal.size && (members.length : ℤ) == total)
    sameCardinality := some (total == literal.size) }

/-- The verdict on one literal element against an incomplete expansion: outside,
inside, or undecided. -/
def placeElement (set : LengthSet) (values : RationalSet) (element : Rational) : Option Bool :=
  if element.equal (.ofInteger set.min) || element.equal (.ofInteger set.max) ||
      values.contains host.longDoubleLess element then some true
  else
    match literalElementAsInt element with
    | some v => if v < set.min ∨ v > set.max then some false else none
    | none => some false

def relationByExpansion (set : LengthSet) (literal : RationalSet) : SetRelation :=
  let expansion := set.expandChecked kExactMaterializationLimit
  let values := RationalSet.ofFlatSet host.longDoubleLess expansion.values
  if expansion.exact then
    { literalInSet := some (isContained host literal values)
      setInLiteral := some (isContained host values literal)
      sameCardinality := some (values.size == literal.size) }
  else
    let places := literal.elements.map (placeElement host set values)
    { literalInSet :=
        if places.any (· == some false) then some false
        else if places.all (· == some true) then some true
        else none
      setInLiteral :=
        if !literal.contains host.longDoubleLess (.ofInteger set.min) ||
            !literal.contains host.longDoubleLess (.ofInteger set.max) ||
            values.size > literal.size ||
            values.elements.any fun v => !literal.contains host.longDoubleLess v then
          some false
        else none
      sameCardinality := none }

def setRelation (set : LengthSet) (literal : RationalSet) : SetRelation :=
  match set.runSet.bind fun runs => runs.count.map fun total => (runs, total) with
  | some (runs, total) => relationByRuns runs total literal
  | none => relationByExpansion host set literal

/-- A strict containment from the containment and the cardinalities. -/
def strictly (contained sameCardinality : Option Bool) : Option Bool :=
  match contained with
  | some false => some false
  | some true => sameCardinality.map (!·)
  | none => none

/-- The verdict of an ordered comparison, from both containments. -/
def orderedVerdict (op : BinaryOp) (subset superset sameCardinality : Option Bool) :
    Option Bool :=
  match op with
  | .le => subset
  | .lt => strictly subset sameCardinality
  | .ge => superset
  | _ => strictly superset sameCardinality

def undecidedSymbolic : String :=
  "cannot decide this '_offset_' set comparison exactly within the evaluator's symbolic " ++
    "operation budget"

def symbolicEquality (op : BinaryOp) (lhs rhs : LengthSet) : Except String Value :=
  match LengthSet.equalsExact (host.sameRoot lhs rhs) lhs rhs with
  | none => .error undecidedSymbolic
  | some equal => .ok (.boolean (if op = .eq then equal else !equal))

def symbolicOrder (op : BinaryOp) (lhs rhs : LengthSet) : Except String Value :=
  match LengthSet.isSubsetOfExact (host.sameRoot lhs rhs) lhs rhs,
      LengthSet.isSubsetOfExact (host.sameRoot rhs lhs) rhs lhs with
  | some subset, some superset =>
      let equivalent := subset && superset
      match op with
      | .le => .ok (.boolean subset)
      | .lt => .ok (.boolean (subset && !equivalent))
      | .ge => .ok (.boolean superset)
      | _ => .ok (.boolean (superset && !equivalent))
  | _, _ => .error undecidedSymbolic

/-- `_offset_ % k`; `none` where the dispatch falls through. -/
def symbolicRemainder (set : LengthSet) (divisor : Rational) : Option (Except String Value) :=
  match divisor.asWideInteger with
  | none => none
  | some d =>
      if d = 0 then some (.error "invalid elementwise set operation")
      else if (d.natAbs : ℤ) ≤ int64Max then
        (set.modulo d.natAbs).map fun residues =>
          .ok (.set (.ofFlatSet host.longDoubleLess residues))
      else none

/-- `_offset_ + c`; `none` where the dispatch falls through. -/
def symbolicSum (set : LengthSet) (addend : Rational) : Option (Except String Value) :=
  match addend.asWideInteger with
  | none => none
  | some wide =>
      if 0 ≤ wide ∧ wide ≤ int64Max then some (.ok (.bitLengthSet (set.add (.ofValue wide))))
      else none

/-- The answer of an equality of a symbolic set and a literal. -/
def literalEquality (op : BinaryOp) (set : LengthSet) (literal : RationalSet) :
    Except String Value :=
  (decideSetEquality host set literal).map fun equal =>
    .boolean (if op = .eq then equal else !equal)

/-- The block on symbolic operands; `none` where the dispatch falls through. -/
def symbolicBinary (op : BinaryOp) (lhs rhs : Value) : Option (Except String Value) :=
  match op, lhs, rhs with
  | .mod, .bitLengthSet set, .rational divisor => symbolicRemainder host set divisor
  | .eq, .bitLengthSet l, .bitLengthSet r => some (symbolicEquality host op l r)
  | .ne, .bitLengthSet l, .bitLengthSet r => some (symbolicEquality host op l r)
  | .eq, .bitLengthSet set, .set literal => some (literalEquality host op set literal)
  | .ne, .bitLengthSet set, .set literal => some (literalEquality host op set literal)
  | .eq, .set literal, .bitLengthSet set => some (literalEquality host op set literal)
  | .ne, .set literal, .bitLengthSet set => some (literalEquality host op set literal)
  | .add, .bitLengthSet set, .rational addend => symbolicSum set addend
  | .add, .rational addend, .bitLengthSet set => symbolicSum set addend
  | op, .bitLengthSet l, .bitLengthSet r =>
      if op = .le ∨ op = .lt ∨ op = .ge ∨ op = .gt then some (symbolicOrder host op l r) else none
  | op, .bitLengthSet set, .set literal =>
      if op = .le ∨ op = .lt ∨ op = .ge ∨ op = .gt then
        let relation := setRelation host set literal
        (orderedVerdict op relation.setInLiteral relation.literalInSet
          relation.sameCardinality).map fun verdict => .ok (.boolean verdict)
      else none
  | op, .set literal, .bitLengthSet set =>
      if op = .le ∨ op = .lt ∨ op = .ge ∨ op = .gt then
        let relation := setRelation host set literal
        (orderedVerdict op relation.literalInSet relation.setInLiteral
          relation.sameCardinality).map fun verdict => .ok (.boolean verdict)
      else none
  | _, _, _ => none

def concreteOperand : Value → Except String Value
  | .bitLengthSet set => (materializeExact host set).map .set
  | value => .ok value

/-- `evaluateBinary` on evaluated operands. -/
def applyBinary (op : BinaryOp) (lhs rhs : Value) : Except String Value :=
  match symbolicBinary host op lhs rhs with
  | some answer => answer
  | none => do
      let left ← concreteOperand host lhs
      let right ← concreteOperand host rhs
      concreteBinary host op left right

def symbolicCount (set : LengthSet) : Except String Value :=
  if set.fixed then .ok (.rational (.ofInteger 1))
  else
    match set.runSet.bind RunSet.count with
    | some total => .ok (.rational (.ofInteger total))
    | none => (materializeExact host set).map fun elements =>
        .rational (.ofInteger elements.size)

/-- The attribute operator on a value that is not a type. -/
def setAttribute (lhs : Value) (name : String) : Except String Value :=
  let undefinedOn : Except String Value :=
    .error ("attribute operator is not defined on " ++ lhs.typeName)
  match lhs with
  | .bitLengthSet set =>
      if name = "min" then .ok (.rational (.ofInteger set.min))
      else if name = "max" then .ok (.rational (.ofInteger set.max))
      else if name = "count" then symbolicCount host set
      else undefinedOn
  | .set elements =>
      if name = "count" then .ok (.rational (.ofInteger elements.size))
      else
        match elements.elements.head?, elements.elements.getLast? with
        | some first, some last =>
            if name = "min" then .ok (.rational first)
            else if name = "max" then .ok (.rational last)
            else undefinedOn
        | _, _ => .error "cannot access set min/max on an empty set literal"
  | _ => undefinedOn

def applyUnary (op : UnaryOp) (operand : Value) : Except String Value :=
  match op, operand with
  | .logicalNot, .boolean value => .ok (.boolean !value)
  | .logicalNot, _ => .error "logical not requires boolean operand"
  | .minus, .rational value => .ok (.rational value.neg)
  | .plus, .rational value => .ok (.rational value)
  | _, _ => .error "unary +/- requires rational operand"

end Operators

abbrev Diagnosed (m : Type → Type) := StateT (List Diagnostic) m

section Evaluation

variable {m : Type → Type} [Monad m]

def reportError (location : SourceLocation) (message : String) : Diagnosed m Unit :=
  modify (· ++ [⟨.error, location, message, none⟩])

/-- Report an error and fail. -/
def refuse {α : Type} (location : SourceLocation) (message : String) : Diagnosed m (Option α) := do
  reportError location message
  pure none

/-- A pure result, its error reported at `location`. -/
def settle (location : SourceLocation) : Except String Value → Diagnosed m (Option Value)
  | .ok value => pure (some value)
  | .error message => refuse location message

/-- The symbol table. -/
abbrev ValueEnv := String → Option Value

abbrev TypeAttributeResolver (m : Type → Type) :=
  TypeExprAST → String → SourceLocation → Diagnosed m (Option Value)

variable (host : Host) (env : ValueEnv) (resolver : Option (TypeAttributeResolver m))

def applyAttribute (location : SourceLocation) (lhs : Value) (name : String) :
    Diagnosed m (Option Value) :=
  match lhs, resolver with
  | .type type, some resolve => resolve type name location
  | .type _, none =>
      if name = "_extent_" then pure (some (.rational (.ofInteger 0)))
      else refuse location ("unsupported metaserializable attribute: " ++ name)
  | value, _ => settle location (setAttribute host value name)

mutual

def evaluate : ExprAST → Diagnosed m (Option Value)
  | .boolean _ value => pure (some (.boolean value))
  | .rational _ value => pure (some (.rational value))
  | .string _ value => pure (some (.string value))
  | .identifier location name =>
      match env name with
      | some value => pure (some value)
      | none => refuse location ("undefined identifier: " ++ name)
  | .unary location op operand => do
      match ← evaluate operand with
      | none => pure none
      | some value => settle location (applyUnary op value)
  | .binary location .attribute lhs rhs => do
      match ← evaluate lhs with
      | none => pure none
      | some value =>
          match rhs with
          | .identifier _ name => applyAttribute host resolver location value name
          | _ => refuse location "attribute operator expects identifier on RHS"
  | .binary location op lhs rhs => do
      let left ← evaluate lhs
      let right ← evaluate rhs
      match left, right with
      | some leftValue, some rightValue =>
          settle location (applyBinary host op leftValue rightValue)
      | _, _ => pure none
  | .setLiteral _ elements => do
      pure ((← evaluateElements elements .empty).map .set)
  | .typeLiteral _ type => pure (some (.type type))

/-- The elements of a set literal, inserted in order. -/
def evaluateElements : List ExprAST → RationalSet → Diagnosed m (Option RationalSet)
  | [], set => pure (some set)
  | element :: rest, set => do
      match ← evaluate element with
      | none => pure none
      | some (.rational value) => evaluateElements rest (set.insert host.longDoubleLess value)
      | some _ => refuse element.location "set literal elements must evaluate to rational"

end

/-- `evaluateExpression`: a failure that reported nothing is reported here. -/
def evaluateExpression (expr : ExprAST) (location : SourceLocation) :
    Diagnosed m (Option Value) := do
  let beforeDiagnostics := (← get).length
  match ← evaluate host env resolver expr with
  | some value => pure (some value)
  | none =>
      if (← get).length = beforeDiagnostics then
        refuse location "failed to evaluate expression"
      else pure none

end Evaluation

end LlvmDsdl.Semantics
