import LlvmDsdl.Library.Parsing

/-!
Contract: operator chains with the number of their operators.

Owns: chains, prefixes and powers of at most so many operators, how high the
trees of such a chain grow over those of its operands, and that a low tree has
short chains.

A height is any measure by which an operator's tree is one above the higher of
its operands.
-/

namespace LlvmDsdl.Library.Parsing

variable {τ α : Type*}

section Relations

variable (binary : τ → Option (α → α → α)) (unary : τ → Option (α → α))
  (derives : List τ → α → Prop)

inductive CountedChain : ℕ → List τ → α → Prop where
  | single {used : List τ} {value : α} (derived : derives used value) : CountedChain 0 used value
  | more {count : ℕ} {used right : List τ} {lhs rhs : α} {op : τ} {combine : α → α → α}
      (left : CountedChain count used lhs) (isOperator : binary op = some combine)
      (derived : derives right rhs) :
      CountedChain (count + 1) (used ++ op :: right) (combine lhs rhs)

inductive CountedPrefix : ℕ → List τ → α → Prop where
  | bare {used : List τ} {value : α} (derived : derives used value) : CountedPrefix 0 used value
  | under {count : ℕ} {used : List τ} {value : α} {op : τ} {apply : α → α}
      (isOperator : unary op = some apply) (derived : CountedPrefix count used value) :
      CountedPrefix (count + 1) (op :: used) (apply value)

/-- A power of a number of powers, each with at most one sign. -/
inductive CountedPower : ℕ → List τ → α → Prop where
  | bare {used : List τ} {value : α} (derived : derives used value) : CountedPower 0 used value
  | raised {count : ℕ} {used right : List τ} {lhs rhs : α} {op : τ} {combine : α → α → α}
      (left : derives used lhs) (isPower : binary op = some combine)
      (exponent : CountedPower count right rhs) :
      CountedPower (count + 1) (used ++ op :: right) (combine lhs rhs)
  | raisedSigned {count : ℕ} {used right : List τ} {lhs rhs : α} {op signOp : τ}
      {combine : α → α → α} {apply : α → α} (left : derives used lhs)
      (isPower : binary op = some combine) (isSign : unary signOp = some apply)
      (exponent : CountedPower count right rhs) :
      CountedPower (count + 1) (used ++ op :: signOp :: right) (combine lhs (apply rhs))

def ChainWithin (limit : ℕ) (used : List τ) (value : α) : Prop :=
  ∃ count ≤ limit, CountedChain binary derives count used value

def PrefixedWithin (limit : ℕ) (used : List τ) (value : α) : Prop :=
  ∃ count ≤ limit, CountedPrefix unary derives count used value

def PowerWithin (limit : ℕ) (used : List τ) (value : α) : Prop :=
  ∃ count ≤ limit, CountedPower binary unary derives count used value

end Relations

section Erased

variable {binary : τ → Option (α → α → α)} {unary : τ → Option (α → α)}
  {derives other : List τ → α → Prop} {limit : ℕ} {used : List τ} {value : α}
  (sub : ∀ used value, derives used value → other used value)

include sub

theorem ChainWithin.chain (chain : ChainWithin binary derives limit used value) :
    Chain binary other used value := by
  obtain ⟨count, few, chain⟩ := chain
  clear few
  induction chain with
  | single derived => exact .single (sub _ _ derived)
  | more _ isOperator derived ih =>
      exact .more ih isOperator (sub _ _ derived)

theorem PrefixedWithin.prefixed (derived : PrefixedWithin unary derives limit used value) :
    Prefixed unary other used value := by
  obtain ⟨count, few, derived⟩ := derived
  clear few
  induction derived with
  | bare derived => exact .bare (sub _ _ derived)
  | under isOperator _ ih => exact .under isOperator ih

theorem PowerWithin.power (derived : PowerWithin binary unary derives limit used value) :
    Power binary unary other used value := by
  obtain ⟨count, few, derived⟩ := derived
  clear few
  induction derived with
  | bare derived => exact .bare (sub _ _ derived)
  | raised left isPower _ ih =>
      exact .raised (sub _ _ left) isPower ih
  | raisedSigned left isPower isSign _ ih =>
      exact .raisedSigned (sub _ _ left) isPower isSign ih

end Erased

/-- A binary operator's tree is one above its higher operand. -/
def RaisesBinary (height : α → ℕ) (binary : τ → Option (α → α → α)) : Prop :=
  ∀ op combine lhs rhs, binary op = some combine →
    height (combine lhs rhs) = max (height lhs) (height rhs) + 1

/-- A unary operator's tree is one above its operand. -/
def RaisesUnary (height : α → ℕ) (unary : τ → Option (α → α)) : Prop :=
  ∀ op apply value, unary op = some apply → height (apply value) = height value + 1

section Heights

variable {height : α → ℕ} {binary : τ → Option (α → α → α)} {unary : τ → Option (α → α)}
  {derives other : List τ → α → Prop} {bound limit : ℕ} {used : List τ} {value : α}

theorem ChainWithin.height_le (raises : RaisesBinary height binary)
    (below : ∀ used value, derives used value → height value ≤ bound)
    (chain : ChainWithin binary derives limit used value) : height value ≤ bound + limit := by
  obtain ⟨count, few, chain⟩ := chain
  have counted : height value ≤ bound + count := by
    clear few
    induction chain with
    | single derived => exact below _ _ derived
    | @more count used right lhs rhs op combine left isOperator derived ih =>
        have rightBelow := below _ _ derived
        rw [raises op combine lhs rhs isOperator]
        omega
  omega

theorem PrefixedWithin.height_le (raises : RaisesUnary height unary)
    (below : ∀ used value, derives used value → height value ≤ bound)
    (derived : PrefixedWithin unary derives limit used value) :
    height value ≤ bound + limit := by
  obtain ⟨count, few, derived⟩ := derived
  have counted : height value ≤ bound + count := by
    clear few
    induction derived with
    | bare derived => exact below _ _ derived
    | @under count used value op apply isOperator _ ih =>
        rw [raises op apply value isOperator]
        omega
  omega

theorem Signed.height_le (raises : RaisesUnary height unary)
    (below : ∀ used value, derives used value → height value ≤ bound)
    (derived : Signed unary derives used value) : height value ≤ bound + 1 := by
  cases derived with
  | bare derived => exact Nat.le_succ_of_le (below _ _ derived)
  | @under used value op apply isOperator derived =>
      have operandBelow := below _ _ derived
      rw [raises op apply value isOperator]
      omega

theorem PowerWithin.height_le (raisesBinary : RaisesBinary height binary)
    (raisesUnary : RaisesUnary height unary)
    (below : ∀ used value, derives used value → height value ≤ bound)
    (derived : PowerWithin binary unary derives limit used value) :
    height value ≤ bound + 2 * limit := by
  obtain ⟨count, few, derived⟩ := derived
  have counted : height value ≤ bound + 2 * count := by
    clear few
    induction derived with
    | bare derived => exact below _ _ derived
    | @raised count used right lhs rhs op combine left isPower _ ih =>
        have leftBelow := below _ _ left
        rw [raisesBinary op combine lhs rhs isPower]
        omega
    | @raisedSigned count used right lhs rhs op signOp combine apply left isPower isSign _
        ih =>
        have leftBelow := below _ _ left
        rw [raisesBinary op combine lhs _ isPower, raisesUnary signOp apply rhs isSign]
        omega
  omega

section Low

variable (low : ∀ used value, derives used value → height value ≤ limit → other used value)

include low

theorem Chain.within (raises : RaisesBinary height binary)
    (chain : Chain binary derives used value) (small : height value ≤ limit) :
    ChainWithin binary other limit used value := by
  have counted : ∃ count ≤ height value, CountedChain binary other count used value := by
    induction chain with
    | single derived => exact ⟨0, Nat.zero_le _, .single (low _ _ derived small)⟩
    | @more used right lhs rhs op combine left isOperator derived ih =>
        have above := raises op combine lhs rhs isOperator
        obtain ⟨count, few, chain⟩ := ih (by omega)
        exact ⟨count + 1, by omega, .more chain isOperator (low _ _ derived (by omega))⟩
  obtain ⟨count, few, chain⟩ := counted
  exact ⟨count, Nat.le_trans few small, chain⟩

theorem Prefixed.within (raises : RaisesUnary height unary)
    (derived : Prefixed unary derives used value) (small : height value ≤ limit) :
    PrefixedWithin unary other limit used value := by
  have counted : ∃ count ≤ height value, CountedPrefix unary other count used value := by
    induction derived with
    | bare derived => exact ⟨0, Nat.zero_le _, .bare (low _ _ derived small)⟩
    | @under used value op apply isOperator derived ih =>
        have above := raises op apply value isOperator
        obtain ⟨count, few, derived⟩ := ih (by omega)
        exact ⟨count + 1, by omega, .under isOperator derived⟩
  obtain ⟨count, few, derived⟩ := counted
  exact ⟨count, Nat.le_trans few small, derived⟩

theorem Signed.within (raises : RaisesUnary height unary)
    (derived : Signed unary derives used value) (small : height value ≤ limit) :
    Signed unary other used value := by
  cases derived with
  | bare derived => exact .bare (low _ _ derived small)
  | @under used value op apply isOperator derived =>
      have above := raises op apply value isOperator
      exact .under isOperator (low _ _ derived (by omega))

theorem Power.within (raisesBinary : RaisesBinary height binary)
    (raisesUnary : RaisesUnary height unary) (derived : Power binary unary derives used value)
    (small : height value ≤ limit) : PowerWithin binary unary other limit used value := by
  have counted : ∃ count ≤ height value, CountedPower binary unary other count used value := by
    induction derived with
    | bare derived => exact ⟨0, Nat.zero_le _, .bare (low _ _ derived small)⟩
    | @raised used right lhs rhs op combine left isPower exponent ih =>
        have above := raisesBinary op combine lhs rhs isPower
        obtain ⟨count, few, power⟩ := ih (by omega)
        exact ⟨count + 1, by omega, .raised (low _ _ left (by omega)) isPower power⟩
    | @raisedSigned used right lhs rhs op signOp combine apply left isPower isSign exponent
        ih =>
        have above := raisesBinary op combine lhs (apply rhs) isPower
        have signAbove := raisesUnary signOp apply rhs isSign
        obtain ⟨count, few, power⟩ := ih (by omega)
        exact ⟨count + 1, by omega, .raisedSigned (low _ _ left (by omega)) isPower isSign power⟩
  obtain ⟨count, few, derived⟩ := counted
  exact ⟨count, Nat.le_trans few small, derived⟩

end Low

end Heights

end LlvmDsdl.Library.Parsing
