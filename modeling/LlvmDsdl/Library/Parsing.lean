import Mathlib.Data.List.Basic

/-!
Contract: recursive-descent parsers that record errors and go on.

Owns: what such a parser returns, when it is sound and complete for a relation
between what is read and its value, what tokens it is made of, and chains of
operators: left-associative ones, prefixes, and a right-associative operator whose
right side may carry a sign.

A parser is complete for texts with a continuation, since it reads as far as it can.
-/

namespace LlvmDsdl.Library.Parsing

/-- The value, unless there is none, what is left, and the errors. -/
structure Parsed (τ ε α : Type*) where
  value : Option α
  rest : List τ
  errors : List ε
  deriving DecidableEq

abbrev Parser (τ ε α : Type*) := List τ → Parsed τ ε α

variable {τ ε α : Type*}

/-! ### Sound and complete parsers -/

/-- A value without errors is one of what was read, and what is left may follow it. -/
def Sound (parser : Parser τ ε α) (derives : List τ → α → Prop)
    (stops : List τ → List τ → Prop) : Prop :=
  ∀ tokens value rest, parser tokens = ⟨some value, rest, []⟩ →
    ∃ used, tokens = used ++ rest ∧ derives used value ∧ stops used rest

/-- A value of a text is returned without errors, when the rest may follow. -/
def Complete (parser : Parser τ ε α) (derives : List τ → α → Prop)
    (follows : List τ → List τ → Prop) : Prop :=
  ∀ used value rest, derives used value → follows used rest →
    parser (used ++ rest) = ⟨some value, rest, []⟩

/-- A parser that returns no value has recorded an error. -/
def Loud (parser : Parser τ ε α) : Prop :=
  ∀ tokens, (parser tokens).value = none → (parser tokens).errors ≠ []

theorem Loud.not_silent {parser : Parser τ ε α} (loud : Loud parser) {tokens rest : List τ} :
    parser tokens ≠ ⟨none, rest, []⟩ := by
  intro silent
  apply loud tokens
  · rw [silent]
  · rw [silent]

theorem Complete.unique {parser : Parser τ ε α} {derives : List τ → α → Prop}
    {follows : List τ → List τ → Prop} (complete : Complete parser derives follows)
    {used rest : List τ} {value other : α} (follow : follows used rest)
    (derived : derives used value) (otherDerived : derives used other) : value = other := by
  have same := (complete used value rest derived follow).symm.trans
    (complete used other rest otherDerived follow)
  exact Option.some.inj (congrArg Parsed.value same)

def MadeOf (property : τ → Prop) (derives : List τ → α → Prop) : Prop :=
  ∀ used value, derives used value → ∀ token ∈ used, property token

section LeftChain

variable (operator : τ → Option (α → α → α)) (missing : τ → ε) (operand : Parser τ ε α)

/-- Operators and right sides after a left side. -/
def chainFrom : ℕ → α → List τ → List ε → Parsed τ ε α
  | 0, lhs, rest, errors => ⟨some lhs, rest, errors⟩
  | _ + 1, lhs, [], errors => ⟨some lhs, [], errors⟩
  | fuel + 1, lhs, op :: after, errors =>
      match operator op with
      | none => ⟨some lhs, op :: after, errors⟩
      | some combine =>
          match operand after with
          | ⟨none, rest, found⟩ => ⟨some lhs, rest, errors ++ found ++ [missing op]⟩
          | ⟨some rhs, rest, found⟩ => chainFrom fuel (combine lhs rhs) rest (errors ++ found)

/-- `operand (operator operand)*`; every turn reads an operator. -/
def leftChain : Parser τ ε α := fun tokens =>
  match operand tokens with
  | ⟨none, rest, errors⟩ => ⟨none, rest, errors⟩
  | ⟨some lhs, rest, errors⟩ => chainFrom operator missing operand rest.length lhs rest errors

/-- `operand (operator operand)*`, associated to the left. -/
inductive Chain (derives : List τ → α → Prop) : List τ → α → Prop where
  | single {used : List τ} {value : α} (derived : derives used value) : Chain derives used value
  | more {used right : List τ} {lhs rhs : α} {op : τ} {combine : α → α → α}
      (left : Chain derives used lhs) (isOperator : operator op = some combine)
      (derived : derives right rhs) : Chain derives (used ++ op :: right) (combine lhs rhs)

variable {operator missing operand} {derives : List τ → α → Prop}
  {follows stops : List τ → List τ → Prop}

theorem Chain.mono {other : List τ → α → Prop}
    (sub : ∀ used value, derives used value → other used value) {used : List τ} {value : α}
    (chain : Chain operator derives used value) : Chain operator other used value := by
  induction chain with
  | single derived => exact .single (sub _ _ derived)
  | more _ isOperator derived ih =>
      exact .more ih isOperator (sub _ _ derived)

theorem Chain.madeOf {property : τ → Prop} (operands : MadeOf property derives)
    (operators : ∀ op combine, operator op = some combine → property op) :
    MadeOf property (Chain operator derives) := by
  intro used value chain
  induction chain with
  | single derived => exact operands _ _ derived
  | more _ isOperator derived ih =>
      intro token member
      rcases List.mem_append.mp member with left | right
      · exact ih token left
      · rcases List.mem_cons.mp right with rfl | later
        · exact operators _ _ isOperator
        · exact operands _ _ derived token later

theorem chainFrom_errors (fuel : ℕ) (lhs : α) (tokens : List τ) (errors : List ε) :
    ∃ found, (chainFrom operator missing operand fuel lhs tokens errors).errors =
      errors ++ found := by
  induction fuel generalizing lhs tokens errors with
  | zero => exact ⟨[], (List.append_nil errors).symm⟩
  | succ fuel ih =>
      cases tokens with
      | nil => exact ⟨[], (List.append_nil errors).symm⟩
      | cons op after =>
          rw [chainFrom]
          cases operator op with
          | none => exact ⟨[], (List.append_nil errors).symm⟩
          | some combine =>
              rcases operand after with ⟨_ | rhs, rest, right⟩
              · exact ⟨right ++ [missing op], List.append_assoc _ _ _⟩
              · have ⟨found, same⟩ := ih (combine lhs rhs) rest (errors ++ right)
                exact ⟨right ++ found, same.trans (List.append_assoc _ _ _)⟩

theorem chainFrom_sound (sound : Sound operand derives stops) {fuel : ℕ} {lhs value : α}
    {used tokens rest : List τ} (left : Chain operator derives used lhs)
    (parsed : chainFrom operator missing operand fuel lhs tokens [] = ⟨some value, rest, []⟩) :
    ∃ more, used ++ tokens = more ++ rest ∧ Chain operator derives more value := by
  induction fuel generalizing lhs used tokens with
  | zero =>
      cases parsed
      exact ⟨used, rfl, left⟩
  | succ fuel ih =>
      cases tokens with
      | nil =>
          cases parsed
          exact ⟨used, rfl, left⟩
      | cons op after =>
          rw [chainFrom] at parsed
          cases isOperator : operator op with
          | none =>
              rw [isOperator] at parsed
              cases parsed
              exact ⟨used, rfl, left⟩
          | some combine =>
              rw [isOperator] at parsed
              dsimp only at parsed
              rcases right : operand after with ⟨_ | rhs, left', found⟩
              · rw [right] at parsed
                have noErrors := congrArg Parsed.errors parsed
                exact absurd noErrors (List.append_ne_nil_of_right_ne_nil _ (List.cons_ne_nil _ _))
              · rw [right] at parsed
                dsimp only at parsed
                have ⟨later, kept⟩ := @chainFrom_errors τ ε α operator missing operand fuel
                  (combine lhs rhs) left' ([] ++ found)
                rw [parsed, List.nil_append] at kept
                have quiet : found = [] := (List.append_eq_nil_iff.mp kept.symm).1
                rw [quiet] at right parsed
                have ⟨mid, split, derived, _⟩ := sound after rhs left' right
                have ⟨more, whole, chain⟩ := ih (.more left isOperator derived) parsed
                refine ⟨more, ?_, chain⟩
                rw [← whole, split, List.append_assoc, List.cons_append]

theorem leftChain_sound (sound : Sound operand derives stops) :
    Sound (leftChain operator missing operand) (Chain operator derives) fun _ _ => True := by
  intro tokens value rest parsed
  unfold leftChain at parsed
  rcases first : operand tokens with ⟨_ | lhs, after, errors⟩
  · rw [first] at parsed
    cases parsed
  · rw [first] at parsed
    dsimp only at parsed
    have ⟨later, kept⟩ := @chainFrom_errors τ ε α operator missing operand after.length lhs after
      errors
    rw [parsed] at kept
    have quiet : errors = [] := (List.append_eq_nil_iff.mp kept.symm).1
    rw [quiet] at first parsed
    have ⟨used, split, derived, _⟩ := sound tokens lhs after first
    have ⟨more, whole, chain⟩ := chainFrom_sound sound (.single derived) parsed
    exact ⟨more, split.trans whole, chain, trivial⟩

theorem chainFrom_ends (fuel : ℕ) (lhs : α) (rest : List τ) (errors : List ε)
    (ends : ∀ op after, rest = op :: after → operator op = none) :
    chainFrom operator missing operand fuel lhs rest errors = ⟨some lhs, rest, errors⟩ := by
  cases fuel with
  | zero => rfl
  | succ fuel =>
      cases rest with
      | nil => rfl
      | cons op after => rw [chainFrom, ends op after rfl]

/-- A chain of complete operands reaches the operator that goes on with it. -/
theorem leftChain_reaches (complete : Complete operand derives follows)
    (operators : ∀ used op after, operator op ≠ none → follows used (op :: after))
    {used : List τ} {value : α} (chain : Chain operator derives used value) {rest : List τ}
    (follow : ∀ used, follows used rest) :
    ∃ fuel, rest.length ≤ fuel ∧ leftChain operator missing operand (used ++ rest) =
      chainFrom operator missing operand fuel value rest [] := by
  induction chain generalizing rest with
  | single derived =>
      refine ⟨rest.length, Nat.le_refl _, ?_⟩
      unfold leftChain
      rw [complete _ _ rest derived (follow _)]
  | @more used right lhs rhs op combine left isOperator derived ih =>
      have isSome : operator op ≠ none := by
        rw [isOperator]
        exact Option.some_ne_none combine
      have ⟨fuel, enough, reached⟩ :=
        @ih (op :: (right ++ rest)) fun used => operators used op _ isSome
      rw [List.length_cons, List.length_append] at enough
      cases fuel with
      | zero => exact absurd enough (Nat.not_succ_le_zero _)
      | succ fuel =>
          refine ⟨fuel, by omega, ?_⟩
          rw [List.append_assoc, List.cons_append, reached, chainFrom, isOperator]
          dsimp only
          rw [complete right rhs rest derived (follow right)]
          rfl

/-- A chain of complete operands is complete, where what follows is no operator. -/
theorem leftChain_complete (complete : Complete operand derives follows)
    (operators : ∀ used op after, operator op ≠ none → follows used (op :: after))
    {ends : List τ → Prop} (follow : ∀ used rest, ends rest → follows used rest)
    (ended : ∀ op after, ends (op :: after) → operator op = none) :
    Complete (leftChain operator missing operand) (Chain operator derives) fun _ rest =>
      ends rest := by
  intro used value rest chain isEnd
  have ⟨fuel, _, reached⟩ := @leftChain_reaches τ ε α operator missing operand derives follows
    complete operators used value chain rest fun used => follow used rest isEnd
  rw [reached]
  apply chainFrom_ends
  intro op after same
  rw [same] at isEnd
  exact ended op after isEnd

theorem leftChain_loud (loud : Loud operand) : Loud (leftChain operator missing operand) := by
  intro tokens nothing
  unfold leftChain at nothing ⊢
  rcases first : operand tokens with ⟨_ | lhs, rest, errors⟩
  · have silent := loud tokens
    rw [first] at silent
    exact silent rfl
  · rw [first] at nothing
    dsimp only at nothing
    have valued (fuel : ℕ) (lhs : α) (tokens : List τ) (errors : List ε) :
        (chainFrom operator missing operand fuel lhs tokens errors).value ≠ none := by
      induction fuel generalizing lhs tokens errors with
      | zero => exact Option.some_ne_none lhs
      | succ fuel ih =>
          cases tokens with
          | nil => exact Option.some_ne_none lhs
          | cons op after =>
              rw [chainFrom]
              cases operator op with
              | none => exact Option.some_ne_none lhs
              | some combine =>
                  rcases operand after with ⟨_ | rhs, rest, right⟩
                  · exact Option.some_ne_none lhs
                  · exact ih _ _ _
    exact absurd nothing (valued _ _ _ _)

end LeftChain

section Prefix

variable (operator : τ → Option (α → α)) (missing : τ → ε) (operand : Parser τ ε α)

/-- A value under a prefix operator, or the error that there is none. -/
def applied (apply : α → α) (op : τ) (parsed : Parsed τ ε α) : Parsed τ ε α :=
  match parsed with
  | ⟨none, rest, errors⟩ => ⟨none, rest, errors ++ [missing op]⟩
  | ⟨some value, rest, errors⟩ => ⟨some (apply value), rest, errors⟩

/-- `operator* operand`. -/
def prefixChain : Parser τ ε α
  | [] => operand []
  | op :: after =>
      match operator op with
      | none => operand (op :: after)
      | some apply => applied missing apply op (prefixChain after)

/-- `operator? operand`. -/
def optionalPrefix : Parser τ ε α
  | [] => operand []
  | op :: after =>
      match operator op with
      | none => operand (op :: after)
      | some apply => applied missing apply op (operand after)

/-- `operator* operand`; what an operand starts with is no operator. -/
inductive Prefixed (derives : List τ → α → Prop) : List τ → α → Prop where
  | bare {used : List τ} {value : α} (derived : derives used value) :
      Prefixed derives used value
  | under {used : List τ} {value : α} {op : τ} {apply : α → α}
      (isOperator : operator op = some apply) (derived : Prefixed derives used value) :
      Prefixed derives (op :: used) (apply value)

/-- `operator? operand`. -/
inductive Signed (derives : List τ → α → Prop) : List τ → α → Prop where
  | bare {used : List τ} {value : α} (derived : derives used value) : Signed derives used value
  | under {used : List τ} {value : α} {op : τ} {apply : α → α}
      (isOperator : operator op = some apply) (derived : derives used value) :
      Signed derives (op :: used) (apply value)

/-- What is derived starts with a token that is no operator. -/
def StartsWithout (derives : List τ → α → Prop) : Prop :=
  ∀ used value, derives used value → ∃ first more, used = first :: more ∧ operator first = none

variable {operator missing operand} {derives : List τ → α → Prop}
  {follows stops : List τ → List τ → Prop}

theorem Prefixed.mono {other : List τ → α → Prop}
    (sub : ∀ used value, derives used value → other used value) {used : List τ} {value : α}
    (derived : Prefixed operator derives used value) : Prefixed operator other used value := by
  induction derived with
  | bare derived => exact .bare (sub _ _ derived)
  | under isOperator _ ih => exact .under isOperator ih

theorem Signed.mono {other : List τ → α → Prop}
    (sub : ∀ used value, derives used value → other used value) {used : List τ} {value : α}
    (derived : Signed operator derives used value) : Signed operator other used value := by
  cases derived with
  | bare derived => exact .bare (sub _ _ derived)
  | under isOperator derived => exact .under isOperator (sub _ _ derived)

theorem Prefixed.madeOf {property : τ → Prop} (operands : MadeOf property derives)
    (operators : ∀ op apply, operator op = some apply → property op) :
    MadeOf property (Prefixed operator derives) := by
  intro used value derived
  induction derived with
  | bare derived => exact operands _ _ derived
  | under isOperator _ ih =>
      intro token member
      rcases List.mem_cons.mp member with rfl | later
      · exact operators _ _ isOperator
      · exact ih token later

theorem Signed.madeOf {property : τ → Prop} (operands : MadeOf property derives)
    (operators : ∀ op apply, operator op = some apply → property op) :
    MadeOf property (Signed operator derives) := by
  intro used value derived token member
  cases derived with
  | bare derived => exact operands _ _ derived token member
  | under isOperator derived =>
      rcases List.mem_cons.mp member with rfl | later
      · exact operators _ _ isOperator
      · exact operands _ _ derived token later

theorem applied_some {apply : α → α} {op : τ} {parsed : Parsed τ ε α} {value : α}
    {rest : List τ} (same : applied missing apply op parsed = ⟨some value, rest, []⟩) :
    ∃ inner, parsed = ⟨some inner, rest, []⟩ ∧ value = apply inner := by
  rcases parsed with ⟨_ | inner, left, errors⟩
  · cases same
  · cases same
    exact ⟨inner, rfl, rfl⟩

theorem applied_loud (apply : α → α) (op : τ) (parsed : Parsed τ ε α)
    (nothing : (applied missing apply op parsed).value = none) :
    (applied missing apply op parsed).errors ≠ [] := by
  rcases parsed with ⟨_ | inner, left, errors⟩
  · exact List.append_ne_nil_of_right_ne_nil _ (List.cons_ne_nil _ _)
  · cases nothing

theorem prefixChain_sound (sound : Sound operand derives stops) :
    Sound (prefixChain operator missing operand) (Prefixed operator derives) fun _ _ => True := by
  intro tokens
  induction tokens with
  | nil =>
      intro value rest parsed
      have ⟨used, split, derived, _⟩ := sound [] value rest parsed
      exact ⟨used, split, .bare derived, trivial⟩
  | cons op after ih =>
      intro value rest parsed
      rw [prefixChain] at parsed
      cases isOperator : operator op with
      | none =>
          rw [isOperator] at parsed
          have ⟨used, split, derived, _⟩ := sound (op :: after) value rest parsed
          exact ⟨used, split, .bare derived, trivial⟩
      | some apply =>
          rw [isOperator] at parsed
          have ⟨inner, read, same⟩ := applied_some parsed
          have ⟨used, split, derived, _⟩ := ih inner rest read
          refine ⟨op :: used, ?_, ?_, trivial⟩
          · rw [split, List.cons_append]
          · rw [same]
            exact .under isOperator derived

theorem prefixChain_complete (complete : Complete operand derives follows)
    (starts : StartsWithout operator derives) {ends : List τ → Prop}
    (follow : ∀ used rest, ends rest → follows used rest) :
    Complete (prefixChain operator missing operand) (Prefixed operator derives) fun _ rest =>
      ends rest := by
  intro used value rest derived isEnd
  induction derived with
  | @bare used value derived =>
      have ⟨first, more, same, isOperand⟩ := starts used value derived
      have read := complete used value rest derived (follow used rest isEnd)
      rw [same, List.cons_append] at read ⊢
      rw [prefixChain, isOperand]
      exact read
  | under isOperator _ ih =>
      rw [List.cons_append, prefixChain, isOperator]
      dsimp only
      rw [ih]
      rfl

theorem prefixChain_loud (loud : Loud operand) : Loud (prefixChain operator missing operand) := by
  intro tokens
  induction tokens with
  | nil => exact loud []
  | cons op after ih =>
      intro nothing
      rw [prefixChain] at nothing ⊢
      cases isOperator : operator op with
      | none =>
          rw [isOperator] at nothing
          exact loud (op :: after) nothing
      | some apply =>
          rw [isOperator] at nothing
          exact applied_loud apply op _ nothing

theorem optionalPrefix_sound (sound : Sound operand derives stops) :
    Sound (optionalPrefix operator missing operand) (Signed operator derives)
      fun _ _ => True := by
  intro tokens value rest parsed
  cases tokens with
  | nil =>
      have ⟨used, split, derived, _⟩ := sound [] value rest parsed
      exact ⟨used, split, .bare derived, trivial⟩
  | cons op after =>
      rw [optionalPrefix] at parsed
      cases isOperator : operator op with
      | none =>
          rw [isOperator] at parsed
          have ⟨used, split, derived, _⟩ := sound (op :: after) value rest parsed
          exact ⟨used, split, .bare derived, trivial⟩
      | some apply =>
          rw [isOperator] at parsed
          have ⟨inner, read, same⟩ := applied_some parsed
          have ⟨used, split, derived, _⟩ := sound after inner rest read
          refine ⟨op :: used, ?_, ?_, trivial⟩
          · rw [split, List.cons_append]
          · rw [same]
            exact .under isOperator derived

theorem optionalPrefix_complete (complete : Complete operand derives follows)
    (starts : StartsWithout operator derives) {ends : List τ → Prop}
    (follow : ∀ used rest, ends rest → follows used rest) :
    Complete (optionalPrefix operator missing operand) (Signed operator derives) fun _ rest =>
      ends rest := by
  intro used value rest derived isEnd
  cases derived with
  | bare derived =>
      have ⟨first, more, same, isOperand⟩ := starts used value derived
      have read := complete used value rest derived (follow used rest isEnd)
      rw [same, List.cons_append] at read ⊢
      rw [optionalPrefix, isOperand]
      exact read
  | under isOperator derived =>
      rw [List.cons_append, optionalPrefix, isOperator]
      dsimp only
      rw [complete _ _ rest derived (follow _ rest isEnd)]
      rfl

theorem optionalPrefix_loud (loud : Loud operand) :
    Loud (optionalPrefix operator missing operand) := by
  intro tokens nothing
  cases tokens with
  | nil => exact loud [] nothing
  | cons op after =>
      rw [optionalPrefix] at nothing ⊢
      cases isOperator : operator op with
      | none =>
          rw [isOperator] at nothing
          exact loud (op :: after) nothing
      | some apply =>
          rw [isOperator] at nothing
          exact applied_loud apply op _ nothing

end Prefix

section Power

variable (power : τ → Option (α → α → α)) (sign : τ → Option (α → α))
  (missing missingSigned : τ → ε) (operand : Parser τ ε α)

/-- `operand (power sign? …)?`; every level reads an operator. -/
def powerChain : ℕ → Parser τ ε α
  | 0, tokens => operand tokens
  | fuel + 1, tokens =>
      match operand tokens with
      | ⟨some lhs, op :: after, errors⟩ =>
          match power op with
          | none => ⟨some lhs, op :: after, errors⟩
          | some combine =>
              match optionalPrefix sign missingSigned (powerChain fuel) after with
              | ⟨none, rest, found⟩ => ⟨some lhs, rest, errors ++ found ++ [missing op]⟩
              | ⟨some rhs, rest, found⟩ => ⟨some (combine lhs rhs), rest, errors ++ found⟩
      | parsed => parsed

/-- `operand (power sign? …)?`, associated to the right. -/
inductive Power (derives : List τ → α → Prop) : List τ → α → Prop where
  | bare {used : List τ} {value : α} (derived : derives used value) : Power derives used value
  | raised {used right : List τ} {lhs rhs : α} {op : τ} {combine : α → α → α}
      (left : derives used lhs) (isPower : power op = some combine)
      (exponent : Power derives right rhs) :
      Power derives (used ++ op :: right) (combine lhs rhs)
  | raisedSigned {used right : List τ} {lhs rhs : α} {op signOp : τ} {combine : α → α → α}
      {apply : α → α} (left : derives used lhs) (isPower : power op = some combine)
      (isSign : sign signOp = some apply) (exponent : Power derives right rhs) :
      Power derives (used ++ op :: signOp :: right) (combine lhs (apply rhs))

variable {power sign missing missingSigned operand} {derives : List τ → α → Prop}
  {follows stops : List τ → List τ → Prop}

theorem Power.mono {other : List τ → α → Prop}
    (sub : ∀ used value, derives used value → other used value) {used : List τ} {value : α}
    (derived : Power power sign derives used value) : Power power sign other used value := by
  induction derived with
  | bare derived => exact .bare (sub _ _ derived)
  | raised left isPower _ ih =>
      exact .raised (sub _ _ left) isPower ih
  | raisedSigned left isPower isSign _ ih =>
      exact .raisedSigned (sub _ _ left) isPower isSign ih

theorem Power.madeOf {property : τ → Prop} (operands : MadeOf property derives)
    (powers : ∀ op combine, power op = some combine → property op)
    (signs : ∀ op apply, sign op = some apply → property op) :
    MadeOf property (Power power sign derives) := by
  intro used value derived
  induction derived with
  | bare derived => exact operands _ _ derived
  | raised left isPower _ ih =>
      intro token member
      rcases List.mem_append.mp member with first | right
      · exact operands _ _ left token first
      · rcases List.mem_cons.mp right with rfl | later
        · exact powers _ _ isPower
        · exact ih token later
  | raisedSigned left isPower isSign _ ih =>
      intro token member
      rcases List.mem_append.mp member with first | right
      · exact operands _ _ left token first
      · rcases List.mem_cons.mp right with rfl | more
        · exact powers _ _ isPower
        · rcases List.mem_cons.mp more with rfl | later
          · exact signs _ _ isSign
          · exact ih token later

theorem Power.startsWithout (starts : StartsWithout sign derives) :
    StartsWithout sign (Power power sign derives) := by
  intro used value derived
  cases derived with
  | bare derived => exact starts used value derived
  | raised left _ _ =>
      have ⟨first, more, same, isOperand⟩ := starts _ _ left
      exact ⟨first, _, congrArg (· ++ _) same, isOperand⟩
  | raisedSigned left _ _ _ =>
      have ⟨first, more, same, isOperand⟩ := starts _ _ left
      exact ⟨first, _, congrArg (· ++ _) same, isOperand⟩

theorem powerChain_sound (sound : Sound operand derives stops) (fuel : ℕ) :
    Sound (powerChain power sign missing missingSigned operand fuel) (Power power sign derives)
      fun _ _ => True := by
  induction fuel with
  | zero =>
      intro tokens value rest parsed
      have ⟨used, split, derived, _⟩ := sound tokens value rest parsed
      exact ⟨used, split, .bare derived, trivial⟩
  | succ fuel ih =>
      intro tokens value rest parsed
      rw [powerChain] at parsed
      rcases first : operand tokens with ⟨_ | lhs, _ | ⟨op, after⟩, errors⟩
      · rw [first] at parsed
        cases parsed
      · rw [first] at parsed
        cases parsed
      · rw [first] at parsed
        cases parsed
        have ⟨used, split, derived, _⟩ := sound tokens value [] first
        exact ⟨used, split, .bare derived, trivial⟩
      · rw [first] at parsed
        dsimp only at parsed
        cases isPower : power op with
        | none =>
            rw [isPower] at parsed
            cases parsed
            have ⟨used, split, derived, _⟩ := sound tokens value (op :: after) first
            exact ⟨used, split, .bare derived, trivial⟩
        | some combine =>
            rw [isPower] at parsed
            dsimp only at parsed
            rcases exponent : optionalPrefix sign missingSigned
              (powerChain power sign missing missingSigned operand fuel) after with
              ⟨_ | rhs, left, found⟩
            · rw [exponent] at parsed
              have noErrors := congrArg Parsed.errors parsed
              exact absurd noErrors (List.append_ne_nil_of_right_ne_nil _ (List.cons_ne_nil _ _))
            · rw [exponent] at parsed
              dsimp only at parsed
              have quiet := List.append_eq_nil_iff.mp (congrArg Parsed.errors parsed)
              have same : combine lhs rhs = value :=
                Option.some.inj (congrArg Parsed.value parsed)
              have stopped : left = rest := congrArg Parsed.rest parsed
              rw [quiet.1] at first
              rw [quiet.2, stopped] at exponent
              have ⟨used, split, derived, _⟩ := sound tokens lhs (op :: after) first
              have ⟨right, splitRight, derivedRight, _⟩ :=
                optionalPrefix_sound ih after rhs rest exponent
              rw [← same]
              cases derivedRight with
              | bare derivedRight =>
                  refine ⟨used ++ op :: right, ?_, .raised derived isPower derivedRight, trivial⟩
                  rw [split, splitRight, List.append_assoc, List.cons_append]
              | under isSign derivedRight =>
                  refine ⟨_, ?_, .raisedSigned derived isPower isSign derivedRight, trivial⟩
                  rw [split, splitRight, List.append_assoc, List.cons_append, List.cons_append,
                    List.cons_append]

/-- With fuel for every token, a power of complete operands is read to its end. -/
theorem powerChain_reads (complete : Complete operand derives follows)
    (starts : StartsWithout sign derives)
    (operators : ∀ used op after, power op ≠ none → follows used (op :: after))
    {ends : List τ → Prop} (follow : ∀ used rest, ends rest → follows used rest)
    (ended : ∀ op after, ends (op :: after) → power op = none)
    {used : List τ} {value : α} (derived : Power power sign derives used value) {rest : List τ}
    (isEnd : ends rest) {fuel : ℕ} (enough : used.length ≤ fuel) :
    powerChain power sign missing missingSigned operand fuel (used ++ rest) =
      ⟨some value, rest, []⟩ := by
  induction derived generalizing fuel with
  | @bare used value derived =>
      have read := complete used value rest derived (follow used rest isEnd)
      cases fuel with
      | zero => exact read
      | succ fuel =>
          rw [powerChain, read]
          cases rest with
          | nil => rfl
          | cons op after =>
              dsimp only
              rw [ended op after isEnd]
  | @raised used right lhs rhs op combine left isPower exponent ih =>
      have isSome : power op ≠ none := by
        rw [isPower]
        exact Option.some_ne_none combine
      rw [List.length_append, List.length_cons] at enough
      cases fuel with
      | zero => omega
      | succ fuel =>
          have read := @ih fuel (by omega)
          have ⟨first, more, same, isOperand⟩ :=
            @Power.startsWithout τ α power sign derives starts _ _ exponent
          have unsigned : optionalPrefix sign missingSigned
              (powerChain power sign missing missingSigned operand fuel) (right ++ rest) =
                ⟨some rhs, rest, []⟩ := by
            rw [same, List.cons_append] at read ⊢
            rw [optionalPrefix, isOperand]
            exact read
          rw [powerChain, List.append_assoc, List.cons_append,
            complete used lhs _ left (operators used op _ isSome)]
          dsimp only
          rw [isPower]
          dsimp only
          rw [unsigned]
          rfl
  | @raisedSigned used right lhs rhs op signOp combine apply left isPower isSign exponent
      ih =>
      have isSome : power op ≠ none := by
        rw [isPower]
        exact Option.some_ne_none combine
      rw [List.length_append, List.length_cons, List.length_cons] at enough
      cases fuel with
      | zero => omega
      | succ fuel =>
          have read := @ih fuel (by omega)
          have signed : optionalPrefix sign missingSigned
              (powerChain power sign missing missingSigned operand fuel)
                (signOp :: (right ++ rest)) = ⟨some (apply rhs), rest, []⟩ := by
            rw [optionalPrefix, isSign]
            dsimp only
            rw [read]
            rfl
          rw [powerChain, List.append_assoc, List.cons_append, List.cons_append,
            complete used lhs _ left (operators used op _ isSome)]
          dsimp only
          rw [isPower]
          dsimp only
          rw [signed]
          rfl

theorem powerChain_loud (loud : Loud operand) (fuel : ℕ) :
    Loud (powerChain power sign missing missingSigned operand fuel) := by
  cases fuel with
  | zero => exact loud
  | succ fuel =>
      intro tokens nothing
      have silent := loud tokens
      rw [powerChain] at nothing ⊢
      rcases first : operand tokens with ⟨_ | lhs, _ | ⟨op, after⟩, errors⟩
      · rw [first] at silent
        exact silent rfl
      · rw [first] at silent
        exact silent rfl
      · rw [first] at nothing
        cases nothing
      · rw [first] at nothing
        dsimp only at nothing
        cases isPower : power op with
        | none =>
            rw [isPower] at nothing
            cases nothing
        | some combine =>
            rw [isPower] at nothing
            dsimp only at nothing
            rcases exponent : optionalPrefix sign missingSigned
              (powerChain power sign missing missingSigned operand fuel) after with
              ⟨_ | rhs, left, found⟩
            · rw [exponent] at nothing
              cases nothing
            · rw [exponent] at nothing
              cases nothing

end Power

section Builds

variable {accepted : τ → Prop} {derives : List τ → α → Prop} {property : α → Prop}

/-- Every value derived from accepted tokens has a property. -/
def Builds (accepted : τ → Prop) (derives : List τ → α → Prop) (property : α → Prop) : Prop :=
  ∀ used value, (∀ token ∈ used, accepted token) → derives used value → property value

theorem Builds.chain {operator : τ → Option (α → α → α)}
    (builds : Builds accepted derives property)
    (combined : ∀ op combine lhs rhs, operator op = some combine → property lhs →
      property rhs → property (combine lhs rhs)) :
    Builds accepted (Chain operator derives) property := by
  intro used value good chain
  induction chain with
  | single derived => exact builds _ _ good derived
  | more _ isOperator derived ih =>
      apply combined _ _ _ _ isOperator
      · exact ih fun token member => good token (List.mem_append_left _ member)
      · refine builds _ _ (fun token member => good token ?_) derived
        exact List.mem_append_right _ (List.mem_cons_of_mem _ member)

theorem Builds.prefixed {operator : τ → Option (α → α)}
    (builds : Builds accepted derives property)
    (applied : ∀ op apply value, operator op = some apply → property value →
      property (apply value)) :
    Builds accepted (Prefixed operator derives) property := by
  intro used value good derived
  induction derived with
  | bare derived => exact builds _ _ good derived
  | under isOperator _ ih =>
      apply applied _ _ _ isOperator
      exact ih fun token member => good token (List.mem_cons_of_mem _ member)

theorem Builds.signed {operator : τ → Option (α → α)}
    (builds : Builds accepted derives property)
    (applied : ∀ op apply value, operator op = some apply → property value →
      property (apply value)) :
    Builds accepted (Signed operator derives) property := by
  intro used value good derived
  cases derived with
  | bare derived => exact builds _ _ good derived
  | under isOperator derived =>
      apply applied _ _ _ isOperator
      exact builds _ _ (fun token member => good token (List.mem_cons_of_mem _ member)) derived

theorem Builds.power {power : τ → Option (α → α → α)} {sign : τ → Option (α → α)}
    (builds : Builds accepted derives property)
    (combined : ∀ op combine lhs rhs, power op = some combine → property lhs →
      property rhs → property (combine lhs rhs))
    (applied : ∀ op apply value, sign op = some apply → property value →
      property (apply value)) :
    Builds accepted (Power power sign derives) property := by
  intro used value good derived
  induction derived with
  | bare derived => exact builds _ _ good derived
  | raised left isPower _ ih =>
      apply combined _ _ _ _ isPower
      · exact builds _ _ (fun token member => good token (List.mem_append_left _ member)) left
      · refine ih fun token member => good token ?_
        exact List.mem_append_right _ (List.mem_cons_of_mem _ member)
  | raisedSigned left isPower isSign _ ih =>
      apply combined _ _ _ _ isPower
      · exact builds _ _ (fun token member => good token (List.mem_append_left _ member)) left
      · apply applied _ _ _ isSign
        refine ih fun token member => good token ?_
        exact List.mem_append_right _ (List.mem_cons_of_mem _ (List.mem_cons_of_mem _ member))

end Builds

end LlvmDsdl.Library.Parsing
