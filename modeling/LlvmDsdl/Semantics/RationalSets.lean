import LlvmDsdl.Semantics.Evaluator
import LlvmDsdl.Support.RationalOrder

/-!
Contract: sets of rationals, from their insertions to the answers computed on
them.

Owns: what a set built by insertions should hold, what its attributes and
comparisons should answer, the insertions a literal and an element-wise
operator perform, and the values on which all of it is right.
-/

namespace LlvmDsdl.Semantics

open Frontend Support Support.Rational

/-- The evaluator where a `long double` has `precision` significant bits. -/
def Host.onPlatform (host : Host) (precision : ℕ) : Host :=
  { host with longDoubleLess := Rational.longDoubleLess precision }

/-- A computed value is a rational with this meaning. -/
def Yields (answer : Except String Value) (meaning : ℚ → Prop) : Prop :=
  ∃ value, answer = .ok (.rational value) ∧ meaning value.toRat

/-- A computed value is the truth of a statement. -/
def Decides (answer : Except String Value) (statement : Prop) : Prop :=
  ∃ verdict, answer = .ok (.boolean verdict) ∧ (verdict = true ↔ statement)

section Statements

variable (host : Host) (values : Set Rational)

/-- `operator<` is a strict total order on the values, that of their fractions. -/
structure ExactOrder : Prop where
  irreflexive : ∀ value ∈ values, less host.longDoubleLess value value = false
  transitive : ∀ first ∈ values, ∀ second ∈ values, ∀ third ∈ values,
    less host.longDoubleLess first second = true → less host.longDoubleLess second third = true →
      less host.longDoubleLess first third = true
  total : ∀ lhs ∈ values, ∀ rhs ∈ values, less host.longDoubleLess lhs rhs = true ∨
    equal lhs rhs = true ∨ less host.longDoubleLess rhs lhs = true
  less_iff : ∀ lhs ∈ values, ∀ rhs ∈ values,
    less host.longDoubleLess lhs rhs = true ↔ lhs.toRat < rhs.toRat
  equal_iff : ∀ lhs ∈ values, ∀ rhs ∈ values, equal lhs rhs = true ↔ lhs.toRat = rhs.toRat

/-- A set holds each fraction of `content` once, in ascending order, and answers
questions on one set as `content` does. -/
structure ExactSet (set : RationalSet) (content : Set ℚ) : Prop where
  ascending : (set.elements.map toRat).Pairwise (· < ·)
  exactly : ∀ fraction, fraction ∈ set.elements.map toRat ↔ fraction ∈ content
  count : Yields (setAttribute host (.set set) "count") (· = content.ncard)
  min : content.Nonempty → Yields (setAttribute host (.set set) "min") (IsLeast content)
  max : content.Nonempty → Yields (setAttribute host (.set set) "max") (IsGreatest content)
  membership : ∀ value ∈ values,
    set.contains host.longDoubleLess value = true ↔ value.toRat ∈ content

/-- The comparisons of two sets are those of their contents. -/
structure ExactComparisons (left right : RationalSet) (leftContent rightContent : Set ℚ) :
    Prop where
  eq : Decides (concreteBinary host .eq (.set left) (.set right)) (leftContent = rightContent)
  ne : Decides (concreteBinary host .ne (.set left) (.set right)) (leftContent ≠ rightContent)
  le : Decides (concreteBinary host .le (.set left) (.set right)) (leftContent ⊆ rightContent)
  lt : Decides (concreteBinary host .lt (.set left) (.set right)) (leftContent ⊂ rightContent)
  ge : Decides (concreteBinary host .ge (.set left) (.set right)) (rightContent ⊆ leftContent)
  gt : Decides (concreteBinary host .gt (.set left) (.set right)) (rightContent ⊂ leftContent)

/-- The set built by inserting the values in turn. -/
def setOf (added : List Rational) : RationalSet :=
  RationalSet.empty.insertAll host.longDoubleLess added

def fractions (added : List Rational) : Set ℚ :=
  {fraction | ∃ value ∈ added, value.toRat = fraction}

/-- The results of an operator over all pairs of elements. -/
def elementwiseResults (op : BinaryOp) (left right : RationalSet) : Set Rational :=
  {value | ∃ a ∈ left.elements, ∃ b ∈ right.elements,
    applyBinaryRational host op a b = some (.rational value)}

/-- The value of an expression and the diagnostics after it. -/
def evaluated (env : ValueEnv) (resolver : Option (TypeAttributeResolver Id)) (expr : ExprAST)
    (before : List Diagnostic) : Option Value × List Diagnostic :=
  Id.run ((evaluate host env resolver expr).run before)

/-- An element of a literal evaluates to this rational, from some diagnostics. -/
def EvaluatesTo (env : ValueEnv) (resolver : Option (TypeAttributeResolver Id)) (element : ExprAST)
    (value : Rational) : Prop :=
  ∃ before, (evaluated host env resolver element before).1 = some (.rational value)

/-- Sets whose values are among `values` lose nothing. -/
structure ExactSets : Prop where
  order : ExactOrder host values
  insertions : ∀ added : List Rational, (∀ value ∈ added, value ∈ values) →
    ExactSet host values (setOf host added) (fractions added)
  literal : ∀ env resolver location elements before out,
    (evaluated host env resolver (.setLiteral location elements) before).1 = some (.set out) →
      ∃ added, List.Forall₂ (EvaluatesTo host env resolver) elements added ∧
        ((∀ value ∈ added, value ∈ values) → ExactSet host values out (fractions added))
  elementwise : ∀ op left right out, applySetElementwise host op left right = some out →
    elementwiseResults host op left right ⊆ values →
      ExactSet host values out (toRat '' elementwiseResults host op left right)
  comparisons : ∀ left right : List Rational, (∀ value ∈ left, value ∈ values) →
    (∀ value ∈ right, value ∈ values) →
      ExactComparisons host (setOf host left) (setOf host right) (fractions left) (fractions right)

end Statements

section Insertions

variable {host : Host}

theorem elementwiseRow_inserts {op : BinaryOp} {a : Rational} (right : List Rational) :
    ∀ {set out : RationalSet}, elementwiseRow host op a right set = some out →
      ∃ added, out = set.insertAll host.longDoubleLess added ∧
        ∀ value, value ∈ added ↔
          ∃ b ∈ right, applyBinaryRational host op a b = some (.rational value) := by
  induction right with
  | nil =>
      intro set out computed
      simp only [elementwiseRow, Option.some.injEq] at computed
      exact ⟨[], computed.symm, by simp⟩
  | cons b rest ih =>
      intro set out computed
      rw [elementwiseRow] at computed
      split at computed
      · rename_i first applied
        obtain ⟨added, outEq, results⟩ := ih computed
        refine ⟨first :: added, outEq, fun value => ?_⟩
        simp [results, applied, eq_comm]
      · simp at computed

theorem elementwiseRows_inserts {op : BinaryOp} {right : List Rational} (left : List Rational) :
    ∀ {set out : RationalSet}, elementwiseRows host op right left set = some out →
      ∃ added, out = set.insertAll host.longDoubleLess added ∧
        ∀ value, value ∈ added ↔ ∃ a ∈ left, ∃ b ∈ right,
          applyBinaryRational host op a b = some (.rational value) := by
  induction left with
  | nil =>
      intro set out computed
      simp only [elementwiseRows, Option.some.injEq] at computed
      exact ⟨[], computed.symm, by simp⟩
  | cons a rest ih =>
      intro set out computed
      rw [elementwiseRows] at computed
      obtain ⟨middle, row, rows⟩ := Option.bind_eq_some_iff.mp computed
      obtain ⟨first, rfl, firstResults⟩ := elementwiseRow_inserts right row
      obtain ⟨others, rfl, otherResults⟩ := ih rows
      refine ⟨first ++ others, by simp [RationalSet.insertAll], fun value => ?_⟩
      simp [firstResults, otherResults]

private def evaluatedElements (env : ValueEnv) (resolver : Option (TypeAttributeResolver Id))
    (elements : List ExprAST) (set : RationalSet) (before : List Diagnostic) :
    Option RationalSet × List Diagnostic :=
  Id.run ((evaluateElements host env resolver elements set).run before)

private theorem evaluatedElements_cons {env : ValueEnv}
    {resolver : Option (TypeAttributeResolver Id)} {element : ExprAST} {rest : List ExprAST}
    {set out : RationalSet} {before : List Diagnostic}
    (computed : (@evaluatedElements host env resolver (element :: rest) set before).1 =
      some out) :
    ∃ value, (evaluated host env resolver element before).1 = some (.rational value) ∧
      ∃ between, (@evaluatedElements host env resolver rest
        (set.insert host.longDoubleLess value) between).1 = some out := by
  unfold evaluatedElements at computed ⊢
  rw [evaluateElements, StateT.run_bind] at computed
  rcases step : evaluated host env resolver element before with ⟨result, between⟩
  have ran : StateT.run (evaluate host env resolver element) before = (result, between) := step
  rw [ran] at computed
  rcases result with _ | (_ | value | _ | _ | _ | _)
  case some.rational => exact ⟨value, rfl, between, computed⟩
  all_goals cases computed

theorem evaluatedElements_inserts {env : ValueEnv} {resolver : Option (TypeAttributeResolver Id)}
    (elements : List ExprAST) : ∀ {set out : RationalSet} {before : List Diagnostic},
      (@evaluatedElements host env resolver elements set before).1 = some out →
        ∃ added, List.Forall₂ (EvaluatesTo host env resolver) elements added ∧
          out = set.insertAll host.longDoubleLess added := by
  induction elements with
  | nil =>
      intro set out before computed
      simp only [evaluatedElements, evaluateElements] at computed
      have same : set = out := Option.some.inj computed
      exact ⟨[], .nil, same.symm⟩
  | cons element rest ih =>
      intro set out before computed
      obtain ⟨value, first, between, others⟩ := evaluatedElements_cons computed
      obtain ⟨added, evaluated, outEq⟩ := ih others
      exact ⟨value :: added, .cons ⟨before, first⟩ evaluated, outEq⟩

theorem setLiteral_inserts {env : ValueEnv} {resolver : Option (TypeAttributeResolver Id)}
    {location : SourceLocation} {elements : List ExprAST} {before : List Diagnostic}
    {out : RationalSet}
    (computed : (evaluated host env resolver (.setLiteral location elements) before).1 =
      some (.set out)) :
    ∃ added, List.Forall₂ (EvaluatesTo host env resolver) elements added ∧
      out = setOf host added := by
  have inner : (@evaluatedElements host env resolver elements .empty before).1 =
      some out := by
    unfold evaluated at computed
    rw [evaluate, StateT.run_bind] at computed
    change ((fun step : Option RationalSet × List Diagnostic => step.1.map Value.set)
      (@evaluatedElements host env resolver elements .empty before)) =
        some (.set out) at computed
    obtain ⟨built, builtEq, same⟩ := Option.map_eq_some_iff.mp computed
    rw [builtEq, Value.set.inj same]
  exact evaluatedElements_inserts elements inner

end Insertions

section Mirror

variable {host : Host} {values : Set Rational}

/-- The sorted set of the fractions of a list. -/
def mirrorOf (added : List Rational) : FlatSet ℚ :=
  (added.map toRat).foldl FlatSet.insert FlatSet.empty

theorem toSet_mirrorOf (added : List Rational) : (mirrorOf added).toSet = fractions added := by
  ext fraction
  rw [FlatSet.mem_toSet, mirrorOf, RationalSet.mem_foldl_insert]
  simp [FlatSet.mem_def, FlatSet.empty, fractions]

/-- The set's elements are among the values and have the fractions of the mirror. -/
structure Mirrors (values : Set Rational) (set : RationalSet) (mirror : FlatSet ℚ) : Prop where
  among : ∀ element ∈ set.elements, element ∈ values
  same : set.elements.map toRat = mirror.data

theorem setOf_mirrors (agrees : RationalSet.Agrees host.longDoubleLess values)
    {added : List Rational} (among : ∀ value ∈ added, value ∈ values) :
    Mirrors values (setOf host added) (mirrorOf added) := by
  obtain ⟨same, inside⟩ := @RationalSet.insertAll_toRat _ _ agrees added .empty .empty
    (by simp [RationalSet.empty]) among rfl
  exact ⟨inside, same⟩

theorem Mirrors.contains_iff {set : RationalSet} {mirror : FlatSet ℚ}
    (mirrors : Mirrors values set mirror) (agrees : RationalSet.Agrees host.longDoubleLess values)
    {value : Rational} (valueIn : value ∈ values) :
    set.contains host.longDoubleLess value = true ↔ value.toRat ∈ mirror := by
  have ascending := mirror.sorted
  rw [← mirrors.same] at ascending
  rw [FlatSet.mem_def, ← mirrors.same]
  exact RationalSet.contains_toRat agrees valueIn set.elements mirrors.among ascending

theorem Mirrors.exactSet {set : RationalSet} {mirror : FlatSet ℚ}
    (mirrors : Mirrors values set mirror)
    (agrees : RationalSet.Agrees host.longDoubleLess values) :
    ExactSet host values set mirror.toSet := by
  have sorted := mirror.sorted
  have sizes : mirror.toSet.ncard = set.elements.length := by
    rw [FlatSet.ncard_toSet, ← mirrors.same, List.length_map]
  have firsts : mirror.data.head? = set.elements.head?.map toRat := by
    rw [← mirrors.same, List.head?_map]
  have lasts : mirror.data.getLast? = set.elements.getLast?.map toRat := by
    rw [← mirrors.same, List.getLast?_map]
  have ends : mirror.toSet.Nonempty → ∃ first last, set.elements.head? = some first ∧
      set.elements.getLast? = some last ∧ mirror.data ≠ [] := by
    intro nonempty
    obtain ⟨fraction, inside⟩ := nonempty
    have filled : mirror.data ≠ [] := List.ne_nil_of_mem inside
    have elements : set.elements ≠ [] := by
      intro nothing
      exact filled (by rw [← mirrors.same, nothing, List.map_nil])
    exact ⟨_, _, List.head?_eq_some_head elements, List.getLast?_eq_some_getLast elements, filled⟩
  constructor
  · rw [mirrors.same]
    exact sorted
  · intro fraction
    rw [mirrors.same]
    rfl
  · refine ⟨_, rfl, ?_⟩
    simp [sizes, RationalSet.size]
  · intro nonempty
    obtain ⟨first, last, atFront, atBack, filled⟩ := ends nonempty
    refine ⟨first, by simp [setAttribute, atFront, atBack], ?_⟩
    have least := FlatSet.isLeast_front filled first.toRat
    rwa [FlatSet.front, firsts, atFront] at least
  · intro nonempty
    obtain ⟨first, last, atFront, atBack, filled⟩ := ends nonempty
    refine ⟨last, by simp [setAttribute, atFront, atBack], ?_⟩
    have greatest := FlatSet.isGreatest_back filled last.toRat
    rwa [FlatSet.back, lasts, atBack] at greatest
  · intro value valueIn
    exact mirrors.contains_iff agrees valueIn

theorem Mirrors.contained_iff {left right : RationalSet} {leftMirror rightMirror : FlatSet ℚ}
    (leftMirrors : Mirrors values left leftMirror) (rightMirrors : Mirrors values right rightMirror)
    (agrees : RationalSet.Agrees host.longDoubleLess values) :
    isContained host left right = true ↔ leftMirror.toSet ⊆ rightMirror.toSet := by
  rw [isContained, List.all_eq_true]
  have inside : ∀ fraction, fraction ∈ leftMirror.toSet ↔
      ∃ element ∈ left.elements, element.toRat = fraction := by
    intro fraction
    rw [FlatSet.mem_toSet, FlatSet.mem_def, ← leftMirrors.same, List.mem_map]
  constructor
  · intro found fraction member
    obtain ⟨element, elementIn, rfl⟩ := (inside fraction).mp member
    exact (rightMirrors.contains_iff agrees (leftMirrors.among element elementIn)).mp
      (found element elementIn)
  · intro within element elementIn
    exact (rightMirrors.contains_iff agrees (leftMirrors.among element elementIn)).mpr
      (within ((inside _).mpr ⟨element, elementIn, rfl⟩))

theorem Mirrors.equal_iff {left right : RationalSet} {leftMirror rightMirror : FlatSet ℚ}
    (leftMirrors : Mirrors values left leftMirror)
    (rightMirrors : Mirrors values right rightMirror) :
    left.equal right = true ↔ leftMirror.toSet = rightMirror.toSet := by
  rw [RationalSet.equal_toRat, leftMirrors.same, rightMirrors.same, FlatSet.toSet_injective.eq_iff]
  constructor
  · intro same
    exact FlatSet.ext_mem fun value => by rw [FlatSet.mem_def, FlatSet.mem_def, same]
  · intro same
    rw [same]

theorem Mirrors.exactComparisons {left right : RationalSet} {leftMirror rightMirror : FlatSet ℚ}
    (leftMirrors : Mirrors values left leftMirror) (rightMirrors : Mirrors values right rightMirror)
    (agrees : RationalSet.Agrees host.longDoubleLess values) :
    ExactComparisons host left right leftMirror.toSet rightMirror.toSet := by
  have same := leftMirrors.equal_iff rightMirrors
  have below := leftMirrors.contained_iff rightMirrors agrees
  have above := rightMirrors.contained_iff leftMirrors agrees
  constructor
  · exact ⟨_, rfl, same⟩
  · exact ⟨_, rfl, by rw [Bool.not_eq_true', Bool.eq_false_iff, Ne, same]⟩
  · exact ⟨_, rfl, below⟩
  · refine ⟨_, rfl, ?_⟩
    rw [Bool.and_eq_true, below, Bool.not_eq_true', Bool.eq_false_iff, Ne, same,
      Set.ssubset_iff_subset_ne]
  · exact ⟨_, rfl, above⟩
  · refine ⟨_, rfl, ?_⟩
    rw [Bool.and_eq_true, above, Bool.not_eq_true', Bool.eq_false_iff, Ne, same,
      Set.ssubset_iff_subset_ne, ne_comm]

theorem exactOrder (agrees : RationalSet.Agrees host.longDoubleLess values) :
    ExactOrder host values := by
  constructor
  · intro value valueIn
    rw [Bool.eq_false_iff, Ne, agrees value valueIn value valueIn]
    exact lt_irrefl _
  · intro first firstIn second secondIn third thirdIn lower upper
    rw [agrees first firstIn second secondIn] at lower
    rw [agrees second secondIn third thirdIn] at upper
    exact (agrees first firstIn third thirdIn).mpr (lower.trans upper)
  · intro lhs lhsIn rhs rhsIn
    rw [agrees lhs lhsIn rhs rhsIn, agrees rhs rhsIn lhs lhsIn, equal_iff_toRat]
    exact lt_trichotomy _ _
  · exact agrees
  · intro lhs _ rhs _
    exact equal_iff_toRat

/-- Where `operator<` agrees with the fractions, sets lose nothing. -/
theorem exactSets_of_agrees (agrees : RationalSet.Agrees host.longDoubleLess values) :
    ExactSets host values := by
  have built : ∀ added : List Rational, (∀ value ∈ added, value ∈ values) →
      ExactSet host values (setOf host added) (fractions added) := by
    intro added among
    rw [← toSet_mirrorOf]
    exact (setOf_mirrors agrees among).exactSet agrees
  constructor
  · exact exactOrder agrees
  · exact built
  · intro env resolver location elements before out computed
    obtain ⟨added, evaluated, rfl⟩ := setLiteral_inserts computed
    exact ⟨added, evaluated, built added⟩
  · intro op left right out computed among
    obtain ⟨added, rfl, results⟩ := elementwiseRows_inserts left.elements computed
    have contents : toRat '' elementwiseResults host op left right = fractions added := by
      ext fraction
      simp [fractions, elementwiseResults, results]
    rw [contents]
    exact built added fun value member => among ((results value).mp member)
  · intro left right leftAmong rightAmong
    rw [← toSet_mirrorOf, ← toSet_mirrorOf]
    exact (setOf_mirrors agrees leftAmong).exactComparisons (setOf_mirrors agrees rightAmong) agrees

end Mirror

def separateHost : Host where
  longDoubleLess _ _ := false
  sameRoot _ _ := false
  sameRoot_eq := fun _ _ same => Bool.noConfusion same

/-- **Sets of rationals lose nothing exactly on values told apart.** Each two of
them, in order as fractions, have cross products that fit 128 bits or rounded
quotients in that order. -/
theorem rationalSets_exact_iff (host : Host) (precision : ℕ) (values : Set Rational) :
    ExactSets (host.onPlatform precision) values ↔
      ∀ lhs ∈ values, ∀ rhs ∈ values, ToldApart precision lhs rhs := by
  constructor
  · intro exact lhs lhsIn rhs rhsIn
    exact toldApart_of_less (exact.order.less_iff lhs lhsIn rhs rhsIn)
  · intro apart
    exact exactSets_of_agrees fun lhs lhsIn rhs rhsIn =>
      less_iff_toRat (apart lhs lhsIn rhs rhsIn) (apart rhs rhsIn lhs lhsIn)

/-- A half and a third above 2¹²⁵ are one value to a `long double` of 64 bits:
`{(2**126 + 1) / 2, (3 * 2**125 + 1) / 3}.count` is 1. -/
theorem rationalSets_lose_value :
    (Rational.ofFraction (2 ^ 126 + 1) 2).toRat ≠ (Rational.ofFraction (3 * 2 ^ 125 + 1) 3).toRat ∧
      setAttribute (separateHost.onPlatform 64) (.set (setOf (separateHost.onPlatform 64)
        [.ofFraction (2 ^ 126 + 1) 2, .ofFraction (3 * 2 ^ 125 + 1) 3])) "count" =
          .ok (.rational (.ofInteger 1)) ∧
      ¬ExactSets (separateHost.onPlatform 64) Set.univ := by
  have different : (Rational.ofFraction (2 ^ 126 + 1) 2).toRat ≠
      (Rational.ofFraction (3 * 2 ^ 125 + 1) 3).toRat := by
    rw [Ne, ← equal_iff_toRat]
    decide +kernel
  have counted : (setOf (separateHost.onPlatform 64)
      [.ofFraction (2 ^ 126 + 1) 2, .ofFraction (3 * 2 ^ 125 + 1) 3]).size = 1 := by
    decide +kernel
  refine ⟨different, ?_, fun exact => ?_⟩
  · rw [setAttribute, if_pos rfl, counted]
    rfl
  · rcases exact.order.total (.ofFraction (2 ^ 126 + 1) 2) trivial
      (.ofFraction (3 * 2 ^ 125 + 1) 3) trivial with less | equal | greater
    · exact absurd less (by decide +kernel)
    · exact different (equal_iff_toRat.mp equal)
    · exact absurd greater (by decide +kernel)

end LlvmDsdl.Semantics
