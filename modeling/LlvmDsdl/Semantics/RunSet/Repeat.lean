import LlvmDsdl.Library.DenseSums
import LlvmDsdl.Semantics.RunSet.Sum

/-!
Contract: repetition of run sets.

Owns: `RunSet::repeated` with its dense jump, `RunSet::repeatRange` with its
signed, direct and closed-form branches, and the sets they denote.

The loops carry two facts: the running term is the `k`-fold sum, and the
accumulated union holds the sums met so far.
-/

namespace LlvmDsdl.Semantics

open Support Support.IntegerMath Library Library.Progression Library.Sumset Run

namespace RunSet

/-- `kMaxIterations`; `kMaxSignedIterations` is the same number. -/
def kMaxIterations : ℕ := 4096

def frontRun (set : RunSet) : Run :=
  set.runs.head?.getD {}

/-! ### Repetition -/

/-- The closed form once two consecutive iterates, the later one `cur` with `j`
draws, are single runs of one stride. -/
def repeatedJump (set : RunSet) (count : ℤ) (j : ℕ) (cur : Run) : Option RunSet :=
  let remaining := count - j
  (checkedMultiply remaining set.min).bind fun startShift =>
    (checkedAdd cur.start startShift).bind fun start =>
      (checkedMultiply remaining set.max).bind fun endShift =>
        (checkedAdd cur.last endShift).bind fun last =>
          (makeRunThrough start cur.stride last).map fun run => ⟨[run]⟩

/-- The iteration from draw `j` on; `term` has `j - 1` draws. -/
def repeatedLoop (set : RunSet) (count : ℤ) : ℕ → ℕ → RunSet → Option RunSet
  | 0, _, _ => none
  | fuel + 1, j, term =>
      if (j : ℤ) > count then some term
      else
        let prev := term.frontRun
        (sum term set).bind fun next =>
          let cur := next.frontRun
          if term.runs.length = 1 ∧ next.runs.length = 1 ∧ cur.stride = prev.stride ∧
              checkedAdd prev.start set.min = some cur.start ∧
              checkedAdd prev.last set.max = some cur.last then
            if count - j = 0 then some next else repeatedJump set count j cur
          else if j ≥ kMaxIterations then none
          else repeatedLoop set count fuel (j + 1) next

/-- `RunSet::repeated`. Every round ends, refuses at `kMaxIterations` or goes on,
so that many rounds suffice. -/
def repeated (set : RunSet) (count : ℤ) : Option RunSet :=
  if count ≤ 0 then some (ofValue 0)
  else if count = 1 then some set
  else repeatedLoop set count kMaxIterations 2 set

theorem valid_single_run {run : Run} (valid : run.Valid) : Valid ⟨[run]⟩ :=
  ⟨by simp, placed_singleton valid⟩

theorem elements_single_run (run : Run) : elements ⟨[run]⟩ = run.elements := by
  simp [elements]

theorem zero_denotes : (ofValue 0).Denotes {0} :=
  ⟨valid_ofValue ⟨int64Min_neg.le, int64Max_pos.le⟩, elements_ofValue 0⟩

theorem elements_of_length_one {set : RunSet} (valid : set.Valid) (one : set.runs.length = 1) :
    set.frontRun.Valid ∧ set.elements = set.frontRun.elements := by
  obtain ⟨run, runsEq⟩ := List.length_eq_one_iff.mp one
  have front : set.frontRun = run := by rw [frontRun, runsEq]; rfl
  rw [front]
  refine ⟨valid.placed.canonical run (by simp [runsEq]), ?_⟩
  rw [elements, runsEq, unionOf_cons, unionOf_nil, Set.union_empty]

theorem iterate_of_length_one {set term : RunSet} (valid : set.Valid) {count : ℕ}
    (denotes : term.Denotes (sums set.elements count)) (one : term.runs.length = 1) :
    term.frontRun.start = count * set.min ∧ term.frontRun.last = count * set.max ∧
      sums set.elements count =
        progression (count * set.min) term.frontRun.stride (count * set.max) := by
  obtain ⟨runValid, same⟩ := elements_of_length_one denotes.valid one
  rw [denotes.elements] at same
  have startEq := (same ▸ isLeast_sums (isLeast_min valid) count).unique runValid.isLeast
  have lastEq := (same ▸ isGreatest_sums (isGreatest_max valid) count).unique runValid.isGreatest
  exact ⟨startEq.symm, lastEq.symm, by rw [same, runValid.elements_eq, startEq, lastEq]⟩

theorem denseRun_denotes {set : RunSet} {least greatest stride : ℤ} {count : ℕ} {run : Run}
    (dense : DenseIterate set.elements least greatest stride count)
    (startIn : InInt64 (count * least))
    (made : makeRunThrough (count * least) stride (count * greatest) = some run) :
    Denotes ⟨[run]⟩ (sums set.elements count) := by
  obtain ⟨valid, _, _, elementsEq⟩ := makeRunThrough_eq_some startIn made
  exact ⟨valid_single_run valid, by rw [elements_single_run, elementsEq, dense]⟩

theorem sum_denotes {set term next : RunSet} (valid : set.Valid) {count : ℕ}
    (denotes : term.Denotes (sums set.elements count)) (summed : sum term set = some next) :
    next.Denotes (sums set.elements (count + 1)) := by
  have spec := sum_spec denotes.valid valid summed
  rwa [denotes.elements, ← sums_succ] at spec

/-- The jump is exact: two single iterates of one stride pin all later ones. -/
theorem repeatedJump_spec {set term next out : RunSet} (valid : set.Valid) {count : ℤ} {j : ℕ}
    (drawn : 1 ≤ j) (within : (j : ℤ) + 1 ≤ count)
    (termDenotes : term.Denotes (sums set.elements j))
    (nextDenotes : next.Denotes (sums set.elements (j + 1))) (termOne : term.runs.length = 1)
    (nextOne : next.runs.length = 1) (sameStride : next.frontRun.stride = term.frontRun.stride)
    (jumped : repeatedJump set count (j + 1) next.frontRun = some out) :
    out.Denotes (sums set.elements count.toNat) := by
  obtain ⟨_, _, termEq⟩ := iterate_of_length_one valid termDenotes termOne
  obtain ⟨nextStart, nextLast, nextEq⟩ := iterate_of_length_one valid nextDenotes nextOne
  have congruent := congruent_of_single_iterate (isLeast_min valid) nextEq
  have dense : DenseIterate set.elements set.min set.max next.frontRun.stride j :=
    sameStride ▸ termEq
  have later := dense.of_le (isLeast_min valid) (isGreatest_max valid) congruent drawn
    (show j ≤ count.toNat by omega)
  have total : ((count.toNat : ℕ) : ℤ) = count := Int.toNat_of_nonneg (by omega)
  simp only [repeatedJump, Option.bind_eq_some_iff, Option.map_eq_some_iff,
    checkedMultiply_eq_some, checkedAdd_eq_some] at jumped
  obtain ⟨_, ⟨_, rfl⟩, _, ⟨startIn, rfl⟩, _, ⟨_, rfl⟩, _, ⟨_, rfl⟩, run, made, rfl⟩ := jumped
  have reach : ∀ value : ℤ, ((j + 1 : ℕ) : ℤ) * value + (count - (j + 1 : ℕ)) * value =
      (count.toNat : ℕ) * value := fun value => by
    rw [total]
    ring
  rw [nextStart, reach] at startIn made
  rw [nextLast, reach] at made
  exact denseRun_denotes later startIn made

theorem repeatedLoop_spec {set : RunSet} (valid : set.Valid) {count : ℤ} (fuel : ℕ) :
    ∀ {j : ℕ} {term out : RunSet}, 1 ≤ j → (j : ℤ) ≤ count →
      term.Denotes (sums set.elements j) →
        repeatedLoop set count fuel (j + 1) term = some out →
          out.Denotes (sums set.elements count.toNat) := by
  induction fuel with
  | zero => intro j term out _ _ _ found; simp [repeatedLoop] at found
  | succ fuel ih =>
      intro j term out drawn within denotes found
      rw [repeatedLoop] at found
      split at found
      · rename_i past
        obtain rfl := Option.some.inj found
        have done : count.toNat = j := by push_cast at past; omega
        rwa [done]
      · rename_i more
        push_cast at more
        obtain ⟨next, summed, found⟩ := Option.bind_eq_some_iff.mp found
        have nextDenotes := sum_denotes valid denotes summed
        dsimp only at found
        split at found
        · rename_i pinned
          split at found
          · rename_i last
            obtain rfl := Option.some.inj found
            have done : count.toNat = j + 1 := by push_cast at last; omega
            rwa [done]
          · exact repeatedJump_spec valid drawn (by omega) denotes nextDenotes pinned.1 pinned.2.1
              pinned.2.2.1 found
        · split at found
          · exact absurd found (by simp)
          · exact ih (by omega) (by push_cast; omega) nextDenotes found

/-- **Repetition is exact**, by iteration or by the jump. -/
theorem repeated_spec {set out : RunSet} (valid : set.Valid) {count : ℤ}
    (found : set.repeated count = some out) : out.Denotes (sums set.elements count.toNat) := by
  unfold repeated at found
  split at found
  · rename_i none
    obtain rfl := Option.some.inj found
    rw [Int.toNat_of_nonpos none]
    exact zero_denotes
  · split at found
    · rename_i one
      obtain rfl := Option.some.inj found
      subst one
      exact ⟨valid, sums_one.symm⟩
    · exact repeatedLoop_spec valid kMaxIterations le_rfl (by push_cast; omega)
        ⟨valid, sums_one.symm⟩ found

/-! ### Range repetition: definitions -/

/-- `{0, c, ..., countMax * c}` for a singleton `{c}`. -/
def repeatRangeSingleton (c countMax : ℤ) : Option RunSet :=
  if c = 0 then some (ofValue 0)
  else
    (checkedAdd countMax 1).bind fun runCount =>
      let span := countMax * c
      if span < int64Min ∨ span > int64Max then none
      else
        let stride := if c < 0 then -c else c
        if stride > int64Max then
          if countMax = 1 then some (fromValues (FlatSet.ofVector [span, 0])) else none
        else
          let start := if c < 0 then span else 0
          (makeRun start stride runCount).map fun run => ⟨[run]⟩

/-- The direct iteration for sets with a negative element. -/
def repeatRangeSigned (set : RunSet) (countMax : ℤ) : ℕ → ℕ → RunSet → RunSet → Option RunSet
  | 0, _, _, _ => none
  | fuel + 1, k, acc, term =>
      (unite acc term).bind fun acc =>
        if (k : ℤ) = countMax then some acc
        else if k ≥ kMaxIterations then none
        else (sum term set).bind fun next => repeatRangeSigned set countMax fuel (k + 1) acc next

def differenceGcd (m : ℤ) : ℤ → List Run → Option ℤ
  | g, [] => some g
  | g, r :: rest =>
      let g := if r.count > 1 then stdGcd g r.stride else g
      let startGap := r.start - m
      if startGap < 0 ∨ startGap > int64Max then none
      else differenceGcd m (stdGcd g startGap) rest

/-- `T_k` is the dense run from `k * m` through `k * M` with stride `g`. -/
def isDenseTerm (term : RunSet) (km kM g : ℤ) : Bool :=
  term.runs.length == 1 && (term.frontRun.start == km && term.frontRun.last == kM &&
    (term.frontRun.stride == g || term.frontRun.count == 1))

/-- Unite the `k`-fold sums: `inl` is the whole union, `inr` the draws and the
union reached when the term is dense. -/
def repeatRangeIterate (set : RunSet) (countMax g : ℤ) :
    ℕ → ℕ → RunSet → RunSet → Option (RunSet ⊕ ℕ × RunSet)
  | 0, _, _, _ => none
  | fuel + 1, k, acc, term =>
      (unite acc term).bind fun acc =>
        if (k : ℤ) = countMax then some (.inl acc)
        else
          (checkedMultiply k set.min).bind fun km =>
            (checkedMultiply k set.max).bind fun kM =>
              if isDenseTerm term km kM g then some (.inr (k, acc))
              else if k ≥ kMaxIterations then none
              else (sum term set).bind fun next =>
                repeatRangeIterate set countMax g fuel (k + 1) acc next

/-- Whether the families at or beyond `j` chain: `(j + P) * m <= j * M + g`. -/
def chains (j P m jM g : ℤ) : Bool :=
  match (checkedAdd j P).bind fun next => checkedMultiply next m, checkedAdd jM g with
  | some nextSameFamilyStart, some reach => nextSameFamilyStart ≤ reach
  | _, _ => false

/-- Unite dense terms one by one until the families chain; `k` is where the tail began. -/
def repeatRangeTail (set : RunSet) (countMax g P : ℤ) (k : ℕ) :
    ℕ → ℕ → RunSet → Option (RunSet ⊕ ℕ × RunSet)
  | 0, _, _ => none
  | fuel + 1, j, acc =>
      if (j : ℤ) > countMax then some (.inr (j, acc))
      else
        (checkedMultiply j set.min).bind fun jm =>
          (checkedMultiply j set.max).bind fun jM =>
            if chains j P set.min jM g then some (.inr (j, acc))
            else if j - k > kMaxIterations then none
            else
              (makeRunThrough jm g jM).bind fun run =>
                (unite acc ⟨[run]⟩).bind fun acc =>
                  if (j : ℤ) = countMax then some (.inl acc)
                  else repeatRangeTail set countMax g P k fuel (j + 1) acc

/-- Unite the chained family whose first member has `j0` draws. -/
def repeatRangeFamily (set : RunSet) (countMax g P j0 : ℤ) (acc : RunSet) : Option RunSet :=
  let jEnd := j0 + (countMax - j0).tdiv P * P
  (checkedMultiply j0 set.min).bind fun lo =>
    (checkedMultiply jEnd set.max).bind fun hi =>
      (makeRunThrough lo g hi).bind fun run => unite acc ⟨[run]⟩

/-- Unite the families of phase `f` on. A family spends one unit of budget; the
first argument is the budget left plus one. -/
def repeatRangeFamilies (set : RunSet) (countMax g P : ℤ) (j : ℕ) : ℕ → ℕ → RunSet → Option RunSet
  | 0, _, _ => none
  | budget + 1, f, acc =>
      if (f : ℤ) < P then
        match checkedAdd j f with
        | none => some acc
        | some j0 =>
            if j0 > countMax then some acc
            else
              (repeatRangeFamily set countMax g P j0 acc).bind fun acc =>
                repeatRangeFamilies set countMax g P j budget (f + 1) acc
      else some acc

/-- The closed-form tail past `k` draws. -/
def repeatRangeClosed (set : RunSet) (countMax g : ℤ) (k : ℕ) (acc : RunSet) : Option RunSet :=
  let mModG := euclideanModulo set.min g
  let P := if mModG = 0 then 1 else g.tdiv (stdGcd g mModG)
  (repeatRangeTail set countMax g P k (kMaxIterations + 2) (k + 1) acc).bind fun reached =>
    match reached with
    | .inl acc => some acc
    | .inr (j, acc) => repeatRangeFamilies set countMax g P j (kOpBudget + 1) 0 acc

/-- The branch for non-negative sets without zero. -/
def repeatRangePositive (set : RunSet) (countMax : ℤ) : Option RunSet :=
  (differenceGcd set.min 0 set.runs).bind fun g =>
    let g := if g = 0 then 1 else g
    (repeatRangeIterate set countMax g kMaxIterations 1 (ofValue 0) set).bind fun reached =>
      match reached with
      | .inl acc => some acc
      | .inr (k, acc) => repeatRangeClosed set countMax g k acc

/-- `RunSet::repeatRange`. -/
def repeatRange (set : RunSet) (countMax : ℤ) : Option RunSet :=
  if countMax ≤ 0 then some (ofValue 0)
  else if set.count = some 1 then repeatRangeSingleton set.min countMax
  else if set.min < 0 then
    repeatRangeSigned set countMax kMaxIterations 1 (ofValue 0) set
  else if set.contains 0 then set.repeated countMax
  else repeatRangePositive set countMax

/-! ### Range repetition: exactness -/

theorem mem_sumsUpTo_singleton {c v : ℤ} {bound : ℕ} :
    v ∈ sumsUpTo {c} bound ↔ ∃ i : ℕ, i ≤ bound ∧ v = i * c := by
  refine exists_congr fun i => and_congr_right fun _ => ?_
  rw [show foldSums (· + ·) 0 {c} i = sums {c} i from rfl, sums_singleton, Set.mem_singleton_iff]

theorem repeatRangeSingleton_spec {c countMax : ℤ} {out : RunSet} (positive : 0 < countMax)
    (found : repeatRangeSingleton c countMax = some out) :
    out.Denotes (sumsUpTo {c} countMax.toNat) := by
  have zeroIn : InInt64 0 := ⟨int64Min_neg.le, int64Max_pos.le⟩
  unfold repeatRangeSingleton at found
  split at found
  · rename_i zero
    obtain rfl := Option.some.inj found
    have only : sumsUpTo {c} countMax.toNat = {0} := by
      ext v
      rw [mem_sumsUpTo_singleton, zero]
      simp only [mul_zero, Set.mem_singleton_iff]
      exact ⟨fun ⟨_, _, same⟩ => same, fun same => ⟨0, Nat.zero_le _, same⟩⟩
    rw [only]
    exact zero_denotes
  · obtain ⟨runCount, counted, found⟩ := Option.bind_eq_some_iff.mp found
    obtain ⟨countIn, rfl⟩ := checkedAdd_eq_some.mp counted
    dsimp only at found
    split at found
    · exact absurd found (by simp)
    · rename_i spanFits
      obtain ⟨spanMin, spanMax⟩ := not_or.mp spanFits
      have spanIn : InInt64 (countMax * c) := ⟨not_lt.mp spanMin, not_lt.mp spanMax⟩
      by_cases large : (if c < 0 then -c else c) > int64Max
      · rw [if_pos large] at found
        obtain ⟨one, found⟩ := Option.ite_none_right_eq_some.mp found
        obtain rfl := Option.some.inj found
        subst one
        have pair : (FlatSet.ofVector [1 * c, 0]).toSet = sumsUpTo {c} (1 : ℤ).toNat := by
          ext v
          rw [FlatSet.mem_toSet, FlatSet.mem_ofVector, mem_sumsUpTo_singleton]
          constructor
          · intro member
            rcases List.mem_pair.mp member with rfl | rfl
            · exact ⟨1, le_rfl, by push_cast; rfl⟩
            · exact ⟨0, Nat.zero_le _, by simp⟩
          · rintro ⟨i, within, rfl⟩
            rcases Nat.le_one_iff_eq_zero_or_eq_one.mp within with rfl | rfl <;> simp
        have inhabited : (0 : ℤ) ∈ sumsUpTo {c} (1 : ℤ).toNat :=
          mem_sumsUpTo_singleton.mpr ⟨0, Nat.zero_le _, by simp⟩
        refine fromValues_denotes pair ⟨0, inhabited⟩ ?_
        intro v member
        obtain ⟨i, within, rfl⟩ := mem_sumsUpTo_singleton.mp member
        rcases Nat.le_one_iff_eq_zero_or_eq_one.mp within with rfl | rfl
        · simpa using zeroIn
        · exact spanIn
      · rw [if_neg large] at found
        obtain ⟨run, made, rfl⟩ := Option.map_eq_some_iff.mp found
        have startIn : InInt64 (if c < 0 then countMax * c else 0) := by
          split
          · exact spanIn
          · exact zeroIn
        obtain ⟨valid, _, _, _, stridePos, _, elementsEq⟩ := makeRun_eq_some startIn countIn.2 made
        refine ⟨valid_single_run valid, ?_⟩
        rw [elements_single_run, elementsEq]
        ext v
        rw [mem_progression_index stridePos, mem_sumsUpTo_singleton]
        split
        · -- Downward: the run starts at the last multiple.
          constructor
          · rintro ⟨index, nonneg, below, rfl⟩
            refine ⟨(countMax - index).toNat, by omega, ?_⟩
            rw [Int.toNat_of_nonneg (by omega)]
            ring
          · rintro ⟨i, within, rfl⟩
            exact ⟨countMax - i, by omega, by omega, by ring⟩
        · constructor
          · rintro ⟨index, nonneg, below, rfl⟩
            refine ⟨index.toNat, by omega, ?_⟩
            rw [Int.toNat_of_nonneg nonneg, zero_add]
          · rintro ⟨i, within, rfl⟩
            exact ⟨i, by omega, by omega, by ring⟩

theorem unite_denotes {a b out : RunSet} {left right : Set ℤ} (denotesA : a.Denotes left)
    (denotesB : b.Denotes right) (united : unite a b = some out) : out.Denotes (left ∪ right) := by
  have spec := unite_spec denotesA.valid denotesB.valid united
  rwa [denotesA.elements, denotesB.elements] at spec

theorem unite_term_denotes {set acc term out : RunSet} {k : ℕ}
    (accDenotes : acc.Denotes (sumsUpTo set.elements k))
    (termDenotes : term.Denotes (sums set.elements (k + 1))) (united : unite acc term = some out) :
    out.Denotes (sumsUpTo set.elements (k + 1)) := by
  have spec := unite_denotes accDenotes termDenotes united
  rwa [← foldSumsUpTo_succ] at spec

section Range

variable {set : RunSet} (valid : set.Valid) {countMax : ℤ}

include valid

theorem repeatRangeSigned_spec (fuel : ℕ) : ∀ {k : ℕ} {acc term out : RunSet},
    acc.Denotes (sumsUpTo set.elements k) → term.Denotes (sums set.elements (k + 1)) →
      repeatRangeSigned set countMax fuel (k + 1) acc term = some out →
        out.Denotes (sumsUpTo set.elements countMax.toNat) := by
  induction fuel with
  | zero => intro k acc term out _ _ found; simp [repeatRangeSigned] at found
  | succ fuel ih =>
      intro k acc term out accDenotes termDenotes found
      obtain ⟨united, unitedEq, found⟩ := Option.bind_eq_some_iff.mp found
      have unitedDenotes := unite_term_denotes accDenotes termDenotes unitedEq
      split at found
      · rename_i last
        obtain rfl := Option.some.inj found
        rwa [← last, Int.toNat_natCast]
      · split at found
        · exact absurd found (by simp)
        · obtain ⟨next, summed, found⟩ := Option.bind_eq_some_iff.mp found
          exact ih unitedDenotes (sum_denotes valid termDenotes summed) found

theorem isDenseTerm_spec {term : RunSet} {k : ℕ} {g : ℤ}
    (denotes : term.Denotes (sums set.elements k))
    (detected : isDenseTerm term (k * set.min) (k * set.max) g = true) :
    DenseIterate set.elements set.min set.max g k := by
  simp only [isDenseTerm, Bool.and_eq_true, Bool.or_eq_true, beq_iff_eq] at detected
  obtain ⟨one, ⟨_, _⟩, sameStride | single⟩ := detected
  · exact sameStride ▸ (iterate_of_length_one valid denotes one).2.2
  · obtain ⟨startEq, lastEq, same⟩ := iterate_of_length_one valid denotes one
    have ends : term.frontRun.last = term.frontRun.start := by simp [last, single]
    rw [startEq, lastEq] at ends
    rw [DenseIterate, same, ends, progression_self, progression_self]

theorem repeatRangeIterate_spec {g : ℤ} (fuel : ℕ) :
    ∀ {k : ℕ} {acc term : RunSet} {reached : RunSet ⊕ ℕ × RunSet}, (k : ℤ) < countMax →
      acc.Denotes (sumsUpTo set.elements k) → term.Denotes (sums set.elements (k + 1)) →
        repeatRangeIterate set countMax g fuel (k + 1) acc term = some reached →
          (∀ out, reached = .inl out → out.Denotes (sumsUpTo set.elements countMax.toNat)) ∧
          ∀ draws out, reached = .inr (draws, out) → 1 ≤ draws ∧ (draws : ℤ) < countMax ∧
            out.Denotes (sumsUpTo set.elements draws) ∧
              DenseIterate set.elements set.min set.max g draws := by
  induction fuel with
  | zero => intro k acc term reached _ _ _ found; simp [repeatRangeIterate] at found
  | succ fuel ih =>
      intro k acc term reached below accDenotes termDenotes found
      obtain ⟨united, unitedEq, found⟩ := Option.bind_eq_some_iff.mp found
      have unitedDenotes := unite_term_denotes accDenotes termDenotes unitedEq
      split at found
      · rename_i last
        obtain rfl := Option.some.inj found
        refine ⟨fun out same => ?_, fun draws out same => by simp at same⟩
        obtain rfl := Sum.inl.inj same
        rwa [← last, Int.toNat_natCast]
      · rename_i notLast
        have more : ((k + 1 : ℕ) : ℤ) < countMax := by push_cast at notLast ⊢; omega
        simp only [Option.bind_eq_some_iff, checkedMultiply_eq_some] at found
        obtain ⟨_, ⟨_, rfl⟩, _, ⟨_, rfl⟩, found⟩ := found
        split at found
        · rename_i detected
          obtain rfl := Option.some.inj found
          refine ⟨fun out same => by simp at same, fun draws out same => ?_⟩
          obtain ⟨rfl, rfl⟩ := Prod.mk.inj (Sum.inr.inj same)
          exact ⟨by omega, more, unitedDenotes, isDenseTerm_spec valid termDenotes detected⟩
        · split at found
          · exact absurd found (by simp)
          · obtain ⟨next, summed, found⟩ := Option.bind_eq_some_iff.mp found
            have nextDenotes := sum_denotes valid termDenotes summed
            exact ih more unitedDenotes nextDenotes found

omit valid in
theorem differenceGcd_spec {m : ℤ} (runs : List Run) : ∀ {g result : ℤ},
    (∀ run ∈ runs, run.Valid) → 0 ≤ g → differenceGcd m g runs = some result →
      0 ≤ result ∧ result ∣ g ∧ ∀ v ∈ unionOf runs, result ∣ v - m := by
  induction runs with
  | nil =>
      intro g result _ nonneg found
      obtain rfl := Option.some.inj found
      exact ⟨nonneg, dvd_rfl, by simp⟩
  | cons r rest ih =>
      intro g result canonical nonneg found
      have runValid := canonical r (by simp)
      simp only [differenceGcd, Option.ite_none_left_eq_some] at found
      obtain ⟨_, found⟩ := found
      obtain ⟨resultNonneg, divides, later⟩ := ih
        (fun run member => canonical run (by simp [member])) (Int.natCast_nonneg _) found
      have gap : result ∣ r.start - m := divides.trans (stdGcd_dvd_right _ _)
      have inner := divides.trans (stdGcd_dvd_left _ _)
      have atG : result ∣ g := by
        split at inner
        · exact inner.trans (stdGcd_dvd_left _ _)
        · exact inner
      refine ⟨resultNonneg, atG, ?_⟩
      rw [unionOf_cons]
      rintro v (⟨i, lower, upper, rfl⟩ | member)
      · have multiple : result ∣ i * r.stride := by
          split at inner
          · exact (inner.trans (stdGcd_dvd_right _ _)).mul_left i
          · have zero : i = 0 := by omega
            simp [zero]
        rw [add_sub_right_comm]
        exact dvd_add gap multiple
      · exact later v member

omit valid in
/-- Where the check succeeds, the family of `j` meets its successor. -/
theorem meets_of_chains {j : ℕ} {P m jM g : ℤ} (found : chains j P m jM g = true) :
    (j + P) * m ≤ jM + g := by
  unfold chains at found
  split at found
  · rename_i start reach startEq reachEq
    obtain ⟨next, nextEq, startEq⟩ := Option.bind_eq_some_iff.mp startEq
    obtain ⟨_, rfl⟩ := checkedAdd_eq_some.mp nextEq
    obtain ⟨_, rfl⟩ := checkedMultiply_eq_some.mp startEq
    obtain ⟨_, rfl⟩ := checkedAdd_eq_some.mp reachEq
    exact of_decide_eq_true found
  · exact absurd found (by simp)

section Tail

variable {g : ℤ} (congruent : ∀ x ∈ set.elements, g ∣ x - set.min) {k : ℕ} (drawn : 1 ≤ k)
  (dense : DenseIterate set.elements set.min set.max g k)

include congruent drawn dense

theorem repeatRangeTail_spec {P : ℤ} (fuel : ℕ) :
    ∀ {j : ℕ} {acc : RunSet} {reached : RunSet ⊕ ℕ × RunSet}, k ≤ j → (j : ℤ) ≤ countMax →
      acc.Denotes (sumsUpTo set.elements j) →
        repeatRangeTail set countMax g P k fuel (j + 1) acc = some reached →
          (∀ out, reached = .inl out → out.Denotes (sumsUpTo set.elements countMax.toNat)) ∧
          ∀ first out, reached = .inr (first, out) → ∃ i, first = i + 1 ∧ k ≤ i ∧
            (i : ℤ) ≤ countMax ∧ out.Denotes (sumsUpTo set.elements i) ∧
              ((first : ℤ) ≤ countMax → (first + P) * set.min ≤ first * set.max + g) := by
  induction fuel with
  | zero => intro j acc reached _ _ _ found; simp [repeatRangeTail] at found
  | succ fuel ih =>
      intro j acc reached later within denotes found
      rw [repeatRangeTail] at found
      split at found
      · rename_i past
        obtain rfl := Option.some.inj found
        refine ⟨fun out same => by simp at same, fun first out same => ?_⟩
        obtain ⟨rfl, rfl⟩ := Prod.mk.inj (Sum.inr.inj same)
        exact ⟨j, rfl, later, within, denotes, fun inside => absurd inside (by omega)⟩
      · rename_i inside
        simp only [Option.bind_eq_some_iff, checkedMultiply_eq_some] at found
        obtain ⟨_, ⟨startIn, rfl⟩, _, ⟨_, rfl⟩, found⟩ := found
        split at found
        · rename_i meets
          obtain rfl := Option.some.inj found
          refine ⟨fun out same => by simp at same, fun first out same => ?_⟩
          obtain ⟨rfl, rfl⟩ := Prod.mk.inj (Sum.inr.inj same)
          exact ⟨j, rfl, later, within, denotes, fun _ => meets_of_chains meets⟩
        · split at found
          · exact absurd found (by simp)
          · simp only [Option.bind_eq_some_iff] at found
            obtain ⟨run, made, united, unitedEq, found⟩ := found
            have termDense := dense.of_le (isLeast_min valid) (isGreatest_max valid) congruent
              drawn (show k ≤ j + 1 by omega)
            have unitedDenotes := unite_term_denotes denotes
              (denseRun_denotes termDense startIn made) unitedEq
            split at found
            · rename_i last
              obtain rfl := Option.some.inj found
              refine ⟨fun out same => ?_, fun first out same => by simp at same⟩
              obtain rfl := Sum.inl.inj same
              rwa [← last, Int.toNat_natCast]
            · exact ih (by omega) (by push_cast at inside ⊢; omega)
                unitedDenotes found

end Tail

end Range

/-- The sums covered when the families of phase below `f` have been united. -/
def familiesBelow (s : Set ℤ) (countMax : ℤ) (j P f : ℕ) : Set ℤ :=
  {v | ∃ n : ℕ, (n : ℤ) ≤ countMax ∧ (n < j ∨ (n - j) % P < f) ∧ v ∈ sums s n}

theorem familiesBelow_zero (s : Set ℤ) {countMax : ℤ} {j : ℕ} (P : ℕ)
    (within : (j : ℤ) ≤ countMax) :
    familiesBelow s countMax (j + 1) P 0 = sumsUpTo s j := by
  ext v
  constructor
  · rintro ⟨n, _, phase, member⟩
    exact ⟨n, by omega, member⟩
  · rintro ⟨n, below, member⟩
    exact ⟨n, by omega, Or.inl (by omega), member⟩

theorem familiesBelow_all (s : Set ℤ) {countMax : ℤ} {j P f : ℕ} (nonneg : 0 ≤ countMax)
    (positive : 0 < P) (done : P ≤ f ∨ countMax < (j + f : ℕ)) :
    familiesBelow s countMax j P f = sumsUpTo s countMax.toNat := by
  ext v
  constructor
  · rintro ⟨n, below, _, member⟩
    exact ⟨n, by omega, member⟩
  · rintro ⟨n, below, member⟩
    refine ⟨n, by omega, ?_, member⟩
    have phaseLt := Nat.mod_lt (n - j) positive
    have phaseLe := Nat.mod_le (n - j) P
    omega

theorem familiesBelow_succ (s : Set ℤ) {countMax : ℤ} {j P f : ℕ} (phase : f < P)
    (inside : ((j + f : ℕ) : ℤ) ≤ countMax) :
    familiesBelow s countMax j P (f + 1) = familiesBelow s countMax j P f ∪
      {v | ∃ i ≤ ((countMax - (j + f : ℕ)) / P).toNat, v ∈ sums s (j + f + i * P)} := by
  have positive : (0 : ℤ) < P := by omega
  have quotientNonneg : 0 ≤ (countMax - (j + f : ℕ)) / P := Int.ediv_nonneg (by omega) positive.le
  have reach : ∀ i : ℕ, i ≤ ((countMax - (j + f : ℕ)) / P).toNat ↔
      ((j + f + i * P : ℕ) : ℤ) ≤ countMax := by
    intro i
    rw [Int.le_toNat quotientNonneg, Int.le_ediv_iff_mul_le positive]
    push_cast
    omega
  ext v
  constructor
  · rintro ⟨n, below, below' | phaseLe, member⟩
    · exact Or.inl ⟨n, below, Or.inl below', member⟩
    · by_cases earlier : n < j ∨ (n - j) % P < f
      · exact Or.inl ⟨n, below, earlier, member⟩
      · have split := Nat.mod_add_div (n - j) P
        rw [mul_comm] at split
        have here : j + f + (n - j) / P * P = n := by omega
        exact Or.inr ⟨(n - j) / P, (reach _).mpr (by rw [here]; exact below), here.symm ▸ member⟩
  · rintro (⟨n, below, earlier, member⟩ | ⟨i, within, member⟩)
    · exact ⟨n, below, by omega, member⟩
    · refine ⟨_, (reach i).mp within, Or.inr ?_, member⟩
      have offset : j + f + i * P - j = f + P * i := by rw [mul_comm i]; omega
      rw [offset, Nat.add_mul_mod_self_left, Nat.mod_eq_of_lt phase]
      omega

section Range

variable {set : RunSet} (valid : set.Valid) {countMax g : ℤ} (nonneg : 0 ≤ set.min)
  (congruent : ∀ x ∈ set.elements, g ∣ x - set.min)

include valid nonneg congruent

section Families

variable (fits : countMax ≤ int64Max) (countNonneg : 0 ≤ countMax) {j P : ℕ} (positive : 0 < P)
  (returns : g ∣ P * set.min) {first : ℕ} (drawn : 1 ≤ first) (later : first ≤ j)
  (dense : DenseIterate set.elements set.min set.max g first)
  (meets : (j : ℤ) ≤ countMax → (j + P) * set.min ≤ j * set.max + g)

include returns drawn later dense meets

theorem repeatRangeFamily_spec {f : ℕ} {acc united : RunSet} (phase : f < P)
    (inside : ((j + f : ℕ) : ℤ) ≤ countMax)
    (denotes : acc.Denotes (familiesBelow set.elements countMax j P f))
    (made : repeatRangeFamily set countMax g P (j + f : ℕ) acc = some united) :
    united.Denotes (familiesBelow set.elements countMax j P (f + 1)) := by
  have spread := (isLeast_min valid).2 (isGreatest_max valid).1
  simp only [repeatRangeFamily, Option.bind_eq_some_iff, checkedMultiply_eq_some] at made
  obtain ⟨_, ⟨startIn, rfl⟩, _, ⟨_, rfl⟩, run, made, united⟩ := made
  have quotientNonneg : 0 ≤ (countMax - (j + f : ℕ)) / P := Int.ediv_nonneg (by omega) (by omega)
  have meetsHere : ((j + f + P : ℕ) : ℤ) * set.min ≤ (j + f : ℕ) * set.max + g := by
    have atJ := meets (by push_cast at inside; omega)
    have slack : (f : ℤ) * set.min ≤ f * set.max :=
      mul_le_mul_of_nonneg_left spread (Int.natCast_nonneg f)
    push_cast
    linarith
  have reached := later.trans (Nat.le_add_right j f)
  have chained := DenseIterate.chain (isLeast_min valid) (isGreatest_max valid) congruent nonneg
    (drawn.trans reached)
    (dense.of_le (isLeast_min valid) (isGreatest_max valid) congruent drawn reached) returns
    meetsHere ((countMax - (j + f : ℕ)) / P).toNat
  have lastEq : ((j + f : ℕ) : ℤ) + (countMax - (j + f : ℕ)).tdiv P * P =
      (j + f + ((countMax - (j + f : ℕ)) / P).toNat * P : ℕ) := by
    rw [Int.tdiv_eq_ediv_of_nonneg (by omega), Nat.cast_add (j + f), Nat.cast_mul,
      Int.toNat_of_nonneg quotientNonneg]
  rw [lastEq] at made
  obtain ⟨runValid, _, _, elementsEq⟩ := makeRunThrough_eq_some startIn made
  rw [familiesBelow_succ _ phase inside, chained, ← elementsEq, ← elements_single_run]
  exact unite_denotes denotes ⟨valid_single_run runValid, rfl⟩ united

include fits countNonneg positive

/-- **Chained families are exact**: together they cover every remaining sum. -/
theorem repeatRangeFamilies_spec (budget : ℕ) : ∀ {f : ℕ} {acc out : RunSet},
    acc.Denotes (familiesBelow set.elements countMax j P f) →
      repeatRangeFamilies set countMax g P j budget f acc = some out →
        out.Denotes (sumsUpTo set.elements countMax.toNat) := by
  induction budget with
  | zero => intro f acc out _ found; simp [repeatRangeFamilies] at found
  | succ budget ih =>
      intro f acc out denotes found
      -- Every way out of the loop has all phases behind it.
      have complete : P ≤ f ∨ countMax < (j + f : ℕ) → some acc = some out →
          out.Denotes (sumsUpTo set.elements countMax.toNat) := fun done same =>
        Option.some.inj same ▸ familiesBelow_all _ countNonneg positive done ▸ denotes
      rw [repeatRangeFamilies] at found
      split at found
      · rename_i phase
        split at found
        · rename_i overflow
          refine complete (Or.inr ?_) found
          by_contra inside
          have lowest := int64Min_neg
          exact checkedAdd_eq_none.mp overflow ⟨by omega, by push_cast at inside; omega⟩
        · rename_i j0 added
          obtain ⟨_, rfl⟩ := checkedAdd_eq_some.mp added
          split at found
          · rename_i past
            exact complete (Or.inr (by push_cast; exact past)) found
          · rename_i inside
            obtain ⟨united, unitedEq, found⟩ := Option.bind_eq_some_iff.mp found
            rw [← Nat.cast_add] at unitedEq inside
            exact ih (repeatRangeFamily_spec valid nonneg congruent returns drawn
              later dense meets (by omega) (not_lt.mp inside) denotes unitedEq) found
      · rename_i done
        exact complete (Or.inl (by omega)) found

end Families

theorem repeatRangeClosed_spec (fits : countMax ≤ int64Max) (strideNonneg : 0 < g) {k : ℕ}
    (drawn : 1 ≤ k) (within : (k : ℤ) ≤ countMax)
    (dense : DenseIterate set.elements set.min set.max g k) {acc out : RunSet}
    (denotes : acc.Denotes (sumsUpTo set.elements k))
    (found : repeatRangeClosed set countMax g k acc = some out) :
    out.Denotes (sumsUpTo set.elements countMax.toNat) := by
  unfold repeatRangeClosed at found
  rw [euclideanModulo_eq strideNonneg] at found
  -- `P` draws return to the same residue.
  obtain ⟨P, PEq, positive, returns⟩ : ∃ P : ℕ, (if set.min % g = 0 then 1
      else g.tdiv (stdGcd g (set.min % g))) = (P : ℤ) ∧ 0 < P ∧ g ∣ P * set.min := by
    split
    · rename_i onIt
      exact ⟨1, rfl, by omega, by simpa using Int.dvd_of_emod_eq_zero onIt⟩
    · have gcdPos := stdGcd_pos strideNonneg (set.min % g)
      have gcdDvd := stdGcd_dvd_left g (set.min % g)
      have phasePos : 0 < g / stdGcd g (set.min % g) :=
        Int.ediv_pos_of_pos_of_dvd strideNonneg gcdPos.le gcdDvd
      refine ⟨(g / stdGcd g (set.min % g)).toNat, ?_, by omega, ?_⟩
      · rw [Int.tdiv_eq_ediv_of_nonneg strideNonneg.le, Int.toNat_of_nonneg phasePos.le]
      · rw [Int.toNat_of_nonneg phasePos.le]
        exact dvd_phase_mul gcdDvd (stdGcd_dvd_right g (set.min % g))
  dsimp only at found
  rw [PEq] at found
  obtain ⟨reached, tail, found⟩ := Option.bind_eq_some_iff.mp found
  obtain ⟨finished, chained⟩ :=
    repeatRangeTail_spec valid congruent drawn dense _ le_rfl within denotes tail
  cases reached with
  | inl united =>
      obtain rfl := Option.some.inj found
      exact finished united rfl
  | inr rest =>
      obtain ⟨first, united⟩ := rest
      obtain ⟨i, rfl, later, inside, unitedDenotes, meets⟩ := chained first united rfl
      rw [← familiesBelow_zero _ P inside] at unitedDenotes
      exact repeatRangeFamilies_spec valid nonneg congruent fits (by omega) positive returns drawn
        (show k ≤ i + 1 by omega) dense meets _ unitedDenotes found

end Range

/-- **Range repetition is exact**: by direct iteration, as a plain repetition
when zero may be drawn, or through the closed form. -/
theorem repeatRange_spec {set out : RunSet} (valid : set.Valid) {countMax : ℤ}
    (fits : countMax ≤ int64Max) (found : set.repeatRange countMax = some out) :
    out.Denotes (sumsUpTo set.elements countMax.toNat) := by
  have zero : (ofValue 0).Denotes (sumsUpTo set.elements 0) := by
    rw [sumsUpTo, foldSumsUpTo_zero]
    exact zero_denotes
  have once : set.Denotes (sums set.elements (0 + 1)) := ⟨valid, sums_one.symm⟩
  unfold repeatRange at found
  split at found
  · rename_i none
    obtain rfl := Option.some.inj found
    rwa [Int.toNat_of_nonpos none]
  · rename_i positive
    split at found
    · rename_i counted
      have size := count_eq_ncard valid counted
      obtain ⟨c, only⟩ := Set.ncard_eq_one.mp (by omega : set.elements.ncard = 1)
      have least := (isLeast_min valid).1
      rw [only, Set.mem_singleton_iff] at least
      rw [only, ← least]
      exact repeatRangeSingleton_spec (by omega) found
    · split at found
      · exact repeatRangeSigned_spec valid _ zero once found
      · rename_i nonneg
        split at found
        · rename_i holdsZero
          rw [sumsUpTo, foldSumsUpTo_eq_foldSums ((contains_iff valid 0).mp holdsZero)
            fun _ x _ => add_zero x]
          exact repeated_spec valid found
        · obtain ⟨g, differences, found⟩ := Option.bind_eq_some_iff.mp found
          obtain ⟨gNonneg, _, congruent⟩ :=
            differenceGcd_spec set.runs valid.placed.canonical le_rfl differences
          obtain ⟨reached, iterated, found⟩ := Option.bind_eq_some_iff.mp found
          have strideDvd : ∀ x ∈ set.elements, (if g = 0 then 1 else g) ∣ x - set.min := by
            intro x member
            split
            · exact one_dvd _
            · exact congruent x member
          have stridePos : 0 < if g = 0 then 1 else g := by split <;> omega
          obtain ⟨finished, densified⟩ :=
            repeatRangeIterate_spec valid _ (by push_cast; omega) zero once iterated
          cases reached with
          | inl united =>
              obtain rfl := Option.some.inj found
              exact finished united rfl
          | inr rest =>
              obtain ⟨k, united⟩ := rest
              obtain ⟨drawn, below, unitedDenotes, dense⟩ := densified k united rfl
              exact repeatRangeClosed_spec valid (not_lt.mp nonneg) strideDvd fits stridePos drawn
                below.le dense unitedDenotes found

end RunSet

end LlvmDsdl.Semantics
