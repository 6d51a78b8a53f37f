import LlvmDsdl.Semantics.RunSet.Run
import LlvmDsdl.Support.FlatSet

/-!
Contract: exact integer sets held as runs, their invariant and their queries.

Owns: `RunSet`, the representation invariant and the audit of it, extrema,
membership, cardinality, materialisation, and the greedy decomposition of an
explicit value set.

A run list between two operations may be empty; `Placed` is the invariant
without that demand.
-/

namespace LlvmDsdl.Semantics

open Support Support.IntegerMath Library.Progression Run

structure RunSet where
  runs : List Run
  deriving DecidableEq

/-- Canonical runs, sorted by start and without common elements. -/
structure Placed (runs : List Run) : Prop where
  canonical : ∀ run ∈ runs, run.Valid
  sorted : runs.Pairwise fun left right => left.start < right.start
  disjoint : runs.Pairwise fun left right => Disjoint left.elements right.elements

theorem placed_nil : Placed [] := ⟨by simp, .nil, .nil⟩

theorem placed_singleton {run : Run} (valid : run.Valid) : Placed [run] :=
  ⟨by simpa using valid, List.pairwise_singleton _ _, List.pairwise_singleton _ _⟩

theorem Placed.tail {first : Run} {rest : List Run} (placed : Placed (first :: rest)) :
    Placed rest :=
  ⟨fun run member => placed.canonical run (List.mem_cons_of_mem _ member), placed.sorted.of_cons,
    placed.disjoint.of_cons⟩

theorem Placed.head {first : Run} {rest : List Run} (placed : Placed (first :: rest)) :
    first.Valid :=
  placed.canonical first List.mem_cons_self

theorem subset_unionOf {runs : List Run} {run : Run} (member : run ∈ runs) :
    run.elements ⊆ unionOf runs :=
  fun _ inRun => ⟨run, member, inRun⟩

/-- A run whose elements avoid the others, below all of them, may lead. -/
theorem Placed.cons {first : Run} {rest : List Run} (valid : first.Valid) (placed : Placed rest)
    (avoids : Disjoint first.elements (unionOf rest))
    (below : ∀ v ∈ unionOf rest, first.start < v) : Placed (first :: rest) := by
  refine ⟨?_, List.pairwise_cons.mpr ⟨fun run member => ?_, placed.sorted⟩,
    List.pairwise_cons.mpr ⟨fun run member => ?_, placed.disjoint⟩⟩
  · intro run member
    rcases List.mem_cons.mp member with rfl | inRest
    · exact valid
    · exact placed.canonical run inRest
  · exact below run.start ⟨run, member, (placed.canonical run member).start_mem⟩
  · exact avoids.mono_right (subset_unionOf member)

theorem Placed.head_avoids {first : Run} {rest : List Run} (placed : Placed (first :: rest)) :
    Disjoint first.elements (unionOf rest) := by
  refine Set.disjoint_left.mpr ?_
  rintro v inFirst ⟨run, member, inRun⟩
  exact Set.disjoint_left.mp ((List.pairwise_cons.mp placed.disjoint).1 run member) inFirst inRun

theorem Placed.head_below {first : Run} {rest : List Run} (placed : Placed (first :: rest)) :
    ∀ v ∈ unionOf rest, first.start < v := by
  rintro v ⟨run, member, inRun⟩
  have valid := placed.canonical run (List.mem_cons_of_mem _ member)
  exact ((List.pairwise_cons.mp placed.sorted).1 run member).trans_le (valid.isLeast.2 inRun)

theorem Placed.inInt64 {runs : List Run} (placed : Placed runs) {v : ℤ}
    (member : v ∈ unionOf runs) :
    InInt64 v := by
  obtain ⟨run, inRuns, inRun⟩ := member
  have valid := placed.canonical run inRuns
  exact ⟨valid.lower.trans (valid.isLeast.2 inRun),
    (valid.isGreatest.2 inRun).trans valid.representable⟩

namespace RunSet

/-- The denoted set. -/
def elements (set : RunSet) : Set ℤ :=
  unionOf set.runs

/-- The representation invariant. -/
structure Valid (set : RunSet) : Prop where
  nonempty : set.runs ≠ []
  placed : Placed set.runs

def ofValue (value : ℤ) : RunSet := ⟨[single value]⟩

theorem valid_ofValue {value : ℤ} (inRange : InInt64 value) : (ofValue value).Valid :=
  ⟨by simp [ofValue], placed_singleton (valid_single inRange)⟩

@[simp] theorem elements_ofValue (value : ℤ) : (ofValue value).elements = {value} := by
  simp [elements, ofValue]

def validRun (r : Run) : Bool :=
  let span := (r.count - 1) * r.stride
  !(r.count < 1 || r.stride < 1 || (r.count == 1 && r.stride != 1)) &&
    !(span > int64Max || r.start + span > int64Max)

/-- Audit the runs after `previous`. -/
def validFrom : Option Run → List Run → Bool
  | _, [] => true
  | previous, r :: rest =>
      validRun r && (previous.all fun before => before.start < r.start) &&
        (rest.all fun other => !((intersectRuns r other).2 || (intersectRuns r other).1.isSome)) &&
          validFrom (some r) rest

/-- `RunSet::valid()`. -/
def valid (set : RunSet) : Bool :=
  !set.runs.isEmpty && validFrom none set.runs

theorem validRun_of_valid {r : Run} (canonical : r.Valid) : validRun r = true := by
  have countPos := canonical.countPos
  have stridePos := canonical.stridePos
  have spanLe := canonical.span
  have lastLe := canonical.representable
  have one := canonical.canonical
  rw [last] at lastLe
  simp only [validRun, Bool.and_eq_true, Bool.not_eq_true', Bool.or_eq_false_iff,
    decide_eq_false_iff_not, Bool.and_eq_false_iff, beq_eq_false_iff_ne, bne_eq_false_iff_eq]
  refine ⟨⟨⟨by omega, by omega⟩, ?_⟩, by omega, by omega⟩
  by_cases single : r.count = 1
  · exact Or.inr (one single)
  · exact Or.inl single

theorem validFrom_of_placed {runs : List Run} (placed : Placed runs) :
    ∀ previous : Option Run, (∀ before ∈ previous, ∀ run ∈ runs.head?, before.start < run.start) →
      validFrom previous runs = true := by
  induction runs with
  | nil => intro previous _; rfl
  | cons r rest ih =>
      intro previous before
      have rule : ∀ other ∈ rest,
          (!((intersectRuns r other).2 || (intersectRuns r other).1.isSome)) = true := by
        intro other member
        obtain ⟨result, resultEq, intersection⟩ :=
          intersectRuns_spec placed.head (placed.tail.canonical other member)
        have apart := (List.pairwise_cons.mp placed.disjoint).1 other member
        rw [resultEq]
        cases result with
        | none => rfl
        | some run =>
            obtain ⟨valid, elementsEq⟩ := intersection.exact run rfl
            have shared := valid.start_mem
            rw [elementsEq, apart.inter_eq] at shared
            exact shared.elim
      simp only [validFrom, Bool.and_eq_true]
      refine ⟨⟨⟨validRun_of_valid placed.head, ?_⟩, List.all_eq_true.mpr rule⟩,
        ih placed.tail (some r) ?_⟩
      · cases previous with
        | none => rfl
        | some first => simpa using before first rfl r rfl
      · intro first isHead run inHead
        obtain rfl := Option.some.inj isHead
        exact (List.pairwise_cons.mp placed.sorted).1 run (List.mem_of_mem_head? inHead)

theorem valid_of_valid {set : RunSet} (invariant : set.Valid) : set.valid = true := by
  have nonempty := invariant.nonempty
  rw [valid, validFrom_of_placed invariant.placed none (by simp)]
  simpa using nonempty

/-- Exact cardinality, or `none` when the sum leaves 64 bits. -/
def count (set : RunSet) : Option ℤ :=
  set.runs.foldlM (fun total r => checkedAdd total r.count) 0

/-- Smallest element: the runs are sorted by start and never empty. -/
def min (set : RunSet) : ℤ :=
  (set.runs.head?.getD {}).start

/-- Largest element: ranges may interleave, so every run is asked. -/
def max (set : RunSet) : ℤ :=
  set.runs.foldl (fun m r => Max.max m r.last) (set.runs.head?.getD {}).last

/-- Exact membership. -/
def contains (set : RunSet) (value : ℤ) : Bool :=
  set.runs.any fun r =>
    value ≥ r.start && value ≤ r.last && ((value - r.start).tmod r.stride == 0)

/-- The concrete elements of a set no larger than `limit`. -/
def materialize (set : RunSet) (limit : ℕ) : Option (FlatSet ℤ) :=
  match set.count with
  | none => none
  | some total =>
      if total > limit then none
      else
        let values := set.runs.flatMap fun r =>
          (List.range r.count.toNat).map fun i : ℕ => r.start + (i : ℤ) * r.stride
        some (FlatSet.sortedUnique (values.insertionSort (· ≤ ·)))

variable {set : RunSet}

theorem isLeast_min (valid : set.Valid) : IsLeast set.elements set.min := by
  obtain ⟨first, rest, runsEq⟩ := List.exists_cons_of_ne_nil valid.nonempty
  have placed := runsEq ▸ valid.placed
  have minEq : set.min = first.start := by rw [min, runsEq]; rfl
  rw [minEq, elements, runsEq, unionOf_cons]
  refine ⟨Or.inl placed.head.start_mem, ?_⟩
  rintro v (inFirst | inRest)
  · exact placed.head.isLeast.2 inFirst
  · exact (placed.head_below v inRest).le

private theorem foldl_max_spec (runs : List Run) (canonical : ∀ run ∈ runs, run.Valid) :
    ∀ start : ℤ, start ≤ runs.foldl (fun m r => Max.max m r.last) start ∧
      (∀ v ∈ unionOf runs, v ≤ runs.foldl (fun m r => Max.max m r.last) start) ∧
      (runs.foldl (fun m r => Max.max m r.last) start = start ∨
        runs.foldl (fun m r => Max.max m r.last) start ∈ unionOf runs) := by
  induction runs with
  | nil => intro start; simp
  | cons first rest ih =>
      intro start
      have firstValid := canonical first (by simp)
      obtain ⟨atLeast, bounds, source⟩ :=
        ih (fun run member => canonical run (by simp [member]))
          (Max.max start first.last)
      rw [List.foldl_cons, unionOf_cons]
      refine ⟨(le_max_left _ _).trans atLeast, ?_, ?_⟩
      · rintro v (inFirst | inRest)
        · exact (firstValid.isGreatest.2 inFirst).trans ((le_max_right _ _).trans atLeast)
        · exact bounds v inRest
      · rcases source with same | inRest
        · rcases max_choice start first.last with left | right
          · exact Or.inl (same.trans left)
          · rw [same, right]
            exact Or.inr (Or.inl firstValid.last_mem)
        · exact Or.inr (Or.inr inRest)

theorem isGreatest_max (valid : set.Valid) : IsGreatest set.elements set.max := by
  obtain ⟨first, rest, runsEq⟩ := List.exists_cons_of_ne_nil valid.nonempty
  obtain ⟨_, bounds, source⟩ := foldl_max_spec set.runs valid.placed.canonical
    (set.runs.head?.getD {}).last
  refine ⟨?_, fun v member => bounds v member⟩
  rcases source with same | inRuns
  · have headEq : set.runs.head?.getD {} = first := by rw [runsEq]; rfl
    have firstIn : first ∈ set.runs := by rw [runsEq]; simp
    rw [headEq] at same
    rw [max, headEq, same]
    exact subset_unionOf firstIn (valid.placed.canonical first firstIn).last_mem
  · exact inRuns

theorem contains_iff (valid : set.Valid) (value : ℤ) :
    set.contains value = true ↔ value ∈ set.elements := by
  simp only [contains, List.any_eq_true, Bool.and_eq_true, decide_eq_true_eq, beq_iff_eq]
  constructor
  · rintro ⟨run, member, ⟨lower, upper⟩, onIt⟩
    exact ⟨run, member, (valid.placed.canonical run member).mem_iff.mpr
      ⟨lower, upper, Int.dvd_of_tmod_eq_zero onIt⟩⟩
  · rintro ⟨run, member, inRun⟩
    obtain ⟨lower, upper, onIt⟩ := (valid.placed.canonical run member).mem_iff.mp inRun
    exact ⟨run, member, ⟨lower, upper⟩, Int.tmod_eq_zero_of_dvd onIt⟩

theorem finite_elements {runs : List Run} (placed : Placed runs) : (unionOf runs).Finite := by
  induction runs with
  | nil => simp
  | cons first rest ih =>
      rw [unionOf_cons]
      exact placed.head.finite.union (ih placed.tail)

/-- Runs share no element, so the counts add up to the cardinality. -/
theorem foldlM_count {runs : List Run} (placed : Placed runs) : ∀ {start total : ℤ},
    runs.foldlM (fun total r => checkedAdd total r.count) start = some total →
      total = start + (unionOf runs).ncard := by
  induction runs with
  | nil =>
      intro start total result
      have same : start = total := by simpa using result
      simp [same]
  | cons first rest ih =>
      intro start total result
      rw [List.foldlM_cons] at result
      obtain ⟨middle, headResult, tailResult⟩ := Option.bind_eq_some_iff.mp result
      obtain ⟨_, rfl⟩ := checkedAdd_eq_some.mp headResult
      rw [ih placed.tail tailResult, unionOf_cons,
        Set.ncard_union_eq placed.head_avoids placed.head.finite (finite_elements placed.tail)]
      push_cast
      rw [placed.head.ncard_elements]
      ring

theorem count_eq_ncard (valid : set.Valid) {total : ℤ} (counted : set.count = some total) :
    total = set.elements.ncard := by
  have result := foldlM_count valid.placed counted
  rwa [zero_add] at result

theorem mem_materialize {limit : ℕ} {values : FlatSet ℤ}
    (materialized : set.materialize limit = some values) (v : ℤ) :
    v ∈ values ↔ v ∈ set.elements := by
  unfold materialize at materialized
  split at materialized
  · exact absurd materialized (by simp)
  · split at materialized
    · exact absurd materialized (by simp)
    · obtain rfl := Option.some.inj materialized
      rw [FlatSet.mem_sortedUnique, List.mem_insertionSort, List.mem_flatMap]
      refine exists_congr fun run => and_congr_right fun _ => ?_
      simp only [List.mem_map, List.mem_range, Run.elements, Set.mem_ofPred_eq]
      constructor
      · rintro ⟨i, below, rfl⟩
        exact ⟨i, by omega, by omega, rfl⟩
      · rintro ⟨i, lower, upper, rfl⟩
        exact ⟨i.toNat, by omega, by rw [Int.toNat_of_nonneg lower]⟩

/-- Extend `cur` while the gap stays constant and the run representable. -/
def fromSorted (cur : Run) : List ℤ → List Run
  | [] => [cur]
  | v :: rest =>
      let gap := v - cur.last
      if cur.count = 1 ∧ gap ≤ int64Max then
        fromSorted { cur with stride := gap, count := 2 } rest
      else if cur.count > 1 ∧ gap = cur.stride then
        match (checkedAdd cur.count 1).bind fun nextCount =>
            makeRun cur.start cur.stride nextCount with
        | some extended => fromSorted extended rest
        | none => cur :: fromSorted (single v) rest
      else cur :: fromSorted (single v) rest

/-- `RunSet::fromValues`; an empty input denotes `{0}`. -/
def fromValues (values : FlatSet ℤ) : RunSet :=
  match values.data with
  | [] => ⟨[single 0]⟩
  | first :: rest => ⟨fromSorted (single first) rest⟩

theorem fromSorted_spec (rest : List ℤ) :
    ∀ {cur : Run}, cur.Valid → (∀ v ∈ rest, cur.last < v) → rest.Pairwise (· < ·) →
      (∀ v ∈ rest, InInt64 v) →
        Placed (fromSorted cur rest) ∧
          unionOf (fromSorted cur rest) = cur.elements ∪ {v | v ∈ rest} := by
  induction rest with
  | nil =>
      intro cur valid _ _ _
      exact ⟨placed_singleton valid, by simp [fromSorted]⟩
  | cons v rest ih =>
      intro cur valid above sorted inRange
      obtain ⟨later, restSorted⟩ := List.pairwise_cons.mp sorted
      have restInRange : ∀ w ∈ rest, InInt64 w := fun w member => inRange w (by simp [member])
      have vIn := inRange v (by simp)
      have vAbove := above v (by simp)
      have consSet : {w | w ∈ v :: rest} = {v} ∪ {w | w ∈ rest} := by
        ext w
        simp
      -- Closing `cur` and opening a new run at `v`.
      have closed : Placed (cur :: fromSorted (single v) rest) ∧
          unionOf (cur :: fromSorted (single v) rest) = cur.elements ∪ {w | w ∈ v :: rest} := by
        obtain ⟨placed, union⟩ := ih (valid_single vIn)
          (by simpa [single, last] using later) restSorted restInRange
        rw [elements_single, ← consSet] at union
        have outside : ∀ w ∈ unionOf (fromSorted (single v) rest), cur.last < w := by
          rw [union]
          exact above
        refine ⟨Placed.cons valid placed (Set.disjoint_left.mpr fun w inCur inRest => ?_)
          (fun w member => valid.start_le_last.trans_lt (outside w member)),
          by rw [unionOf_cons, union]⟩
        exact absurd (valid.isGreatest.2 inCur) (not_le.mpr (outside w inRest))
      -- Extending `cur` by `v`.
      have extend : ∀ extended : Run, extended.Valid → extended.last = v →
          extended.elements = cur.elements ∪ {v} →
          Placed (fromSorted extended rest) ∧
            unionOf (fromSorted extended rest) = cur.elements ∪ {w | w ∈ v :: rest} := by
        intro extended extendedValid lastEq elementsEq
        obtain ⟨placed, union⟩ := ih extendedValid
          (fun w member => lastEq ▸ later w member) restSorted restInRange
        exact ⟨placed, by rw [union, elementsEq, consSet, Set.union_assoc]⟩
      rw [fromSorted]
      split
      · rename_i opening
        obtain ⟨one, gapLe⟩ := opening
        have lastEq : cur.last = cur.start := by simp [last, one]
        have pairValid : Run.Valid { cur with stride := v - cur.last, count := 2 } :=
          ⟨valid.lower, by simp, by simp [int64Max], by simp only; omega, by simp,
            by simp only; omega, by simp only [last]; rw [← last, lastEq]; have := vIn.2; omega⟩
        have pairLast : Run.last { cur with stride := v - cur.last, count := 2 } = v := by
          simp only [last]
          rw [← last, lastEq]
          ring
        refine extend _ pairValid pairLast ?_
        have pairElements : Run.elements { cur with stride := v - cur.last, count := 2 } =
            progression cur.start (v - cur.last) v :=
          pairValid.elements_eq.trans (congrArg (progression cur.start (v - cur.last)) pairLast)
        rw [pairElements, valid.elements_eq, lastEq, progression_self,
          ← progression_self cur.start (v - cur.start)]
        exact (progression_snoc (by omega) le_rfl (by simp) (by ring)).symm
      · split
        · rename_i continuing
          obtain ⟨many, gapEq⟩ := continuing
          split
          · rename_i extended made
            obtain ⟨nextCount, counted, madeRun⟩ := Option.bind_eq_some_iff.mp made
            obtain ⟨countIn, rfl⟩ := checkedAdd_eq_some.mp counted
            have startIn : InInt64 cur.start :=
              ⟨valid.lower, valid.start_le_last.trans valid.representable⟩
            obtain ⟨extendedValid, _, _, _, _, lastEq, elementsEq⟩ :=
              makeRun_eq_some startIn countIn.2 madeRun
            have ends : cur.start + (cur.count + 1 - 1) * cur.stride = v := by
              have : cur.last = cur.start + (cur.count - 1) * cur.stride := rfl
              rw [add_sub_cancel_right]
              rw [sub_mul, one_mul] at this
              omega
            rw [ends] at lastEq elementsEq
            refine extend extended extendedValid lastEq ?_
            rw [elementsEq, valid.elements_eq]
            exact (progression_snoc valid.stridePos valid.start_le_last Run.Valid.reaches
              (by omega)).symm
          · exact closed
        · exact closed

/-- **Greedy decomposition is exact.** -/
theorem fromValues_spec {values : FlatSet ℤ} (nonempty : values.data ≠ [])
    (inRange : ∀ v ∈ values, InInt64 v) :
    (fromValues values).Valid ∧ (fromValues values).elements = values.toSet := by
  obtain ⟨first, rest, dataEq⟩ := List.exists_cons_of_ne_nil nonempty
  have sorted := values.sorted
  rw [dataEq] at sorted
  obtain ⟨later, restSorted⟩ := List.pairwise_cons.mp sorted
  have inData : ∀ v ∈ first :: rest, InInt64 v := fun v member => inRange v (by
    rwa [FlatSet.mem_def, dataEq])
  obtain ⟨placed, union⟩ := fromSorted_spec rest (valid_single (inData first (by simp)))
    (by simpa [single, last] using later) restSorted
    (fun v member => inData v (by simp [member]))
  have setEq : values.toSet = {first} ∪ {v | v ∈ rest} := by
    ext v
    rw [FlatSet.mem_toSet, FlatSet.mem_def, dataEq]
    simp
  have runsEq : (fromValues values).runs = fromSorted (single first) rest := by
    rw [fromValues, dataEq]
  refine ⟨⟨fun empty => ?_, runsEq ▸ placed⟩, ?_⟩
  · rw [runsEq] at empty
    have firstIn : first ∈ unionOf (fromSorted (single first) rest) := by
      rw [union]
      simp
    rw [empty] at firstIn
    simp at firstIn
  · rw [elements, runsEq, union, elements_single, setEq]

end RunSet

end LlvmDsdl.Semantics
