import LlvmDsdl.Semantics.RunSet.Basic

/-!
Contract: union of run sets.

Owns: the budgeted insertion of a run with its overlap resolution, the merging
of neighbours, and `unite` with the set it denotes.

Insertion works through a queue of pieces. Whatever it does to the queue, the
placed runs and the pending pieces together cover the same set; that is the
invariant its proof carries.
-/

namespace LlvmDsdl.Semantics

open Support Support.IntegerMath Library.Progression Run

namespace RunSet

def kOpBudget : ℕ := 65536

def kEnumUnionLimit : ℕ := 131072

/-- Test a piece against the existing runs. `none` refuses; otherwise the pieces
that replace it, or `none` when it overlaps no run, and the budget left. -/
def scan (piece : Run) : List Run → ℕ → Option (Option (List Run) × ℕ)
  | [], budget => some (none, budget)
  | existing :: rest, budget =>
      if budget = 0 then none
      else if piece.last < existing.start ∨ piece.start > existing.last then
        scan piece rest (budget - 1)
      else
        match intersectRuns piece existing with
        | (_, true) => none
        | (none, false) => scan piece rest (budget - 1)
        | (some isect, false) =>
            if isect.count = piece.count then some (some [], budget - 1)
            else
              (subtractSubProgression piece isect (budget - 1)).map fun (fragments, budget) =>
                (some fragments, budget)

/-- Insert before the first run that does not start earlier. -/
def insertByStart (piece : Run) : List Run → List Run
  | [] => [piece]
  | run :: rest =>
      if run.start < piece.start then run :: insertByStart piece rest else piece :: run :: rest

/-- Place the pending pieces, last first. Every round costs budget, so `budget`
rounds suffice. -/
def insertPending : ℕ → List Run → List Run → ℕ → Option (List Run × ℕ)
  | 0, _, _, _ => none
  | _ + 1, runs, [], budget => some (runs, budget)
  | fuel + 1, runs, piece :: pending, budget =>
      if budget = 0 then none
      else
        match scan piece runs (budget - 1) with
        | none => none
        | some (some fragments, budget) =>
            insertPending fuel runs (fragments.reverse ++ pending) budget
        | some (none, budget) => insertPending fuel (insertByStart piece runs) pending budget

def insertRun (runs : List Run) (run : Run) (budget : ℕ) : Option (List Run × ℕ) :=
  (makeRun run.start run.stride run.count).bind fun run =>
    insertPending (budget + 1) runs [run] budget

/-- What a scan finds: the pieces to retry cover the rest, or nothing overlaps. -/
theorem scan_spec {piece : Run} (valid : piece.Valid) (runs : List Run) :
    ∀ {budget left : ℕ} {found : Option (List Run)}, (∀ run ∈ runs, run.Valid) →
      scan piece runs budget = some (found, left) →
        (found = none → Disjoint piece.elements (unionOf runs)) ∧
          ∀ fragments, found = some fragments → (∀ run ∈ fragments, run.Valid) ∧
            piece.elements ∪ unionOf runs = unionOf fragments ∪ unionOf runs := by
  induction runs with
  | nil =>
      intro budget left found _ result
      obtain ⟨rfl, _⟩ := Prod.mk.inj (Option.some.inj result)
      simp
  | cons existing rest ih =>
      intro budget left found runsValid result
      have existingValid := runsValid existing (by simp)
      have restValid : ∀ run ∈ rest, run.Valid := fun run member => runsValid run (by simp [member])
      -- Passing over a run without common elements.
      have pass : Disjoint piece.elements existing.elements →
          scan piece rest (budget - 1) = some (found, left) →
          (found = none → Disjoint piece.elements (unionOf (existing :: rest))) ∧
            ∀ fragments, found = some fragments → (∀ run ∈ fragments, run.Valid) ∧
              piece.elements ∪ unionOf (existing :: rest) =
                unionOf fragments ∪ unionOf (existing :: rest) := by
        intro apart later
        obtain ⟨free, consumed⟩ := ih restValid later
        rw [unionOf_cons]
        refine ⟨fun none => Set.disjoint_union_right.mpr ⟨apart, free none⟩,
          fun fragments some => ?_⟩
        obtain ⟨fragmentsValid, union⟩ := consumed fragments some
        refine ⟨fragmentsValid, ?_⟩
        rw [Set.union_left_comm, union, Set.union_left_comm]
      rw [scan] at result
      split at result
      · exact absurd result (by simp)
      · split at result
        · rename_i rangesApart
          refine pass (Set.disjoint_left.mpr fun v inPiece inExisting => ?_) result
          have left := valid.mem_iff.mp inPiece
          have right := existingValid.mem_iff.mp inExisting
          omega
        · obtain ⟨intersection, intersectionEq, spec⟩ := intersectRuns_spec valid existingValid
          rw [intersectionEq] at result
          cases intersection with
          | none => exact pass (Set.disjoint_iff_inter_eq_empty.mpr (spec.empty rfl)) result
          | some isect =>
              obtain ⟨isectValid, isectEq⟩ := spec.exact isect rfl
              have inPiece : isect.elements ⊆ piece.elements := isectEq ▸ Set.inter_subset_left
              have inExisting : isect.elements ⊆ existing.elements :=
                isectEq ▸ Set.inter_subset_right
              dsimp only at result
              split at result
              · rename_i whole
                obtain ⟨rfl, _⟩ := Prod.mk.inj (Option.some.inj result)
                -- As many common elements as the piece has: it is covered.
                have same : isect.elements = piece.elements := by
                  refine Set.eq_of_subset_of_ncard_le inPiece ?_ valid.finite
                  have := valid.ncard_elements
                  have := isectValid.ncard_elements
                  omega
                refine ⟨by simp, fun fragments some => ?_⟩
                obtain rfl := Option.some.inj some
                refine ⟨by simp, ?_⟩
                rw [unionOf_nil, Set.empty_union, unionOf_cons]
                exact Set.union_eq_right.mpr fun v member => Or.inl (inExisting (same ▸ member))
              · obtain ⟨⟨fragments, rest'⟩, subtracted, sameResult⟩ :=
                  Option.map_eq_some_iff.mp result
                obtain ⟨rfl, _⟩ := Prod.mk.inj sameResult
                obtain ⟨fragmentsValid, fragmentsEq⟩ :=
                  subtractSubProgression_spec valid isectValid inPiece subtracted
                refine ⟨by simp, fun other some => ?_⟩
                obtain rfl := Option.some.inj some
                refine ⟨fragmentsValid, ?_⟩
                rw [fragmentsEq, unionOf_cons]
                ext v
                simp only [Set.mem_union, Set.mem_sdiff]
                have covered : v ∈ isect.elements → v ∈ existing.elements := fun member =>
                  inExisting member
                tauto

theorem insertByStart_spec {piece : Run} (valid : piece.Valid) {runs : List Run}
    (placed : Placed runs) (apart : Disjoint piece.elements (unionOf runs)) :
    Placed (insertByStart piece runs) ∧
      unionOf (insertByStart piece runs) = piece.elements ∪ unionOf runs := by
  induction runs with
  | nil => exact ⟨placed_singleton valid, by simp [insertByStart]⟩
  | cons run rest ih =>
      rw [unionOf_cons, Set.disjoint_union_right] at apart
      rw [insertByStart]
      split
      · rename_i earlier
        obtain ⟨restPlaced, restUnion⟩ := ih placed.tail apart.2
        refine ⟨Placed.cons placed.head restPlaced ?_ ?_, ?_⟩
        · rw [restUnion]
          exact Set.disjoint_union_right.mpr ⟨apart.1.symm, placed.head_avoids⟩
        · rw [restUnion]
          rintro v (inPiece | inRest)
          · exact earlier.trans_le (valid.isLeast.2 inPiece)
          · exact placed.head_below v inRest
        · rw [unionOf_cons, restUnion, unionOf_cons, Set.union_left_comm]
      · rename_i notEarlier
        have differs : piece.start ≠ run.start := fun same =>
          Set.disjoint_left.mp apart.1 valid.start_mem (same ▸ placed.head.start_mem)
        refine ⟨Placed.cons valid placed ?_ ?_, by simp⟩
        · rw [unionOf_cons]
          exact Set.disjoint_union_right.mpr apart
        · rw [unionOf_cons]
          rintro v (inRun | inRest)
          · have := placed.head.isLeast.2 inRun
            omega
          · have := placed.head_below v inRest
            omega

theorem insertPending_spec (fuel : ℕ) : ∀ {runs pending after : List Run} {budget left : ℕ},
    Placed runs → (∀ piece ∈ pending, piece.Valid) →
      insertPending fuel runs pending budget = some (after, left) →
        Placed after ∧ unionOf after = unionOf runs ∪ unionOf pending := by
  induction fuel with
  | zero => intro runs pending after budget left _ _ result; simp [insertPending] at result
  | succ fuel ih =>
      intro runs pending after budget left placed pendingValid result
      cases pending with
      | nil =>
          obtain ⟨rfl, _⟩ := Prod.mk.inj (Option.some.inj result)
          exact ⟨placed, by simp⟩
      | cons piece pending =>
          have pieceValid := pendingValid piece (by simp)
          have restValid : ∀ run ∈ pending, run.Valid := fun run member =>
            pendingValid run (by simp [member])
          rw [insertPending] at result
          split at result
          · exact absurd result (by simp)
          · split at result
            · exact absurd result (by simp)
            · rename_i fragments _ scanned
              obtain ⟨fragmentsValid, union⟩ :=
                (scan_spec pieceValid runs placed.canonical scanned).2 fragments rfl
              obtain ⟨afterPlaced, afterUnion⟩ := ih placed (fun run member => by
                rcases List.mem_append.mp member with inFragments | inPending
                · exact fragmentsValid run (List.mem_reverse.mp inFragments)
                · exact restValid run inPending) result
              have reversed : unionOf fragments.reverse = unionOf fragments := by
                ext v
                simp [unionOf]
              refine ⟨afterPlaced, ?_⟩
              rw [afterUnion, unionOf_append, reversed, unionOf_cons, ← Set.union_assoc,
                Set.union_comm (unionOf runs), ← union, Set.union_comm piece.elements,
                Set.union_assoc]
            · rename_i _ scanned
              have apart := (scan_spec pieceValid runs placed.canonical scanned).1 rfl
              obtain ⟨insertedPlaced, insertedUnion⟩ := insertByStart_spec pieceValid placed apart
              obtain ⟨afterPlaced, afterUnion⟩ :=
                ih insertedPlaced restValid result
              refine ⟨afterPlaced, ?_⟩
              rw [afterUnion, insertedUnion, unionOf_cons, Set.union_comm piece.elements,
                Set.union_assoc]

/-- **Insertion is exact**: the run joins the set, whatever it overlaps. -/
theorem insertRun_spec {runs after : List Run} {run : Run} {budget left : ℕ} (placed : Placed runs)
    (valid : run.Valid) (result : insertRun runs run budget = some (after, left)) :
    Placed after ∧ unionOf after = unionOf runs ∪ run.elements := by
  obtain ⟨made, madeEq, inserted⟩ := Option.bind_eq_some_iff.mp result
  have startIn : InInt64 run.start := ⟨valid.lower, valid.start_le_last.trans valid.representable⟩
  obtain ⟨madeValid, _, _, _, _, _, elementsEq⟩ := makeRun_eq_some startIn valid.countFits madeEq
  obtain ⟨afterPlaced, union⟩ := insertPending_spec _ placed (by simpa using madeValid) inserted
  refine ⟨afterPlaced, ?_⟩
  rw [union, unionOf_cons, unionOf_nil, Set.union_empty, elementsEq, valid.elements_eq]
  rfl

/-- Two singletons become one run whose stride is their gap. -/
def mergeSingles (cur next : Run) : Option Run :=
  if cur.count = 1 ∧ next.count = 1 ∧ next.start > cur.start ∧ cur.start ≠ int64Min then
    (checkedAdd next.start (-cur.start)).map fun gap => { cur with stride := gap, count := 2 }
  else none

/-- `next` continues `cur` at `stride`: one run of that stride and both counts. -/
def mergeAdjacent (cur next : Run) (stride : ℤ) : Option Run :=
  (checkedAdd cur.last stride).bind fun adjacent =>
    if next.start = adjacent then
      (checkedAdd cur.count next.count).bind fun mergedCount => makeRun cur.start stride mergedCount
    else none

/-- The rules of `coalesce`, tried in order. -/
def mergeNeighbours (cur next : Run) : Option Run :=
  mergeSingles cur next <|>
    (if cur.count ≥ 2 ∧ next.count = 1 then mergeAdjacent cur next cur.stride else none) <|>
    (if cur.count = 1 ∧ next.count ≥ 2 then mergeAdjacent cur next next.stride else none) <|>
    (if cur.count ≥ 2 ∧ next.count ≥ 2 ∧ next.stride = cur.stride then
      mergeAdjacent cur next cur.stride else none)

/-- Merge from the open run `cur` on. -/
def coalesceFrom (cur : Run) : List Run → List Run
  | [] => [cur]
  | next :: rest =>
      match mergeNeighbours cur next with
      | some merged => coalesceFrom merged rest
      | none => cur :: coalesceFrom next rest

/-- `RunSet::coalesce`. -/
def coalesce : List Run → List Run
  | [] => []
  | first :: rest => coalesceFrom first rest

/-- `merged` replaces two neighbours. -/
structure Merges (cur next merged : Run) : Prop where
  valid : merged.Valid
  start : merged.start = cur.start
  elements : merged.elements = cur.elements ∪ next.elements

section Merge

variable {cur next merged : Run} (curValid : cur.Valid) (nextValid : next.Valid)

include curValid nextValid

theorem mergeSingles_merges (result : mergeSingles cur next = some merged) :
    Merges cur next merged := by
  unfold mergeSingles at result
  split at result
  · rename_i rule
    obtain ⟨curOne, nextOne, above, _⟩ := rule
    obtain ⟨gap, gapSum, rfl⟩ := Option.map_eq_some_iff.mp result
    obtain ⟨gapIn, gapEq⟩ := checkedAdd_eq_some.mp gapSum
    have curLast : cur.last = cur.start := by simp [last, curOne]
    have nextLast : next.last = next.start := by simp [last, nextOne]
    have nextIn := nextValid.representable
    have gapLe := gapIn.2
    have gapPos : 0 < gap := by omega
    have nextEq : next.start = cur.start + gap := by omega
    have lastEq : Run.last { cur with stride := gap, count := 2 } = next.start := by
      simp only [last]
      omega
    have valid : Run.Valid { cur with stride := gap, count := 2 } :=
      ⟨curValid.lower, by simp, by simp [int64Max], by simp only; omega, by simp,
        by simp only; omega, by omega⟩
    refine ⟨valid, rfl, ?_⟩
    rw [valid.elements_eq, lastEq, curValid.elements_eq, curLast, nextValid.elements_eq, nextLast,
      progression_self, progression_self, ← progression_self cur.start gap]
    exact (progression_snoc gapPos le_rfl (by simp) nextEq).symm
  · exact absurd result (by simp)

/-- A run keeps its elements under any stride it can be read with. -/
theorem mergeAdjacent_merges {stride : ℤ} (positive : 1 ≤ stride)
    (curReads : cur.count = 1 ∨ cur.stride = stride)
    (nextReads : next.count = 1 ∨ next.stride = stride)
    (result : mergeAdjacent cur next stride = some merged) : Merges cur next merged := by
  obtain ⟨adjacent, adjacentSum, result⟩ := Option.bind_eq_some_iff.mp result
  obtain ⟨_, rfl⟩ := checkedAdd_eq_some.mp adjacentSum
  split at result
  · rename_i contiguous
    obtain ⟨mergedCount, counted, made⟩ := Option.bind_eq_some_iff.mp result
    obtain ⟨countIn, rfl⟩ := checkedAdd_eq_some.mp counted
    have startIn : InInt64 cur.start :=
      ⟨curValid.lower, curValid.start_le_last.trans curValid.representable⟩
    obtain ⟨valid, startEq, _, _, _, _, elementsEq⟩ := makeRun_eq_some startIn countIn.2 made
    have reads : ∀ run : Run, run.Valid → run.count = 1 ∨ run.stride = stride →
        run.last = run.start + (run.count - 1) * stride ∧
          run.elements = progression run.start stride run.last := by
      rintro run runValid (one | same)
      · have lastEq : run.last = run.start := by simp [last, one]
        refine ⟨by simp [lastEq, one], ?_⟩
        rw [runValid.elements_eq, lastEq, progression_self, progression_self]
      · rw [← same]
        exact ⟨rfl, runValid.elements_eq⟩
    obtain ⟨curLast, curElements⟩ := reads cur curValid curReads
    obtain ⟨nextLast, nextElements⟩ := reads next nextValid nextReads
    have ends : cur.start + (cur.count + next.count - 1) * stride = next.last := by
      rw [nextLast, contiguous, curLast]
      ring
    refine ⟨valid, startEq, ?_⟩
    have distance : next.start - cur.start = cur.count * stride := by
      rw [contiguous, curLast]
      ring
    have curOrdered := curValid.start_le_last
    have nextOrdered := nextValid.start_le_last
    rw [elementsEq, ends, curElements, nextElements]
    refine (progression_union ⟨cur.count, ?_⟩ ⟨cur.count - 1, ?_⟩ ?_ ?_ ?_).symm
    · rw [distance, mul_comm]
    · rw [curLast]
      ring
    · omega
    · omega
    · omega
  · exact absurd result (by simp)

theorem mergeNeighbours_merges (result : mergeNeighbours cur next = some merged) :
    Merges cur next merged := by
  simp only [mergeNeighbours, Option.orElse_eq_orElse, Option.orElse_eq_or,
    Option.or_eq_some_iff] at result
  rcases result with singles | ⟨_, append | ⟨_, prepend | ⟨_, join⟩⟩⟩
  · exact mergeSingles_merges curValid nextValid singles
  · obtain ⟨rule, append⟩ := Option.ite_none_right_eq_some.mp append
    exact mergeAdjacent_merges curValid nextValid curValid.stridePos (Or.inr rfl) (Or.inl rule.2)
      append
  · obtain ⟨rule, prepend⟩ := Option.ite_none_right_eq_some.mp prepend
    exact mergeAdjacent_merges curValid nextValid nextValid.stridePos (Or.inl rule.1) (Or.inr rfl)
      prepend
  · obtain ⟨rule, join⟩ := Option.ite_none_right_eq_some.mp join
    exact mergeAdjacent_merges curValid nextValid curValid.stridePos (Or.inr rfl)
      (Or.inr rule.2.2) join

end Merge

theorem coalesceFrom_spec (rest : List Run) : ∀ {cur : Run}, Placed (cur :: rest) →
    Placed (coalesceFrom cur rest) ∧
      unionOf (coalesceFrom cur rest) = cur.elements ∪ unionOf rest := by
  induction rest with
  | nil =>
      intro cur placed
      exact ⟨placed, by simp [coalesceFrom]⟩
  | cons next rest ih =>
      intro cur placed
      have curBelow := placed.head_below
      have curAvoids := placed.head_avoids
      rw [unionOf_cons] at curBelow curAvoids
      rw [coalesceFrom]
      split
      · rename_i merged mergedEq
        obtain ⟨valid, startEq, elementsEq⟩ :=
          mergeNeighbours_merges placed.head placed.tail.head mergedEq
        have joined : Placed (merged :: rest) := by
          refine Placed.cons valid placed.tail.tail ?_ fun v member => ?_
          · rw [elementsEq]
            exact Set.disjoint_union_left.mpr
              ⟨(Set.disjoint_union_right.mp curAvoids).2, placed.tail.head_avoids⟩
          · rw [startEq]
            exact curBelow v (Or.inr member)
        obtain ⟨afterPlaced, union⟩ := ih joined
        refine ⟨afterPlaced, ?_⟩
        rw [union, elementsEq, unionOf_cons, Set.union_assoc]
      · obtain ⟨afterPlaced, union⟩ := ih placed.tail
        refine ⟨Placed.cons placed.head afterPlaced ?_ ?_,
          by rw [unionOf_cons, union, unionOf_cons]⟩
        · rwa [union]
        · rwa [union]

theorem coalesce_spec {runs : List Run} (placed : Placed runs) :
    Placed (coalesce runs) ∧ unionOf (coalesce runs) = unionOf runs := by
  cases runs with
  | nil => exact ⟨placed, rfl⟩
  | cons first rest =>
      obtain ⟨afterPlaced, union⟩ := coalesceFrom_spec rest placed
      exact ⟨afterPlaced, by rw [coalesce, union, unionOf_cons]⟩

theorem valid_of_placed {runs : List Run} (placed : Placed runs)
    (inhabited : (unionOf runs).Nonempty) : Valid ⟨runs⟩ := by
  refine ⟨fun empty => ?_, placed⟩
  rw [show runs = [] from empty, unionOf_nil] at inhabited
  exact Set.not_nonempty_empty inhabited

theorem Valid.elements_nonempty {set : RunSet} (valid : set.Valid) : set.elements.Nonempty :=
  ⟨set.min, (isLeast_min valid).1⟩

theorem Valid.inInt64 {set : RunSet} (valid : set.Valid) {v : ℤ} (member : v ∈ set.elements) :
    InInt64 v :=
  valid.placed.inInt64 member

/-- The two sets enumerated, when their counts allow it. -/
def uniteEnumerated (a b : RunSet) : Option RunSet :=
  a.count.bind fun ca => b.count.bind fun cb =>
    (checkedAdd ca cb).bind fun combined =>
      if combined ≤ kEnumUnionLimit then
        (a.materialize kEnumUnionLimit).bind fun ma =>
          (b.materialize kEnumUnionLimit).map fun mb => fromValues (ma.insertRange mb.data)
      else none

def insertRuns (runs : List Run) (added : List Run) (budget : ℕ) : Option (List Run × ℕ) :=
  added.foldlM (fun (runs, budget) run => insertRun runs run budget) (runs, budget)

/-- `RunSet::unite`. -/
def unite (a b : RunSet) : Option RunSet :=
  match uniteEnumerated a b with
  | some united => some united
  | none => (insertRuns a.runs b.runs kOpBudget).map fun (runs, _) => ⟨coalesce runs⟩

/-- A loop whose body adds the part of its item adds the parts of all items. -/
theorem foldlM_places {Item : Type} {body : List Run × ℕ → Item → Option (List Run × ℕ)}
    {part : Item → Set ℤ} (items : List Item)
    (places : ∀ item ∈ items, ∀ {runs after : List Run} {budget left : ℕ}, Placed runs →
      body (runs, budget) item = some (after, left) →
        Placed after ∧ unionOf after = unionOf runs ∪ part item) :
    ∀ {runs after : List Run} {budget left : ℕ}, Placed runs →
      items.foldlM body (runs, budget) = some (after, left) →
        Placed after ∧ unionOf after = unionOf runs ∪ {v | ∃ item ∈ items, v ∈ part item} := by
  induction items with
  | nil =>
      intro runs after budget left placed result
      obtain ⟨rfl, _⟩ := Prod.mk.inj (Option.some.inj result)
      exact ⟨placed, by simp⟩
  | cons item rest ih =>
      intro runs after budget left placed result
      rw [List.foldlM_cons] at result
      obtain ⟨⟨middle, middleLeft⟩, first, result⟩ := Option.bind_eq_some_iff.mp result
      obtain ⟨middlePlaced, middleUnion⟩ := places item (by simp) placed first
      obtain ⟨afterPlaced, union⟩ := ih
        (fun other member => places other (by simp [member])) middlePlaced result
      refine ⟨afterPlaced, ?_⟩
      have consSet : {v | ∃ other ∈ item :: rest, v ∈ part other} =
          part item ∪ {v | ∃ other ∈ rest, v ∈ part other} := by
        ext v
        simp
      rw [union, middleUnion, consSet, Set.union_assoc]

theorem insertRuns_spec {runs added after : List Run} {budget left : ℕ} (placed : Placed runs)
    (addedValid : ∀ run ∈ added, run.Valid)
    (result : insertRuns runs added budget = some (after, left)) :
    Placed after ∧ unionOf after = unionOf runs ∪ unionOf added :=
  foldlM_places added
    (fun run member _ _ _ _ placed inserted =>
      insertRun_spec placed (addedValid run member) inserted)
    placed result

/-- What an operation on run sets promises: a valid set with these elements. -/
structure Denotes (set : RunSet) (values : Set ℤ) : Prop where
  valid : set.Valid
  elements : set.elements = values

/-- Explicit values that fit 64 bits decompose to the set they form. -/
theorem fromValues_denotes {values : FlatSet ℤ} {target : Set ℤ} (same : values.toSet = target)
    (inhabited : target.Nonempty) (inRange : ∀ v ∈ target, InInt64 v) :
    (fromValues values).Denotes target := by
  subst same
  obtain ⟨value, member⟩ := inhabited
  obtain ⟨valid, elementsEq⟩ := fromValues_spec (List.ne_nil_of_mem member) inRange
  exact ⟨valid, elementsEq⟩

/-- **Union is exact.** -/
theorem unite_spec {a b out : RunSet} (validA : a.Valid) (validB : b.Valid)
    (united : unite a b = some out) : out.Denotes (a.elements ∪ b.elements) := by
  have inhabited : (a.elements ∪ b.elements).Nonempty := validA.elements_nonempty.inl
  unfold unite at united
  split at united
  · rename_i enumerated result
    obtain rfl := Option.some.inj united
    simp only [uniteEnumerated, Option.bind_eq_some_iff, Option.ite_none_right_eq_some,
      Option.map_eq_some_iff] at result
    obtain ⟨_, _, _, _, _, _, _, ma, madeA, mb, madeB, rfl⟩ := result
    refine fromValues_denotes (Set.ext fun v => ?_) inhabited ?_
    · rw [FlatSet.mem_toSet, FlatSet.mem_insertRange, ← FlatSet.mem_def, mem_materialize madeA,
        mem_materialize madeB]
      rfl
    · rintro v (inA | inB)
      · exact validA.inInt64 inA
      · exact validB.inInt64 inB
  · obtain ⟨⟨runs, left⟩, inserted, rfl⟩ := Option.map_eq_some_iff.mp united
    obtain ⟨placed, union⟩ := insertRuns_spec validA.placed validB.placed.canonical inserted
    obtain ⟨afterPlaced, afterUnion⟩ := coalesce_spec placed
    have elementsEq : unionOf (coalesce runs) = a.elements ∪ b.elements := afterUnion.trans union
    exact ⟨valid_of_placed afterPlaced (elementsEq ▸ inhabited), elementsEq⟩

end RunSet

end LlvmDsdl.Semantics
