import LlvmDsdl.Library.WordBitmap
import LlvmDsdl.Semantics.RunSet.Union

/-!
Contract: element-wise sums of run sets.

Owns: the three strategies of `RunSet::sum` (span bitmap, enumeration of pairs,
pairwise run sums) and the theorem that each of them yields the same set.

A strategy that does not apply falls through to the next one; only the last two
refuse.
-/

namespace LlvmDsdl.Semantics

open Support Support.IntegerMath Library.Progression Library.WordBitmap Run

namespace RunSet

def kEnumSumLimit : ℕ := 65536

def kSumSpanLimit : ℕ := 2 ^ 20

def kWordOpsCap : ℕ := 2 ^ 26

/-- The occupancy bitmap of a set relative to its minimum. -/
def occupancy (values : FlatSet ℤ) (least : ℤ) (words : ℕ) : List (BitVec 64) :=
  values.data.foldl (fun bits v => mark bits (v - least).toNat) (List.replicate words 0)

/-- OR the bitmap, which starts at `least`, shifted by every element `x`, into the result. -/
def shiftedUnion (smallBits : List (BitVec 64)) (least lo : ℤ) (values : List ℤ)
    (result : List (BitVec 64)) : List (BitVec 64) :=
  values.foldl (fun result x =>
    let offset := (x + least - lo).toNat
    orShifted (offset % 64) (offset / 64) smallBits result) result

/-- The bitmap strategy with its operands ordered by span; `none` falls through. -/
def sumBitmap (small large : RunSet) : Option RunSet :=
  let lo := small.min + large.min
  let hi := small.max + large.max
  let span := hi - lo + 1
  if lo ≥ int64Min ∧ hi ≤ int64Max ∧ span ≤ kSumSpanLimit then
    let spanSmall := small.max - small.min + 1
    let smallWords := (spanSmall.toNat + 63) / 64
    small.count.bind fun cSmall => large.count.bind fun cLarge =>
      if cSmall ≤ kSumSpanLimit ∧ cLarge ≤ kSumSpanLimit ∧
          cLarge * (smallWords + 1) ≤ kWordOpsCap then
        (small.materialize kSumSpanLimit).bind fun mSmall =>
          (large.materialize kSumSpanLimit).map fun mLarge =>
            let smallBits := occupancy mSmall small.min smallWords
            let resultWords := (span.toNat + 63) / 64
            -- One more word than the span needs takes the spill of the shifted OR.
            let result := shiftedUnion smallBits small.min lo mLarge.data
              (List.replicate (resultWords + 1) 0)
            fromValues (FlatSet.sortedUnique
              ((positionsFrom 0 result).map fun position : ℕ => lo + (position : ℤ)))
      else none
  else none

theorem occupancy_spec (least : ℤ) (words : ℕ) (values : FlatSet ℤ)
    (inside : ∀ v ∈ values, least ≤ v ∧ v - least < 64 * words) :
    (occupancy values least words).length = words ∧
      ∀ position : ℕ, marked (occupancy values least words) position = true ↔
        least + position ∈ values := by
  have fold : ∀ (rest : List ℤ) (bits : List (BitVec 64)), bits.length = words →
      (∀ v ∈ rest, least ≤ v ∧ v - least < 64 * words) →
        (rest.foldl (fun bits v => mark bits (v - least).toNat) bits).length = words ∧
          ∀ position : ℕ,
            marked (rest.foldl (fun bits v => mark bits (v - least).toNat) bits) position = true ↔
              marked bits position = true ∨ least + position ∈ rest := by
    intro rest
    induction rest with
    | nil => intro bits length _; exact ⟨length, by simp⟩
    | cons v rest ih =>
        intro bits length restInside
        obtain ⟨above, below⟩ := restInside v (by simp)
        obtain ⟨lengthEq, spec⟩ := ih (mark bits (v - least).toNat)
          (by rw [length_mark, length]) fun w member => restInside w (by simp [member])
        refine ⟨lengthEq, fun position => ?_⟩
        have here : position = (v - least).toNat ↔ least + position = v := by omega
        rw [List.foldl_cons, spec, marked_mark (by decide) (by rw [length]; omega), here, or_assoc,
          List.mem_cons]
  obtain ⟨length, spec⟩ := fold values.data (List.replicate words 0) (by simp) inside
  refine ⟨length, fun position => ?_⟩
  rw [occupancy, spec, marked_replicate, FlatSet.mem_def]
  simp

theorem marked_shiftedUnion (smallBits : List (BitVec 64)) (least lo : ℤ) (values : List ℤ) :
    ∀ result : List (BitVec 64),
      (∀ x ∈ values, (x + least - lo).toNat / 64 + smallBits.length < result.length) →
        ∀ position, marked (shiftedUnion smallBits least lo values result) position = true ↔
          marked result position = true ∨ ∃ x ∈ values, ∃ origin,
            marked smallBits origin = true ∧ position = (x + least - lo).toNat + origin := by
  induction values with
  | nil => intro result _ position; simp [shiftedUnion]
  | cons x rest ih =>
      intro result inside position
      have shift : 64 * ((x + least - lo).toNat / 64) + (x + least - lo).toNat % 64 =
          (x + least - lo).toNat := Nat.div_add_mod _ _
      rw [shiftedUnion, List.foldl_cons, ← shiftedUnion, ih _ fun y member => by
          rw [length_orShifted]
          exact inside y (by simp [member]),
        marked_orShifted (Nat.mod_lt _ (by decide)) _ (inside x (by simp)), shift, or_assoc]
      simp

theorem sumBitmap_spec {small large out : RunSet} (smallValid : small.Valid)
    (largeValid : large.Valid) (summed : sumBitmap small large = some out) :
    out.Denotes (Set.image2 (· + ·) small.elements large.elements) := by
  have smallLeast := isLeast_min smallValid
  have smallGreatest := isGreatest_max smallValid
  have largeLeast := isLeast_min largeValid
  have largeGreatest := isGreatest_max largeValid
  simp only [sumBitmap, Option.ite_none_right_eq_some, Option.bind_eq_some_iff,
    Option.map_eq_some_iff] at summed
  obtain ⟨⟨loIn, hiIn, _⟩, _, _, _, _, _, mSmall, madeSmall, mLarge, madeLarge, rfl⟩ := summed
  have bounds : ∀ x ∈ small.elements, ∀ y ∈ large.elements,
      small.min ≤ x ∧ x ≤ small.max ∧ large.min ≤ y ∧ y ≤ large.max := fun x inSmall y inLarge =>
    ⟨smallLeast.2 inSmall, smallGreatest.2 inSmall, largeLeast.2 inLarge, largeGreatest.2 inLarge⟩
  have ordered := smallLeast.2 smallGreatest.1
  obtain ⟨smallLength, smallBits⟩ := occupancy_spec small.min
    (((small.max - small.min + 1).toNat + 63) / 64) mSmall fun v member => by
      have inSmall := (mem_materialize madeSmall v).mp member
      have := smallLeast.2 inSmall
      have := smallGreatest.2 inSmall
      omega
  -- The last word any shift touches is the spill word.
  have marks := marked_shiftedUnion
    (occupancy mSmall small.min (((small.max - small.min + 1).toNat + 63) / 64))
    small.min (small.min + large.min) mLarge.data (List.replicate
      (((small.max + large.max - (small.min + large.min) + 1).toNat + 63) / 64 + 1) 0)
    fun x member => by
      have inLarge := (mem_materialize madeLarge x).mp member
      have := largeLeast.2 inLarge
      have := largeGreatest.2 inLarge
      rw [smallLength, List.length_replicate]
      omega
  refine fromValues_denotes (Set.ext fun v => ?_) ?_ ?_
  · rw [FlatSet.mem_toSet, FlatSet.mem_sortedUnique, List.mem_map]
    simp only [mem_positionsFrom, zero_mul, zero_add]
    simp only [marks, marked_replicate, Bool.false_eq_true, false_or, smallBits]
    constructor
    · rintro ⟨position, ⟨_, ⟨x, inLarge, origin, inSmall, rfl⟩, rfl⟩, rfl⟩
      have xIn := (mem_materialize madeLarge x).mp inLarge
      have := largeLeast.2 xIn
      refine ⟨small.min + origin, (mem_materialize madeSmall _).mp inSmall, x, xIn, ?_⟩
      show small.min + (origin : ℤ) + x = _
      omega
    · rintro ⟨s, inSmall, x, inLarge, rfl⟩
      have := smallLeast.2 inSmall
      have := largeLeast.2 inLarge
      refine ⟨_, ⟨_, ⟨x, (mem_materialize madeLarge x).mpr inLarge, (s - small.min).toNat, ?_,
        rfl⟩, rfl⟩, ?_⟩
      · have same : small.min + ((s - small.min).toNat : ℤ) = s := by omega
        rw [same]
        exact (mem_materialize madeSmall s).mpr inSmall
      · show small.min + large.min + (_ : ℤ) = s + x
        omega
  · exact ⟨_, small.min, smallLeast.1, large.min, largeLeast.1, rfl⟩
  · rintro _ ⟨x, inSmall, y, inLarge, rfl⟩
    have := bounds x inSmall y inLarge
    exact ⟨by show int64Min ≤ x + y; omega, by show x + y ≤ int64Max; omega⟩

/-- All pair sums, `x` in the outer loop; `none` when one leaves 64 bits. -/
def pairSums (xs ys : List ℤ) : Option (List ℤ) :=
  (xs ×ˢ ys).mapM fun (x, y) => checkedAdd x y

/-- The product strategy. `none` falls through, `some none` refuses. -/
def sumProduct (a b : RunSet) : Option (Option RunSet) :=
  a.count.bind fun ca => b.count.bind fun cb =>
    if ca ≤ kEnumSumLimit ∧ cb ≤ kEnumSumLimit ∧ ca * cb ≤ kEnumSumLimit then
      (a.materialize kEnumSumLimit).bind fun ma =>
        (b.materialize kEnumSumLimit).map fun mb =>
          (pairSums ma.data mb.data).map fun values => fromValues (FlatSet.ofVector values)
    else none

/-- A loop that maps every item or refuses produces the images, in any order. -/
theorem mem_mapM {Item Result : Type} {step : Item → Option Result} {items : List Item} :
    ∀ {results : List Result}, items.mapM step = some results →
      ∀ result, result ∈ results ↔ ∃ item ∈ items, step item = some result := by
  induction items with
  | nil =>
      intro results mapped result
      obtain rfl := Option.some.inj mapped
      simp
  | cons item rest ih =>
      intro results mapped result
      rw [List.mapM_cons] at mapped
      obtain ⟨head, first, mapped⟩ := Option.bind_eq_some_iff.mp mapped
      obtain ⟨tail, later, mapped⟩ := Option.bind_eq_some_iff.mp mapped
      obtain rfl := Option.some.inj mapped
      rw [List.mem_cons, ih later, List.exists_mem_cons_iff, first,
        Option.some.injEq, eq_comm]

theorem isSome_of_mapM {Item Result : Type} {step : Item → Option Result} {items : List Item} :
    ∀ {results : List Result}, items.mapM step = some results →
      ∀ item ∈ items, ∃ result, step item = some result := by
  induction items with
  | nil => simp
  | cons item rest ih =>
      intro results mapped
      rw [List.mapM_cons] at mapped
      obtain ⟨head, first, mapped⟩ := Option.bind_eq_some_iff.mp mapped
      obtain ⟨tail, later, _⟩ := Option.bind_eq_some_iff.mp mapped
      simpa using ⟨⟨head, first⟩, ih later⟩

theorem sumProduct_spec {a b out : RunSet} (validA : a.Valid) (validB : b.Valid)
    (summed : sumProduct a b = some (some out)) :
    out.Denotes (Set.image2 (· + ·) a.elements b.elements) := by
  simp only [sumProduct, Option.ite_none_right_eq_some, Option.bind_eq_some_iff,
    Option.map_eq_some_iff] at summed
  obtain ⟨_, _, _, _, _, ma, madeA, mb, madeB, values, sums, rfl⟩ := summed
  have pairs : ∀ x y, (x, y) ∈ ma.data ×ˢ mb.data ↔ x ∈ a.elements ∧ y ∈ b.elements := by
    intro x y
    exact List.pair_mem_product.trans
      (and_congr (mem_materialize madeA x) (mem_materialize madeB y))
  refine fromValues_denotes (Set.ext fun v => ?_) ?_ ?_
  · rw [FlatSet.mem_toSet, FlatSet.mem_ofVector, mem_mapM sums]
    constructor
    · rintro ⟨⟨x, y⟩, member, added⟩
      obtain ⟨inA, inB⟩ := (pairs x y).mp member
      exact ⟨x, inA, y, inB, (checkedAdd_eq_some.mp added).2⟩
    · rintro ⟨x, inA, y, inB, rfl⟩
      have member := (pairs x y).mpr ⟨inA, inB⟩
      obtain ⟨sum, added⟩ := isSome_of_mapM sums _ member
      exact ⟨(x, y), member, added.trans (congrArg some (checkedAdd_eq_some.mp added).2.symm)⟩
  · exact validA.elements_nonempty.image2 validB.elements_nonempty
  · rintro _ ⟨x, inA, y, inB, rfl⟩
    obtain ⟨sum, added⟩ := isSome_of_mapM sums _ ((pairs x y).mpr ⟨inA, inB⟩)
    exact (checkedAdd_eq_some.mp added).1

/-- The larger run, once for every element of the smaller one. -/
def shiftedCopies (s : ℤ) (big small : Run) : Option (List Run) :=
  (List.range small.count.toNat).mapM fun i : ℕ =>
    (checkedMultiply i small.stride).bind fun shift =>
      (checkedAdd s shift).bind fun shift => makeRun shift big.stride big.count

/-- The sum of two runs as pieces that may overlap. -/
def pairPieces (ra rb : Run) (budget : ℕ) : Option (List Run) :=
  (checkedAdd ra.start rb.start).bind fun s =>
    -- The sum of the last elements is only a probe for overflow.
    (checkedAdd ra.last rb.last).bind fun _ =>
      if ra.count = 1 ∧ rb.count = 1 then (makeRun s 1 1).map fun piece => [piece]
      else if ra.count = 1 then (makeRun s rb.stride rb.count).map fun piece => [piece]
      else if rb.count = 1 then (makeRun s ra.stride ra.count).map fun piece => [piece]
      else if ra.stride = rb.stride then
        (checkedAdd ra.count rb.count).bind fun joined =>
          (checkedAdd joined (-1)).bind fun joinedCount =>
            (makeRun s ra.stride joinedCount).map fun piece => [piece]
      else
        let big := if ra.count ≥ rb.count then ra else rb
        let small := if ra.count ≥ rb.count then rb else ra
        if small.count > budget then none else shiftedCopies s big small

/-- Place pieces in order. While nothing is placed yet, a piece is stored as it is. -/
def placePieces : List Run → ℕ → List Run → Option (List Run × ℕ)
  | runs, budget, [] => some (runs, budget)
  | [], budget, piece :: rest => placePieces [piece] budget rest
  | run :: runs, budget, piece :: rest =>
      (insertRun (run :: runs) piece budget).bind fun (runs, budget) =>
        placePieces runs budget rest

def sumStructural (a b : RunSet) : Option RunSet :=
  (a.runs.foldlM (fun state ra =>
    b.runs.foldlM (fun (state : List Run × ℕ) rb =>
      (pairPieces ra rb state.2).bind fun pieces => placePieces state.1 state.2 pieces) state)
    ([], kOpBudget)).map fun (runs, _) => ⟨coalesce runs⟩

/-- `RunSet::sum`. -/
def sum (a b : RunSet) : Option RunSet :=
  let bitmap := if a.max - a.min ≤ b.max - b.min then sumBitmap a b else sumBitmap b a
  match bitmap with
  | some out => some out
  | none =>
      match sumProduct a b with
      | some result => result
      | none => sumStructural a b

theorem placePieces_spec (pieces : List Run) : ∀ {runs after : List Run} {budget left : ℕ},
    Placed runs → (∀ piece ∈ pieces, piece.Valid) →
      placePieces runs budget pieces = some (after, left) →
        Placed after ∧ unionOf after = unionOf runs ∪ unionOf pieces := by
  induction pieces with
  | nil =>
      intro runs after budget left placed _ result
      simp only [placePieces, Option.some.injEq, Prod.mk.injEq] at result
      obtain ⟨rfl, _⟩ := result
      exact ⟨placed, by simp⟩
  | cons piece rest ih =>
      intro runs after budget left placed valid result
      have pieceValid := valid piece (by simp)
      have restValid : ∀ other ∈ rest, other.Valid := fun other member =>
        valid other (by simp [member])
      cases runs with
      | nil =>
          rw [placePieces] at result
          obtain ⟨afterPlaced, union⟩ :=
            ih (placed_singleton pieceValid) restValid result
          exact ⟨afterPlaced, by rw [union]; simp⟩
      | cons run runs =>
          rw [placePieces] at result
          obtain ⟨⟨middle, middleLeft⟩, inserted, result⟩ := Option.bind_eq_some_iff.mp result
          obtain ⟨middlePlaced, middleUnion⟩ := insertRun_spec placed pieceValid inserted
          obtain ⟨afterPlaced, union⟩ := ih middlePlaced restValid result
          exact ⟨afterPlaced, by rw [union, middleUnion, unionOf_cons piece, Set.union_assoc]⟩

theorem shiftedCopies_spec {s : ℤ} {big small : Run} (bigValid : big.Valid)
    (sEq : s = big.start + small.start)
    {pieces : List Run} (made : shiftedCopies s big small = some pieces) :
    (∀ piece ∈ pieces, piece.Valid) ∧
      unionOf pieces = Set.image2 (· + ·) small.elements big.elements := by
  -- The piece of one element is the larger run, shifted.
  have shape : ∀ i : ℕ, ∀ piece : Run, ((checkedMultiply i small.stride).bind fun shift =>
      (checkedAdd s shift).bind fun shift => makeRun shift big.stride big.count) = some piece →
      piece.Valid ∧ piece.elements =
        Set.image2 (· + ·) {small.start + i * small.stride} big.elements := by
    intro i piece found
    obtain ⟨_, multiplied, found⟩ := Option.bind_eq_some_iff.mp found
    obtain ⟨_, rfl⟩ := checkedMultiply_eq_some.mp multiplied
    obtain ⟨_, added, found⟩ := Option.bind_eq_some_iff.mp found
    obtain ⟨startIn, rfl⟩ := checkedAdd_eq_some.mp added
    obtain ⟨valid, _, _, _, _, _, elementsEq⟩ := makeRun_eq_some startIn bigValid.countFits found
    refine ⟨valid, ?_⟩
    rw [elementsEq, bigValid.elements_eq, image2_add_singleton_left, last]
    congr 1 <;> rw [sEq] <;> ring
  refine ⟨fun piece member => ?_, Set.ext fun v => ?_⟩
  · obtain ⟨i, _, found⟩ := (mem_mapM made piece).mp member
    exact (shape i piece found).1
  · constructor
    · rintro ⟨piece, member, inPiece⟩
      obtain ⟨i, below, found⟩ := (mem_mapM made piece).mp member
      rw [(shape i piece found).2] at inPiece
      obtain ⟨x, rfl, y, inBig, rfl⟩ := inPiece
      rw [List.mem_range] at below
      exact ⟨_, ⟨i, by omega, by omega, rfl⟩, y, inBig, rfl⟩
    · rintro ⟨_, ⟨i, nonneg, below, rfl⟩, y, inBig, rfl⟩
      have member : i.toNat ∈ List.range small.count.toNat := List.mem_range.mpr (by omega)
      obtain ⟨piece, found⟩ := isSome_of_mapM made i.toNat member
      refine ⟨piece, (mem_mapM made piece).mpr ⟨_, member, found⟩, ?_⟩
      rw [(shape i.toNat piece found).2, Int.toNat_of_nonneg nonneg]
      exact ⟨_, rfl, y, inBig, rfl⟩

/-- **The sum of two runs** is covered exactly, whatever their strides. -/
theorem pairPieces_spec {ra rb : Run} (validA : ra.Valid) (validB : rb.Valid) {budget : ℕ}
    {pieces : List Run} (made : pairPieces ra rb budget = some pieces) :
    (∀ piece ∈ pieces, piece.Valid) ∧
      unionOf pieces = Set.image2 (· + ·) ra.elements rb.elements := by
  obtain ⟨s, starts, made⟩ := Option.bind_eq_some_iff.mp made
  obtain ⟨sIn, rfl⟩ := checkedAdd_eq_some.mp starts
  obtain ⟨_, _, made⟩ := Option.bind_eq_some_iff.mp made
  have singleA : ra.count = 1 → ra.elements = {ra.start} := by
    intro one
    rw [validA.elements_eq, last, one, sub_self, zero_mul, add_zero, progression_self]
  have singleB : rb.count = 1 → rb.elements = {rb.start} := by
    intro one
    rw [validB.elements_eq, last, one, sub_self, zero_mul, add_zero, progression_self]
  -- One piece with the requested elements.
  have one : ∀ {stride count : ℤ}, count ≤ int64Max →
      (makeRun (ra.start + rb.start) stride count).map (fun piece => [piece]) = some pieces →
      progression (ra.start + rb.start) stride (ra.start + rb.start + (count - 1) * stride) =
        Set.image2 (· + ·) ra.elements rb.elements →
      (∀ piece ∈ pieces, piece.Valid) ∧
        unionOf pieces = Set.image2 (· + ·) ra.elements rb.elements := by
    intro stride count countFits made target
    obtain ⟨piece, single, rfl⟩ := Option.map_eq_some_iff.mp made
    obtain ⟨valid, _, _, _, _, _, elementsEq⟩ := makeRun_eq_some sIn countFits single
    exact ⟨by simpa using valid,
      by rw [unionOf_cons, unionOf_nil, Set.union_empty, elementsEq, target]⟩
  split at made
  · rename_i both
    refine one int64Max_pos made ?_
    simp [singleA both.1, singleB both.2]
  · split at made
    · rename_i single
      refine one validB.countFits made ?_
      rw [singleA single, validB.elements_eq, image2_add_singleton_left, last]
      congr 1
      ring
    · split at made
      · rename_i single
        refine one validA.countFits made ?_
        rw [singleB single, validA.elements_eq, image2_add_singleton_right, last]
        congr 1
        ring
      · split at made
        · rename_i sameStride
          obtain ⟨joined, joinedSum, made⟩ := Option.bind_eq_some_iff.mp made
          obtain ⟨_, rfl⟩ := checkedAdd_eq_some.mp joinedSum
          obtain ⟨joinedCount, countSum, made⟩ := Option.bind_eq_some_iff.mp made
          obtain ⟨countIn, rfl⟩ := checkedAdd_eq_some.mp countSum
          refine one countIn.2 made ?_
          rw [validA.elements_eq, validB.elements_eq, ← sameStride,
            image2_add_same_stride validA.start_le_last Run.Valid.reaches validB.start_le_last,
            last, last, ← sameStride]
          congr 1
          ring
        · by_cases larger : ra.count ≥ rb.count
          · simp only [if_pos larger, Option.ite_none_left_eq_some] at made
            rw [Set.image2_comm (add_comm (G := ℤ))]
            exact shiftedCopies_spec validA rfl made.2
          · simp only [if_neg larger, Option.ite_none_left_eq_some] at made
            exact shiftedCopies_spec validB (add_comm _ _) made.2

theorem sumStructural_spec {a b out : RunSet} (validA : a.Valid) (validB : b.Valid)
    (summed : sumStructural a b = some out) :
    out.Denotes (Set.image2 (· + ·) a.elements b.elements) := by
  obtain ⟨⟨runs, left⟩, folded, rfl⟩ := Option.map_eq_some_iff.mp summed
  have inner : ∀ ra ∈ a.runs, ∀ {runs after : List Run} {budget left : ℕ}, Placed runs →
      b.runs.foldlM (fun (state : List Run × ℕ) rb =>
        (pairPieces ra rb state.2).bind fun pieces => placePieces state.1 state.2 pieces)
        (runs, budget) = some (after, left) →
      Placed after ∧ unionOf after = unionOf runs ∪
        {v | ∃ rb ∈ b.runs, v ∈ Set.image2 (· + ·) ra.elements rb.elements} := by
    intro ra inA runs after budget left placed result
    refine foldlM_places b.runs ?_ placed result
    intro rb inB runs after budget left placed result
    obtain ⟨pieces, made, result⟩ := Option.bind_eq_some_iff.mp result
    obtain ⟨piecesValid, union⟩ := pairPieces_spec (validA.placed.canonical ra inA)
      (validB.placed.canonical rb inB) made
    exact union ▸ placePieces_spec pieces placed piecesValid result
  obtain ⟨placed, union⟩ := foldlM_places a.runs inner placed_nil folded
  obtain ⟨afterPlaced, afterUnion⟩ := coalesce_spec placed
  have elementsEq : unionOf (coalesce runs) = Set.image2 (· + ·) a.elements b.elements := by
    rw [afterUnion, union, unionOf_nil, Set.empty_union]
    ext v
    constructor
    · rintro ⟨ra, inA, rb, inB, x, inRa, y, inRb, rfl⟩
      exact ⟨x, ⟨ra, inA, inRa⟩, y, ⟨rb, inB, inRb⟩, rfl⟩
    · rintro ⟨x, ⟨ra, inA, inRa⟩, y, ⟨rb, inB, inRb⟩, rfl⟩
      exact ⟨ra, inA, rb, inB, x, inRa, y, inRb, rfl⟩
  have inhabited := validA.elements_nonempty.image2 (f := (· + ·)) validB.elements_nonempty
  exact ⟨valid_of_placed afterPlaced (elementsEq ▸ inhabited), elementsEq⟩

/-- **Sums are exact**, whichever strategy answers. -/
theorem sum_spec {a b out : RunSet} (validA : a.Valid) (validB : b.Valid)
    (summed : sum a b = some out) :
    out.Denotes (Set.image2 (· + ·) a.elements b.elements) := by
  unfold sum at summed
  dsimp only at summed
  split at summed
  · rename_i bitmap result
    obtain rfl := Option.some.inj summed
    split at result
    · exact sumBitmap_spec validA validB result
    · rw [Set.image2_comm (add_comm (G := ℤ))]
      exact sumBitmap_spec validB validA result
  · split at summed
    · rename_i result product
      exact sumProduct_spec validA validB (product.trans (congrArg some summed))
    · exact sumStructural_spec validA validB summed

end RunSet

end LlvmDsdl.Semantics
