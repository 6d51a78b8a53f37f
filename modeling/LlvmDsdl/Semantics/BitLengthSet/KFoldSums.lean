import Mathlib
import LlvmDsdl.Library.EventualCycle
import LlvmDsdl.Semantics.BitLengthSet.Residues

/-!
Contract: the k-fold sums modulo `m` are exact, and how long they are walked.

Owns: both loops with their turns counted, the sequence of modular sums as a
walk over subsets of the residues, the bound that each loop stops within one
pre-period and one period of it, and the bound of both by the modulus.

Does not own the masks or the loops themselves, which are those of the symbolic
residues.
-/

namespace LlvmDsdl.Semantics.ResidueSet

open Library.Sumset Library.EventualCycle

/-- The loop of `exactlyKSumMod` and the number of its turns. -/
def exactlyKSumCounted (r : ResidueSet) (count : ℕ) :
    ℕ → List ResidueSet → ResidueSet → ResidueSet × ℕ
  | 0, _, cur => (cur, 0)
  | remaining + 1, seq, cur =>
      let next := minkowskiSumMod cur r
      match seq.findIdx? (·.bits == next.bits) with
      | some j =>
          let period := seq.length - j
          (seq.getD (j + (count - j) % period) next, 1)
      | none =>
          let later := exactlyKSumCounted r count remaining (seq ++ [next]) next
          (later.1, later.2 + 1)

/-- The loop of `unionUpToKSumMod` and the number of its turns. -/
def unionUpToKSumCounted (r : ResidueSet) :
    ℕ → List ResidueSet → ResidueSet → ResidueSet → ResidueSet × ℕ
  | 0, _, u, _ => (u, 0)
  | remaining + 1, seen, u, cur =>
      let next := minkowskiSumMod cur r
      let grown := u.unionWith next
      if seen.any (·.bits == next.bits) then (grown, 1)
      else
        let later := unionUpToKSumCounted r remaining (seen ++ [next]) grown next
        (later.1, later.2 + 1)

def exactlyKSumTurns (r : ResidueSet) (count m : ℤ) : ResidueSet × ℕ :=
  let cur := zeroResidue m
  if count ≤ 0 then (cur, 0) else exactlyKSumCounted r count.toNat count.toNat [cur] cur

def unionUpToKSumTurns (r : ResidueSet) (countMax m : ℤ) : ResidueSet × ℕ :=
  let u := zeroResidue m
  if countMax ≤ 0 then (u, 0) else unionUpToKSumCounted r countMax.toNat [u] u u

variable {r : ResidueSet} {m : ℤ} {draws : Set ℤ}

theorem exactlyKSumCounted_result (count remaining : ℕ) (seq : List ResidueSet)
    (cur : ResidueSet) :
    (exactlyKSumCounted r count remaining seq cur).1 = exactlyKSumLoop r count remaining seq cur := by
  induction remaining generalizing seq cur with
  | zero => rfl
  | succ remaining ih =>
      rw [exactlyKSumCounted, exactlyKSumLoop]
      dsimp only
      cases seq.findIdx? (·.bits == (minkowskiSumMod cur r).bits) with
      | none => exact ih _ _
      | some j => rfl

theorem unionUpToKSumCounted_result (remaining : ℕ) (seen : List ResidueSet)
    (u cur : ResidueSet) :
    (unionUpToKSumCounted r remaining seen u cur).1 = unionUpToKSumLoop r remaining seen u cur := by
  induction remaining generalizing seen u cur with
  | zero => rfl
  | succ remaining ih =>
      rw [unionUpToKSumCounted, unionUpToKSumLoop]
      dsimp only
      split
      · rfl
      · exact ih _ _ _

theorem exactlyKSumTurns_result (count : ℤ) :
    (exactlyKSumTurns r count m).1 = exactlyKSumMod r count m := by
  rw [exactlyKSumTurns, exactlyKSumMod]
  split
  · rfl
  · exact exactlyKSumCounted_result _ _ _ _

theorem unionUpToKSumTurns_result (countMax : ℤ) :
    (unionUpToKSumTurns r countMax m).1 = unionUpToKSumMod r countMax m := by
  rw [unionUpToKSumTurns, unionUpToKSumMod]
  split
  · rfl
  · exact unionUpToKSumCounted_result _ _ _ _

/-- The `k`-fold sum of `draws` modulo `m`. -/
def modularSums (m : ℤ) (draws : Set ℤ) (k : ℕ) : Set ℤ :=
  (· % m) '' sums draws k

/-- The sums of at most `k` draws modulo `m`. -/
def modularSumsUpTo (m : ℤ) (draws : Set ℤ) (k : ℕ) : Set ℤ :=
  (· % m) '' sumsUpTo draws k

theorem modularSums_eq (draws : Set ℤ) (k : ℕ) :
    modularSums m draws k = foldSums (addMod m) 0 ((· % m) '' draws) k := by
  have carried := image_foldSums (· % m) (addMod m) (Set.mem_univ 0) (Set.subset_univ draws)
    (fun x _ y _ => Set.mem_univ (x + y)) (fun x _ y _ => Int.add_emod x y m) k
  rwa [Int.zero_emod] at carried

theorem modularSumsUpTo_eq (draws : Set ℤ) (k : ℕ) :
    modularSumsUpTo m draws k = foldSumsUpTo (addMod m) 0 ((· % m) '' draws) k := by
  have carried := image_foldSumsUpTo (· % m) (addMod m) (Set.mem_univ 0) (Set.subset_univ draws)
    (fun x _ y _ => Set.mem_univ (x + y)) (fun x _ y _ => Int.add_emod x y m) k
  rwa [Int.zero_emod] at carried

theorem modularSums_range (positive : 0 < m) (draws : Set ℤ) (k : ℕ) :
    modularSums m draws k ⊆ Set.Ico 0 m := by
  rintro _ ⟨x, _, rfl⟩
  exact ⟨Int.emod_nonneg x positive.ne', Int.emod_lt_of_pos x positive⟩

theorem modularSums_walk (draws : Set ℤ) (i j : ℕ)
    (same : modularSums m draws i = modularSums m draws j) :
    modularSums m draws (i + 1) = modularSums m draws (j + 1) := by
  rw [modularSums_eq, modularSums_eq] at same ⊢
  exact foldSums_congr same 1

/-- One more draw of `draw`. -/
abbrev shiftMod (m draw x : ℤ) : ℤ := addMod m x draw

theorem shiftMod_injOn (draw : ℤ) : Set.InjOn (shiftMod m draw) (Set.Ico 0 m) := by
  intro x left y right same
  have congruent : x % m = y % m := Int.ModEq.add_right_cancel' draw same
  rwa [Int.emod_eq_of_lt left.1 left.2, Int.emod_eq_of_lt right.1 right.2] at congruent

theorem iterate_shiftMod (draw : ℤ) {x : ℤ} (reduced : x % m = x) (count : ℕ) :
    (shiftMod m draw)^[count] x = (x + count * draw) % m := by
  induction count with
  | zero => simp [reduced]
  | succ count ih =>
      rw [Function.iterate_succ_apply', ih, shiftMod, addMod,
        Int.emod_add_emod]
      congr 1
      push_cast
      ring

variable {k : ℕ} {draw : ℤ}

theorem modularSums_succ (draws : Set ℤ) (k : ℕ) :
    modularSums m draws (k + 1) =
      Set.image2 (addMod m) (modularSums m draws k) ((· % m) '' draws) := by
  rw [modularSums_eq, modularSums_eq, foldSums_succ]

theorem shiftMod_subset (drawn : draw ∈ draws) (k : ℕ) :
    shiftMod m draw '' modularSums m draws k ⊆ modularSums m draws (k + 1) := by
  rintro _ ⟨x, member, rfl⟩
  rw [modularSums_succ]
  refine ⟨x, member, draw % m, Set.mem_image_of_mem _ drawn, ?_⟩
  rw [addMod, shiftMod, addMod, Int.add_emod_emod]

theorem modularSums_finite (positive : 0 < m) (draws : Set ℤ) (k : ℕ) :
    (modularSums m draws k).Finite :=
  (Set.finite_Ico 0 m).subset (modularSums_range positive draws k)

theorem shifted_of_steady (steady : modularSums m draws (k + 1) =
    shiftMod m draw '' modularSums m draws k) (more : ℕ) :
    modularSums m draws (k + more) = (shiftMod m draw)^[more] '' modularSums m draws k := by
  have onward : ∀ more, modularSums m draws (k + more + 1) =
      shiftMod m draw '' modularSums m draws (k + more) := by
    intro more
    induction more with
    | zero => exact steady
    | succ more ih =>
        rw [← Nat.add_assoc, modularSums_succ, ih, Set.image2_image_left,
          ← ih, modularSums_succ, Set.image_image2]
        refine Set.image2_congr fun x _ y _ => ?_
        simp only [addMod, Int.emod_add_emod]
        congr 1
        ring
  induction more with
  | zero => simp
  | succ more ih =>
      rw [← Nat.add_assoc, onward, ih, Set.image_image]
      exact Set.image_congr fun x _ => (Function.iterate_succ_apply' _ _ x).symm

theorem exists_steady (positive : 0 < m) (drawn : draw ∈ draws) :
    ∃ k < m.toNat, modularSums m draws (k + 1) =
      shiftMod m draw '' modularSums m draws k := by
  by_contra never
  push Not at never
  have grows : ∀ k ≤ m.toNat, k + 1 ≤ (modularSums m draws k).ncard := by
    intro k within
    induction k with
    | zero => simp [modularSums]
    | succ k ih =>
        have shifted : (shiftMod m draw '' modularSums m draws k).ncard =
            (modularSums m draws k).ncard :=
          ((shiftMod_injOn draw).mono (modularSums_range positive draws k)).ncard_image
        have strict := Set.ncard_lt_ncard
          ((shiftMod_subset drawn k).ssubset_of_ne (never k (by omega)).symm)
          (modularSums_finite positive draws (k + 1))
        have before := ih (by omega)
        omega
  have bounded := Set.ncard_le_ncard (modularSums_range positive draws m.toNat)
    (Set.finite_Ico 0 m)
  have full := grows m.toNat le_rfl
  rw [← Finset.coe_Ico, Set.ncard_coe_finset, Int.card_Ico, Int.sub_zero] at bounded
  omega

theorem exists_short_cycle (positive : 0 < m) (draws : Set ℤ) :
    ∃ prePeriod period, Cycle (modularSums m draws) prePeriod period ∧
      prePeriod + period ≤ 2 * m.toNat := by
  rcases draws.eq_empty_or_nonempty with rfl | ⟨draw, drawn⟩
  · have same : modularSums m ∅ 2 = modularSums m ∅ 1 := by
      rw [modularSums_succ, modularSums_succ ∅ 0]
      simp
    exact ⟨1, 1, cycle_of_meeting (modularSums_walk ∅) Nat.one_lt_two same, by omega⟩
  · obtain ⟨k, within, steady⟩ := exists_steady positive drawn
    have returns : modularSums m draws (k + m.toNat) = modularSums m draws k := by
      rw [shifted_of_steady steady]
      refine (Set.image_congr fun x member => ?_).trans (Set.image_id _)
      have range := modularSums_range positive draws k member
      have reduced := Int.emod_eq_of_lt range.1 range.2
      rw [iterate_shiftMod draw reduced, Int.toNat_of_nonneg positive.le,
        Int.add_mul_emod_self_left, reduced]
      rfl
    exact ⟨k, _, cycle_of_meeting (modularSums_walk draws) (by omega) returns, by omega⟩

def residues (r : ResidueSet) : Set ℤ :=
  {x | x ∈ r.elements}

theorem represents_residues (modulus : r.modulus = m) (bounded : r.bits < 2 ^ m.toNat) :
    r.Represents m ((· % m) '' r.residues) := by
  have below {i : ℕ} (present : r.bits.testBit i = true) : i < m.toNat := by
    by_contra beyond
    have absent := Nat.testBit_lt_two_pow
      (bounded.trans_le (Nat.pow_le_pow_right two_pos (Nat.le_of_not_lt beyond)))
    rw [present] at absent
    cases absent
  have mem_residues (x : ℤ) : x ∈ r.residues ↔ 0 ≤ x ∧ r.bits.testBit x.toNat = true := by
    simp only [residues, Set.mem_ofPred_eq, elements, List.mem_map, List.mem_filter,
      List.mem_range, modulus]
    constructor
    · rintro ⟨i, ⟨_, present⟩, rfl⟩
      exact ⟨Int.natCast_nonneg i, present⟩
    · rintro ⟨nonneg, present⟩
      exact ⟨x.toNat, ⟨below present, present⟩, Int.toNat_of_nonneg nonneg⟩
  have range (x : ℤ) (member : x ∈ r.residues) : 0 ≤ x ∧ x < m := by
    obtain ⟨nonneg, present⟩ := (mem_residues x).mp member
    have inside := below present
    exact ⟨nonneg, by omega⟩
  have reduced : (· % m) '' r.residues = r.residues := by
    refine (Set.image_congr fun x member => ?_).trans (Set.image_id _)
    exact Int.emod_eq_of_lt (range x member).1 (range x member).2
  rw [reduced]
  refine ⟨modulus, range, fun i => ?_⟩
  rw [mem_residues, Int.toNat_natCast]
  exact (and_iff_right (Int.natCast_nonneg i)).symm

/-- The masks recorded so far are the first terms, no two of them alike. -/
structure Walked (m : ℤ) (draws : Set ℤ) (done : ℕ) (seq : List ResidueSet) : Prop where
  length : seq.length = done + 1
  terms : ∀ (k : ℕ) (term : ResidueSet), seq[k]? = some term →
    term.Represents m (modularSums m draws k)
  distinct : DistinctUpTo (modularSums m draws) done

theorem walked_first (positive : 0 < m) : Walked m draws 0 [zeroResidue m] := by
  refine ⟨rfl, fun k term present => ?_, distinctUpTo_zero⟩
  rw [List.getElem?_singleton] at present
  split at present
  · rename_i first
    rw [first, ← Option.some.inj present]
    exact (represents_zeroResidue positive).congr (by simp [modularSums])
  · cases present

theorem Walked.extend {done : ℕ} {seq : List ResidueSet} {next : ResidueSet}
    (walked : Walked m draws done seq)
    (represents : next.Represents m (modularSums m draws (done + 1)))
    (fresh : ∀ term ∈ seq, term.bits ≠ next.bits) :
    Walked m draws (done + 1) (seq ++ [next]) := by
  refine ⟨by simp [walked.length], fun k term present => ?_,
    walked.distinct.succ fun k within same => ?_⟩
  · rcases Nat.lt_or_ge k seq.length with old | new
    · rw [List.getElem?_append_left old] at present
      exact walked.terms k term present
    · rw [List.getElem?_append_right new, List.getElem?_singleton] at present
      split at present
      · rename_i atEnd
        have position : k = done + 1 := by
          have length := walked.length
          omega
        rw [position, ← Option.some.inj present]
        exact represents
      · cases present
  · have inside : k < seq.length := by
      have length := walked.length
      omega
    have recorded := walked.terms k _ (List.getElem?_eq_getElem inside)
    exact fresh _ (List.getElem_mem inside) ((recorded.bits_eq_iff represents).mpr same)

variable {prePeriod period : ℕ}

theorem modularSums_next {cur : ResidueSet} {done : ℕ}
    (drawn : r.Represents m ((· % m) '' draws))
    (current : cur.Represents m (modularSums m draws done)) :
    (minkowskiSumMod cur r).Represents m (modularSums m draws (done + 1)) := by
  refine (current.minkowskiSumMod drawn).congr ?_
  rw [modularSums_eq, modularSums_eq, foldSums_succ]

theorem exactlyKSumCounted_turns (drawn : r.Represents m ((· % m) '' draws))
    (cycle : Cycle (modularSums m draws) prePeriod period) (count remaining : ℕ) :
    ∀ {done : ℕ} {seq : List ResidueSet} {cur : ResidueSet}, Walked m draws done seq →
      cur.Represents m (modularSums m draws done) →
        done + (exactlyKSumCounted r count remaining seq cur).2 ≤ prePeriod + period := by
  induction remaining with
  | zero =>
      intro done seq cur walked _
      exact (cycle.last_lt walked.distinct).le
  | succ remaining ih =>
      intro done seq cur walked current
      have next := modularSums_next drawn current
      rw [exactlyKSumCounted]
      dsimp only
      split
      · exact cycle.last_lt walked.distinct
      · rename_i unmet
        have fresh : ∀ term ∈ seq, term.bits ≠ (minkowskiSumMod cur r).bits := by
          simpa using List.findIdx?_eq_none_iff.mp unmet
        have later := ih (walked.extend next fresh) next
        omega

theorem unionUpToKSumCounted_turns (drawn : r.Represents m ((· % m) '' draws))
    (cycle : Cycle (modularSums m draws) prePeriod period) (remaining : ℕ) :
    ∀ {done : ℕ} {seen : List ResidueSet} {u cur : ResidueSet}, Walked m draws done seen →
      cur.Represents m (modularSums m draws done) →
        done + (unionUpToKSumCounted r remaining seen u cur).2 ≤ prePeriod + period := by
  induction remaining with
  | zero =>
      intro done seen u cur walked _
      exact (cycle.last_lt walked.distinct).le
  | succ remaining ih =>
      intro done seen u cur walked current
      have next := modularSums_next drawn current
      rw [unionUpToKSumCounted]
      dsimp only
      split
      · exact cycle.last_lt walked.distinct
      · rename_i unmet
        have fresh : ∀ term ∈ seen, term.bits ≠ (minkowskiSumMod cur r).bits := by
          simpa using unmet
        have later := ih (u := u.unionWith (minkowskiSumMod cur r))
          (walked.extend next fresh) next
        omega

/-- **Both loops stop within one pre-period and one period of the sums.** -/
theorem turns_le_cycle (positive : 0 < m) (drawn : r.Represents m ((· % m) '' draws))
    (cycle : Cycle (modularSums m draws) prePeriod period) (count : ℤ) :
    (exactlyKSumTurns r count m).2 ≤ prePeriod + period ∧
      (unionUpToKSumTurns r count m).2 ≤ prePeriod + period := by
  have first : (zeroResidue m).Represents m (modularSums m draws 0) :=
    (represents_zeroResidue positive).congr (by simp [modularSums])
  rw [exactlyKSumTurns, unionUpToKSumTurns]
  split
  · exact ⟨Nat.zero_le _, Nat.zero_le _⟩
  · have walked : Walked m draws 0 [zeroResidue m] := walked_first positive
    have exactly := exactlyKSumCounted_turns drawn cycle count.toNat count.toNat walked first
    have upTo := unionUpToKSumCounted_turns (u := zeroResidue m) drawn cycle count.toNat walked
      first
    exact ⟨by omega, by omega⟩

/-- **The modular k-fold sums are exact**: both functions answer the sums themselves, however large
the count, and their loops stop within one pre-period and one period of the sums. -/
theorem kFoldSums_exact (positive : 0 < m) (modulus : r.modulus = m)
    (bounded : r.bits < 2 ^ m.toNat) (count : ℤ) :
    (exactlyKSumMod r count m).Represents m (modularSums m r.residues count.toNat) ∧
      (unionUpToKSumMod r count m).Represents m (modularSumsUpTo m r.residues count.toNat) ∧
      (exactlyKSumTurns r count m).1 = exactlyKSumMod r count m ∧
      (unionUpToKSumTurns r count m).1 = unionUpToKSumMod r count m ∧
      (∃ prePeriod period, Cycle (modularSums m r.residues) prePeriod period ∧
        prePeriod + period ≤ 2 * m.toNat) ∧
      ∀ prePeriod period, Cycle (modularSums m r.residues) prePeriod period →
        (exactlyKSumTurns r count m).2 ≤ prePeriod + period ∧
          (unionUpToKSumTurns r count m).2 ≤ prePeriod + period := by
  have drawn := represents_residues modulus bounded
  have exactly := exactlyKSumMod_represents positive drawn count
  have upTo := unionUpToKSumMod_represents positive drawn count
  rw [← modularSums_eq] at exactly
  rw [← modularSumsUpTo_eq] at upTo
  exact ⟨exactly, upTo, exactlyKSumTurns_result count, unionUpToKSumTurns_result count,
    exists_short_cycle positive r.residues,
    fun prePeriod period cycle => turns_le_cycle positive drawn cycle count⟩

/-- The most draws a count can ask for, from `{1, 2}` modulo three. -/
theorem kFoldSums_exact_three :
    (exactlyKSumMod ⟨3, 0b110⟩ (2 ^ 63 - 1) 3).Represents 3
      (modularSums 3 (residues ⟨3, 0b110⟩) (2 ^ 63 - 1)) :=
  (kFoldSums_exact (r := ⟨3, 0b110⟩) (m := 3) (by decide) rfl (by decide) (2 ^ 63 - 1)).1

end LlvmDsdl.Semantics.ResidueSet
