import Mathlib

/-!
Contract: sets of repeated sums.

Owns: `foldSums`, the values of a fixed number of draws from a set combined by a
binary operation; `foldSumsUpTo`, the same for any number of draws up to a
bound; and how both behave under maps, inclusion, bounds, zero draws, fixed
points and cycles.

Does not own any concrete arithmetic. The operation need not be associative:
draws are combined from the left.
-/

namespace LlvmDsdl.Library.Sumset

universe u v

variable {α : Type u} {β : Type v}

/-- The values of `count` draws from `s`, combined from the left starting at `unit`. -/
def foldSums (op : α → α → α) (unit : α) (s : Set α) : ℕ → Set α
  | 0 => {unit}
  | count + 1 => Set.image2 op (foldSums op unit s count) s

/-- The values of at most `bound` draws. -/
def foldSumsUpTo (op : α → α → α) (unit : α) (s : Set α) (bound : ℕ) : Set α :=
  {x | ∃ count ≤ bound, x ∈ foldSums op unit s count}

section General

variable {op : α → α → α} {unit : α} {s t : Set α}

@[simp] theorem foldSums_zero : foldSums op unit s 0 = {unit} := rfl

theorem foldSums_succ (count : ℕ) :
    foldSums op unit s (count + 1) = Set.image2 op (foldSums op unit s count) s := rfl

theorem mem_foldSums_succ {count : ℕ} {x y : α} (left : x ∈ foldSums op unit s count)
    (right : y ∈ s) : op x y ∈ foldSums op unit s (count + 1) :=
  Set.mem_image2_of_mem left right

@[simp] theorem foldSumsUpTo_zero : foldSumsUpTo op unit s 0 = {unit} := by
  ext x
  simp [foldSumsUpTo]

theorem foldSumsUpTo_succ (bound : ℕ) :
    foldSumsUpTo op unit s (bound + 1) =
      foldSumsUpTo op unit s bound ∪ foldSums op unit s (bound + 1) := by
  ext x
  constructor
  · rintro ⟨count, within, member⟩
    rcases Nat.lt_or_eq_of_le within with less | rfl
    · exact Or.inl ⟨count, Nat.lt_succ_iff.mp less, member⟩
    · exact Or.inr member
  · rintro (⟨count, within, member⟩ | member)
    · exact ⟨count, within.trans (Nat.le_succ _), member⟩
    · exact ⟨bound + 1, le_rfl, member⟩

theorem foldSums_subset_upTo {count bound : ℕ} (within : count ≤ bound) :
    foldSums op unit s count ⊆ foldSumsUpTo op unit s bound :=
  fun _ member => ⟨count, within, member⟩

theorem foldSums_subset (inclusion : s ⊆ t) (count : ℕ) :
    foldSums op unit s count ⊆ foldSums op unit t count := by
  induction count with
  | zero => exact subset_rfl
  | succ count ih => exact Set.image2_subset ih inclusion

theorem foldSumsUpTo_subset (inclusion : s ⊆ t) (bound : ℕ) :
    foldSumsUpTo op unit s bound ⊆ foldSumsUpTo op unit t bound := fun _ member =>
  member.imp fun count inTerm => ⟨inTerm.1, foldSums_subset inclusion count inTerm.2⟩

/-- Repeated sums stay in any set that holds the unit and the draws and is closed. -/
theorem foldSums_within {closed : Set α} (unitIn : unit ∈ closed) (drawsIn : s ⊆ closed)
    (opIn : ∀ x ∈ closed, ∀ y ∈ closed, op x y ∈ closed) (count : ℕ) :
    foldSums op unit s count ⊆ closed := by
  induction count with
  | zero => exact Set.singleton_subset_iff.mpr unitIn
  | succ count ih =>
      exact Set.image2_subset_iff.mpr fun x left y right =>
        opIn x (ih left) y (drawsIn right)

/-- A map that respects the operations carries repeated sums to repeated sums. -/
theorem image_foldSums (map : α → β) (target : β → β → β) {closed : Set α}
    (unitIn : unit ∈ closed) (drawsIn : s ⊆ closed)
    (opIn : ∀ x ∈ closed, ∀ y ∈ closed, op x y ∈ closed)
    (respects : ∀ x ∈ closed, ∀ y ∈ closed, map (op x y) = target (map x) (map y)) (count : ℕ) :
    map '' foldSums op unit s count = foldSums target (map unit) (map '' s) count := by
  induction count with
  | zero => simp
  | succ count ih =>
      rw [foldSums_succ, foldSums_succ, ← ih, Set.image_image2,
        Set.image2_image_left, Set.image2_image_right]
      exact Set.image2_congr fun x left y right =>
        respects x (foldSums_within unitIn drawsIn opIn count left) y (drawsIn right)

theorem image_foldSumsUpTo (map : α → β) (target : β → β → β) {closed : Set α}
    (unitIn : unit ∈ closed) (drawsIn : s ⊆ closed)
    (opIn : ∀ x ∈ closed, ∀ y ∈ closed, op x y ∈ closed)
    (respects : ∀ x ∈ closed, ∀ y ∈ closed, map (op x y) = target (map x) (map y)) (bound : ℕ) :
    map '' foldSumsUpTo op unit s bound = foldSumsUpTo target (map unit) (map '' s) bound := by
  have each := image_foldSums map target unitIn drawsIn opIn respects
  ext y
  constructor
  · rintro ⟨x, ⟨count, within, member⟩, rfl⟩
    exact ⟨count, within, each count ▸ Set.mem_image_of_mem map member⟩
  · rintro ⟨count, within, member⟩
    rw [← each count] at member
    obtain ⟨x, inside, rfl⟩ := member
    exact ⟨x, ⟨count, within, inside⟩, rfl⟩

section Ordered

variable [Preorder α] (monoLeft : ∀ y, Monotone fun x => op x y) (monoRight : ∀ x, Monotone (op x))

include monoLeft monoRight

theorem isLeast_foldSums (unit : α) {least : α} (isLeast : IsLeast s least) (count : ℕ) :
    IsLeast (foldSums op unit s count) ((fun x => op x least)^[count] unit) := by
  induction count with
  | zero => exact isLeast_singleton
  | succ count ih =>
      rw [foldSums_succ, Function.iterate_succ_apply']
      exact ih.image2 monoLeft monoRight isLeast

theorem isGreatest_foldSums (unit : α) {greatest : α} (isGreatest : IsGreatest s greatest)
    (count : ℕ) :
    IsGreatest (foldSums op unit s count) ((fun x => op x greatest)^[count] unit) := by
  induction count with
  | zero => exact isGreatest_singleton
  | succ count ih =>
      rw [foldSums_succ, Function.iterate_succ_apply']
      exact ih.image2 monoLeft monoRight isGreatest

end Ordered

theorem foldSums_congr {first second : ℕ}
    (same : foldSums op unit s first = foldSums op unit s second) (more : ℕ) :
    foldSums op unit s (first + more) = foldSums op unit s (second + more) := by
  induction more with
  | zero => exact same
  | succ more ih =>
      rw [← Nat.add_assoc, ← Nat.add_assoc, foldSums_succ, foldSums_succ, ih]

/-- Once two terms agree, the sequence repeats with their distance as period. -/
theorem foldSums_cycle {first period : ℕ}
    (same : foldSums op unit s (first + period) = foldSums op unit s first) (more : ℕ) :
    foldSums op unit s (first + more) = foldSums op unit s (first + more % period) := by
  induction more using Nat.strong_induction_on with
  | _ more ih =>
      by_cases small : more < period
      · rw [Nat.mod_eq_of_lt small]
      · by_cases trivial : period = 0
        · rw [trivial, Nat.mod_zero]
        · have split : first + more = first + period + (more - period) := by omega
          rw [split, foldSums_congr same, ih (more - period) (by omega),
            ← Nat.mod_eq_sub_mod (by omega)]

theorem foldSumsUpTo_of_cycle {first last bound : ℕ} (earlier : first < last)
    (within : last ≤ bound)
    (same : foldSums op unit s last = foldSums op unit s first) :
    foldSumsUpTo op unit s bound = foldSumsUpTo op unit s last := by
  refine Set.Subset.antisymm ?_ fun x ⟨count, low, member⟩ => ⟨count, low.trans within, member⟩
  rintro x ⟨count, _, member⟩
  by_cases low : count ≤ last
  · exact ⟨count, low, member⟩
  · have cycle : foldSums op unit s (first + (last - first)) = foldSums op unit s first := by
      rw [Nat.add_sub_cancel' earlier.le, same]
    have wrapped := foldSums_cycle cycle (count - first)
    rw [Nat.add_sub_cancel' (by omega)] at wrapped
    have small := Nat.mod_lt (count - first) (show 0 < last - first by omega)
    exact ⟨_, by omega, wrapped ▸ member⟩

/-- Drawing the unit changes nothing, so more draws reach at least as much. -/
theorem foldSums_subset_succ (unitIn : unit ∈ s) {count : ℕ}
    (neutral : ∀ x ∈ foldSums op unit s count, op x unit = x) :
    foldSums op unit s count ⊆ foldSums op unit s (count + 1) := fun x member =>
  neutral x member ▸ mem_foldSums_succ member unitIn

theorem foldSums_mono (unitIn : unit ∈ s)
    (neutral : ∀ count, ∀ x ∈ foldSums op unit s count, op x unit = x) :
    Monotone (foldSums op unit s) :=
  monotone_nat_of_le_succ fun count => foldSums_subset_succ unitIn (neutral count)

theorem foldSumsUpTo_mono : Monotone (foldSumsUpTo op unit s) := fun _ _ ordered _ member =>
  member.imp fun _ inTerm => ⟨inTerm.1.trans ordered, inTerm.2⟩

theorem foldSumsUpTo_eq_foldSums (unitIn : unit ∈ s)
    (neutral : ∀ count, ∀ x ∈ foldSums op unit s count, op x unit = x) (bound : ℕ) :
    foldSumsUpTo op unit s bound = foldSums op unit s bound := by
  induction bound with
  | zero => simp
  | succ bound ih =>
      rw [foldSumsUpTo_succ, ih]
      exact Set.union_eq_right.mpr (foldSums_subset_succ unitIn (neutral bound))

end General

section Integers

variable {s : Set ℤ}

abbrev sums (s : Set ℤ) (count : ℕ) : Set ℤ :=
  foldSums (· + ·) 0 s count

abbrev sumsUpTo (s : Set ℤ) (bound : ℕ) : Set ℤ :=
  foldSumsUpTo (· + ·) 0 s bound

theorem sums_succ (count : ℕ) :
    sums s (count + 1) = Set.image2 (· + ·) (sums s count) s := rfl

theorem succ_mul_cast (count : ℕ) (value : ℤ) :
    ((count + 1 : ℕ) : ℤ) * value = count * value + value := by
  push_cast
  ring

theorem iterate_add_value (value : ℤ) (count : ℕ) :
    (fun x => x + value)^[count] 0 = count * value := by
  induction count with
  | zero => simp
  | succ count ih =>
      rw [Function.iterate_succ_apply', ih, succ_mul_cast]

@[simp] theorem sums_one : sums s 1 = s := by
  simp [sums, foldSums_succ]

theorem sums_singleton (value : ℤ) (count : ℕ) : sums {value} count = {count * value} := by
  induction count with
  | zero => simp
  | succ count ih =>
      rw [sums_succ, ih, Set.image2_singleton, succ_mul_cast]

theorem isLeast_sums {least : ℤ} (isLeast : IsLeast s least) (count : ℕ) :
    IsLeast (sums s count) (count * least) := by
  have bound := isLeast_foldSums (fun y : ℤ => add_left_mono (a := y))
    (fun x : ℤ => add_right_mono (a := x)) 0 isLeast count
  rwa [iterate_add_value] at bound

theorem isGreatest_sums {greatest : ℤ} (isGreatest : IsGreatest s greatest) (count : ℕ) :
    IsGreatest (sums s count) (count * greatest) := by
  have bound := isGreatest_foldSums (fun y : ℤ => add_left_mono (a := y))
    (fun x : ℤ => add_right_mono (a := x)) 0 isGreatest count
  rwa [iterate_add_value] at bound

theorem sums_nonneg (nonneg : ∀ x ∈ s, 0 ≤ x) {count : ℕ} : ∀ x ∈ sums s count, 0 ≤ x := by
  have within : sums s count ⊆ Set.Ici 0 := foldSums_within (Set.mem_Ici.mpr le_rfl) nonneg
    (fun _ left _ right => Set.mem_Ici.mpr (add_nonneg left right)) count
  exact within

theorem sums_le {bound : ℤ} (below : ∀ x ∈ s, x ≤ bound) (count : ℕ) :
    ∀ x ∈ sums s count, x ≤ count * bound := by
  induction count with
  | zero => simp
  | succ count ih =>
      rintro _ ⟨x, left, y, right, rfl⟩
      rw [succ_mul_cast]
      exact add_le_add (ih x left) (below y right)

theorem sums_shift (shift : ℤ) (count : ℕ) :
    sums ((· + shift) '' s) count = (· + count * shift) '' sums s count := by
  induction count with
  | zero => simp
  | succ count ih =>
      rw [sums_succ, ih, sums_succ, Set.image2_image_left,
        Set.image2_image_right, Set.image_image2, succ_mul_cast]
      exact Set.image2_congr fun x _ y _ => by ring

end Integers

end LlvmDsdl.Library.Sumset
