import Mathlib

/-!
Contract: the sorted-vector set of `Support/FlatSet.h`.

Owns: a sorted duplicate-free sequence, the operations used on it, and the
elements each operation leaves.

The order is the linear order of the element type. Sorting a vector and merging
two sorted parts have one sorted result, so both are `insertionSort` here.
-/

namespace LlvmDsdl.Support

universe u

/-- An ordered set stored as a strictly increasing sequence. -/
structure FlatSet (α : Type u) [LinearOrder α] where
  data : List α
  sorted : data.Pairwise (· < ·)
  deriving DecidableEq

namespace FlatSet

variable {α : Type u} [LinearOrder α]

instance : Inhabited (FlatSet α) := ⟨⟨[], .nil⟩⟩

instance : Membership α (FlatSet α) := ⟨fun set value => value ∈ set.data⟩

instance (value : α) (set : FlatSet α) : Decidable (value ∈ set) :=
  inferInstanceAs (Decidable (value ∈ set.data))

theorem mem_def {value : α} {set : FlatSet α} : value ∈ set ↔ value ∈ set.data := Iff.rfl

def toSet (set : FlatSet α) : Set α :=
  {value | value ∈ set}

@[simp] theorem mem_toSet {value : α} {set : FlatSet α} :
    value ∈ set.toSet ↔ value ∈ set := Iff.rfl

theorem nodup (set : FlatSet α) : set.data.Nodup :=
  set.sorted.imp fun less => ne_of_lt less

theorem ext_mem {left right : FlatSet α} (same : ∀ value, value ∈ left ↔ value ∈ right) :
    left = right := by
  have permuted : left.data.Perm right.data :=
    (List.perm_ext_iff_of_nodup left.nodup right.nodup).mpr same
  have equal : left.data = right.data :=
    permuted.eq_of_pairwise (fun _ _ _ _ forward backward => absurd forward backward.asymm)
      left.sorted right.sorted
  cases left
  cases right
  simpa using equal

theorem toSet_injective : Function.Injective (toSet : FlatSet α → Set α) := fun _ _ same =>
  ext_mem fun value => Set.ext_iff.mp same value

theorem ncard_toSet (set : FlatSet α) : set.toSet.ncard = set.data.length := by
  have asFinset : set.toSet = (set.data.toFinset : Set α) := by
    ext value
    simp [mem_def]
  rw [asFinset, Set.ncard_coe_finset, List.toFinset_card_of_nodup set.nodup]

def empty : FlatSet α := ⟨[], .nil⟩

def singleton (value : α) : FlatSet α := ⟨[value], List.pairwise_singleton _ _⟩

@[simp] theorem mem_singleton {value other : α} : other ∈ singleton value ↔ other = value :=
  List.mem_singleton

/-- Collapse runs of equal neighbours, keeping the first of each. -/
def eraseAdjacentDuplicates : List α → List α
  | [] => []
  | first :: rest =>
      match eraseAdjacentDuplicates rest with
      | [] => [first]
      | second :: others => if first < second then first :: second :: others
          else second :: others

theorem mem_eraseAdjacentDuplicates {values : List α} (ordered : values.Pairwise (· ≤ ·)) :
    ∀ value, value ∈ eraseAdjacentDuplicates values ↔ value ∈ values := by
  induction values with
  | nil => simp [eraseAdjacentDuplicates]
  | cons first rest ih =>
      intro value
      have inner := ih ordered.of_cons
      rw [eraseAdjacentDuplicates]
      cases tail : eraseAdjacentDuplicates rest with
      | nil =>
          rw [tail] at inner
          simp [← inner]
      | cons second others =>
          rw [tail] at inner
          simp only
          split
          · rw [List.mem_cons, inner, List.mem_cons]
          · rename_i notLess
            have secondIn : second ∈ rest := (inner second).mp (by simp)
            have same : first = second :=
              le_antisymm ((List.pairwise_cons.mp ordered).1 second secondIn) (not_lt.mp notLess)
            rw [inner, List.mem_cons]
            refine ⟨Or.inr, ?_⟩
            rintro (rfl | member)
            · exact same ▸ secondIn
            · exact member

theorem sorted_eraseAdjacentDuplicates {values : List α} (ordered : values.Pairwise (· ≤ ·)) :
    (eraseAdjacentDuplicates values).Pairwise (· < ·) := by
  induction values with
  | nil => exact .nil
  | cons first rest ih =>
      have inner := ih ordered.of_cons
      rw [eraseAdjacentDuplicates]
      cases tail : eraseAdjacentDuplicates rest with
      | nil => exact List.pairwise_singleton _ _
      | cons second others =>
          rw [tail] at inner
          simp only
          split
          · rename_i less
            refine List.pairwise_cons.mpr ⟨fun value member => ?_, inner⟩
            rcases List.mem_cons.mp member with rfl | later
            · exact less
            · exact less.trans ((List.pairwise_cons.mp inner).1 value later)
          · exact inner

/-- Adopt a vector, sorting and de-duplicating it. -/
def ofVector (values : List α) : FlatSet α :=
  ⟨eraseAdjacentDuplicates (values.insertionSort (· ≤ ·)),
    sorted_eraseAdjacentDuplicates (List.pairwise_insertionSort _ _)⟩

@[simp] theorem mem_ofVector {values : List α} {value : α} :
    value ∈ ofVector values ↔ value ∈ values :=
  (mem_eraseAdjacentDuplicates (List.pairwise_insertionSort _ _) value).trans
    (List.mem_insertionSort _)

/-- The constructor that trusts its input to be sorted and duplicate-free. An
input that is not breaks the C++ contract; it is normalised here. -/
def sortedUnique (values : List α) : FlatSet α :=
  if trusted : values.Pairwise (· < ·) then ⟨values, trusted⟩ else ofVector values

@[simp] theorem mem_sortedUnique {values : List α} {value : α} :
    value ∈ sortedUnique values ↔ value ∈ values := by
  unfold sortedUnique
  split
  · rfl
  · exact mem_ofVector

/-- Insert before the first element that is not less, unless it is equal. -/
def insertSorted (value : α) : List α → List α
  | [] => [value]
  | first :: rest =>
      if first < value then first :: insertSorted value rest
      else if value < first then value :: first :: rest
      else first :: rest

theorem mem_insertSorted {value other : α} {values : List α} :
    other ∈ insertSorted value values ↔ other = value ∨ other ∈ values := by
  induction values with
  | nil => simp [insertSorted]
  | cons first rest ih =>
      rw [insertSorted]
      split
      · rw [List.mem_cons, ih, List.mem_cons]
        exact or_left_comm
      · split
        · exact List.mem_cons
        · have same : value = first := le_antisymm (not_lt.mp ‹_›) (not_lt.mp ‹_›)
          simp [same]

theorem sorted_insertSorted {value : α} {values : List α} (sorted : values.Pairwise (· < ·)) :
    (insertSorted value values).Pairwise (· < ·) := by
  induction values with
  | nil => exact List.pairwise_singleton _ _
  | cons first rest ih =>
      obtain ⟨lower, restSorted⟩ := List.pairwise_cons.mp sorted
      rw [insertSorted]
      split
      · rename_i less
        refine List.pairwise_cons.mpr ⟨fun other member => ?_, ih restSorted⟩
        rcases mem_insertSorted.mp member with rfl | inRest
        · exact less
        · exact lower other inRest
      · split
        · rename_i greater
          refine List.pairwise_cons.mpr ⟨fun other member => ?_, sorted⟩
          rcases List.mem_cons.mp member with rfl | inRest
          · exact greater
          · exact greater.trans (lower other inRest)
        · exact sorted

def insert (set : FlatSet α) (value : α) : FlatSet α :=
  ⟨insertSorted value set.data, sorted_insertSorted set.sorted⟩

@[simp] theorem mem_insert {set : FlatSet α} {value other : α} :
    other ∈ set.insert value ↔ other = value ∨ other ∈ set :=
  mem_insertSorted

def insertRange (set : FlatSet α) (values : List α) : FlatSet α :=
  ofVector (set.data ++ values)

@[simp] theorem mem_insertRange {set : FlatSet α} {values : List α} {value : α} :
    value ∈ set.insertRange values ↔ value ∈ set ∨ value ∈ values := by
  rw [insertRange, mem_ofVector, List.mem_append, mem_def]

/-- `erase(std::prev(end()))`. -/
def eraseLast (set : FlatSet α) : FlatSet α :=
  ⟨set.data.dropLast, set.sorted.sublist (List.dropLast_sublist _)⟩

theorem mem_of_mem_eraseLast {set : FlatSet α} {value : α} (member : value ∈ set.eraseLast) :
    value ∈ set :=
  (List.dropLast_sublist _).mem member

/-- The smallest `limit` elements. -/
def take (set : FlatSet α) (limit : ℕ) : FlatSet α :=
  ⟨set.data.take limit, set.sorted.sublist (List.take_sublist _ _)⟩

theorem mem_of_mem_take {set : FlatSet α} {limit : ℕ} {value : α}
    (member : value ∈ set.take limit) : value ∈ set :=
  List.mem_of_mem_take member

def size (set : FlatSet α) : ℕ := set.data.length

theorem size_insert_le (set : FlatSet α) (value : α) : (set.insert value).size ≤ set.size + 1 := by
  have bound : ∀ values : List α, (insertSorted value values).length ≤ values.length + 1 := by
    intro values
    induction values with
    | nil => simp [insertSorted]
    | cons first rest ih =>
        rw [insertSorted]
        split
        · simpa using ih
        · split <;> simp
  exact bound set.data

theorem size_eraseLast (set : FlatSet α) : set.eraseLast.size = set.size - 1 :=
  List.length_dropLast

/-- `*begin()`, with a fallback for the empty set. -/
def front (set : FlatSet α) (fallback : α) : α := set.data.head?.getD fallback

/-- `*rbegin()`, with a fallback for the empty set. -/
def back (set : FlatSet α) (fallback : α) : α := set.data.getLast?.getD fallback

/-- `std::ranges::includes(this, other)`: both are sorted, so this is inclusion. -/
def includes (set other : FlatSet α) : Bool :=
  other.data.all (· ∈ set.data)

@[simp] theorem includes_iff {set other : FlatSet α} :
    set.includes other = true ↔ other.toSet ⊆ set.toSet := by
  simp [includes, Set.subset_def, mem_def]

theorem isLeast_front {set : FlatSet α} (nonempty : set.data ≠ []) (fallback : α) :
    IsLeast set.toSet (set.front fallback) := by
  obtain ⟨first, rest, dataEq⟩ := List.exists_cons_of_ne_nil nonempty
  have sorted := set.sorted
  have frontEq : set.front fallback = first := by rw [front, dataEq]; rfl
  rw [dataEq, List.pairwise_cons] at sorted
  rw [frontEq]
  refine ⟨by simp [mem_def, dataEq], fun value member => ?_⟩
  rw [mem_toSet, mem_def, dataEq] at member
  rcases List.mem_cons.mp member with rfl | inRest
  · exact le_rfl
  · exact (sorted.1 value inRest).le

theorem isGreatest_back {set : FlatSet α} (nonempty : set.data ≠ []) (fallback : α) :
    IsGreatest set.toSet (set.back fallback) := by
  obtain ⟨rest, last, dataEq⟩ := (List.eq_nil_or_concat' set.data).resolve_left nonempty
  have sorted := set.sorted
  have backEq : set.back fallback = last := by rw [back, dataEq]; simp
  rw [dataEq, List.pairwise_append] at sorted
  rw [backEq]
  refine ⟨by simp [mem_def, dataEq], fun value member => ?_⟩
  rw [mem_toSet, mem_def, dataEq] at member
  rcases List.mem_append.mp member with inRest | atEnd
  · exact (sorted.2.2 value inRest last (by simp)).le
  · exact (List.mem_singleton.mp atEnd).le

end FlatSet

end LlvmDsdl.Support
