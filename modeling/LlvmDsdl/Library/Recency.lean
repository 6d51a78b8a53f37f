import Mathlib

/-!
Contract: what a bounded table of the most recently touched keys holds.

Owns: the marks of such a table, the keys touched most recently, those the
table holds, how often a key was touched since it was last evicted, and how
each of these follows from the marks before.

Does not own a representation of the table. Marks are listed newest first,
and the rules need the capacity never to grow.
-/

namespace LlvmDsdl.Library.Recency

universe u v

variable {Key : Type u} {Kind : Type v}

/-- A key was touched in some way, or the capacity became another. -/
inductive Mark (Key : Type u) (Kind : Type v) where
  | touched (key : Key) (kind : Kind)
  | resized (capacity : ℕ)
  deriving DecidableEq

def capacity : List (Mark Key Kind) → ℕ
  | [] => 0
  | .touched _ _ :: older => capacity older
  | .resized bound :: _ => bound

def touches : List (Mark Key Kind) → ℕ
  | [] => 0
  | .touched _ _ :: older => touches older + 1
  | .resized _ :: older => touches older

variable [DecidableEq Key]

/-- Every key touched, the most recently touched first. -/
def recent : List (Mark Key Kind) → List Key
  | [] => []
  | .touched key _ :: older => key :: (recent older).filter (· ≠ key)
  | .resized _ :: older => recent older

/-- The keys the table holds: the most recently touched, as many as fit. -/
def held (marks : List (Mark Key Kind)) : List Key :=
  (recent marks).take (capacity marks)

/-- How often a key was touched in one way since it was last evicted. -/
def count [DecidableEq Kind] (key : Key) (kind : Kind) : List (Mark Key Kind) → ℕ
  | [] => 0
  | mark :: older =>
      if key ∈ held (mark :: older) then
        count key kind older + if mark = .touched key kind then 1 else 0
      else 0

variable {marks : List (Mark Key Kind)} {key : Key}

theorem recent_nodup (marks : List (Mark Key Kind)) : (recent marks).Nodup := by
  induction marks with
  | nil => exact List.nodup_nil
  | cons mark older ih =>
      cases mark with
      | touched key kind =>
          exact List.nodup_cons.mpr ⟨by simp, ih.filter _⟩
      | resized bound => exact ih

theorem held_nodup (marks : List (Mark Key Kind)) : (held marks).Nodup :=
  (recent_nodup marks).sublist (List.take_sublist _ _)

theorem length_held_le (marks : List (Mark Key Kind)) :
    (held marks).length ≤ capacity marks :=
  List.length_take_le _ _

/-- Leaving out one key of distinct ones leaves at least all but one. -/
theorem length_filter_ne {keys : List Key} (nodup : keys.Nodup) (key : Key) :
    keys.length ≤ (keys.filter (· ≠ key)).length + 1 := by
  have parts := List.length_eq_length_filter_add (l := keys) (fun other => decide (other ≠ key))
  have one : (keys.filter fun other => !decide (other ≠ key)).length ≤ 1 := by
    have equal : (fun other => !decide (other ≠ key)) = (· == key) := by
      funext other
      rw [Bool.eq_iff_iff]
      simp
    rw [equal, ← List.count_eq_length_filter]
    exact List.nodup_iff_count_le_one.mp nodup key
  omega

/-- To keep the first keys after a touch it is enough to know the first keys before it. -/
theorem take_touch {keys : List Key} (nodup : keys.Nodup) (key : Key) (bound : ℕ) :
    (key :: (keys.take bound).filter (· ≠ key)).take bound =
      (key :: keys.filter (· ≠ key)).take bound := by
  cases bound with
  | zero => rfl
  | succ bound =>
      rw [List.take_succ_cons, List.take_succ_cons]
      congr 1
      have start := (List.take_prefix (bound + 1) keys).filter (· ≠ key)
      by_cases short : keys.length ≤ bound + 1
      · rw [List.take_of_length_le short]
      · have long := length_filter_ne (nodup.sublist (List.take_sublist (bound + 1) keys)) key
        rw [List.length_take] at long
        have enough : bound ≤ ((keys.take (bound + 1)).filter (· ≠ key)).length := by omega
        obtain ⟨rest, whole⟩ := start
        rw [← whole, List.take_append_of_le_length enough]

theorem held_touched (kind : Kind) :
    held (.touched key kind :: marks) =
      (key :: (held marks).filter (· ≠ key)).take (capacity marks) :=
  (take_touch (recent_nodup marks) key _).symm

theorem held_resized {bound : ℕ} (smaller : bound ≤ capacity marks) :
    held (.resized bound :: marks) = (held marks).take bound := by
  rw [held, held, List.take_take, min_eq_left smaller]
  rfl

variable [DecidableEq Kind] {kind other : Kind}

theorem count_of_not_held (absent : key ∉ held marks) : count key kind marks = 0 := by
  cases marks with
  | nil => rfl
  | cons mark older => rw [count, if_neg absent]

theorem count_touched_self (room : 0 < capacity marks) :
    count key kind (.touched key other :: marks) =
      count key kind marks + if kind = other then 1 else 0 := by
  have present : key ∈ held (.touched key other :: marks) := by
    obtain ⟨bound, positive⟩ := Nat.exists_eq_succ_of_ne_zero room.ne'
    rw [held_touched, positive, List.take_succ_cons]
    exact List.mem_cons_self
  rw [count, if_pos present]
  simp only [Mark.touched.injEq, true_and, eq_comm]

theorem count_touched_of_ne {touched : Key} (apart : key ≠ touched)
    (present : key ∈ held (.touched touched other :: marks)) :
    count key kind (.touched touched other :: marks) = count key kind marks := by
  rw [count, if_pos present, if_neg (by simp [apart.symm]), Nat.add_zero]

theorem count_resized {bound : ℕ} (present : key ∈ held (.resized bound :: marks)) :
    count key kind (.resized bound :: marks) = count key kind marks := by
  rw [count, if_pos present, if_neg (by simp), Nat.add_zero]

end LlvmDsdl.Library.Recency
