import Mathlib

/-!
Contract: sequences that come to repeat.

Owns: `Cycle`, a pre-period and a period of a sequence; how many terms can
differ before it closes; and that a walk over finitely many terms has one.

Does not own the sequences: a walk is a sequence whose next term depends on the
last one only.
-/

namespace LlvmDsdl.Library.EventualCycle

universe u

variable {α : Type u} {terms : ℕ → α} {prePeriod period last : ℕ}

/-- From `prePeriod` on the terms repeat every `period`. -/
structure Cycle (terms : ℕ → α) (prePeriod period : ℕ) : Prop where
  positive : 0 < period
  repeats : ∀ k, prePeriod ≤ k → terms (k + period) = terms k

/-- No two of the terms up to `last` agree. -/
def DistinctUpTo (terms : ℕ → α) (last : ℕ) : Prop :=
  ∀ i j, i < j → j ≤ last → terms i ≠ terms j

theorem distinctUpTo_zero : DistinctUpTo terms 0 := by
  intro i j earlier within
  omega

theorem DistinctUpTo.succ (distinct : DistinctUpTo terms last)
    (fresh : ∀ k ≤ last, terms k ≠ terms (last + 1)) : DistinctUpTo terms (last + 1) := by
  intro i j earlier within
  by_cases old : j ≤ last
  · exact distinct i j earlier old
  · have position : j = last + 1 := by omega
    rw [position]
    exact fresh i (by omega)

theorem Cycle.last_lt (cycle : Cycle terms prePeriod period)
    (distinct : DistinctUpTo terms last) : last < prePeriod + period := by
  by_contra beyond
  have earlier := cycle.positive
  exact distinct prePeriod (prePeriod + period) (by omega) (by omega)
    (cycle.repeats prePeriod le_rfl).symm

section Walk

variable (walk : ∀ i j, terms i = terms j → terms (i + 1) = terms (j + 1))

include walk

theorem cycle_of_meeting {first second : ℕ} (earlier : first < second)
    (same : terms second = terms first) : Cycle terms first (second - first) := by
  refine ⟨by omega, fun k reached => ?_⟩
  induction k, reached using Nat.le_induction with
  | base => rw [Nat.add_sub_cancel' earlier.le, same]
  | succ k reached ih =>
      rw [Nat.add_right_comm]
      exact walk _ _ ih

end Walk

end LlvmDsdl.Library.EventualCycle
