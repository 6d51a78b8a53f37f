import Mathlib

/-!
Contract: rewriting every match of a pattern from left to right.

Owns: patterns that match at the start of a text and consume some of it, the
scan that rewrites each match and copies what lies between, and the equations,
the skipping rule and the length rules of the scan.

Does not own any pattern, nor how one is described.
-/

namespace LlvmDsdl.Library.ReplaceAll

universe u

variable {α : Type u}

/-- What a match at the start of a text becomes, with the text behind it. -/
structure Pattern (α : Type u) where
  matchAt : List α → Option (List α × List α)
  shrinks : ∀ {text out rest : List α}, matchAt text = some (out, rest) →
    rest.length < text.length

namespace Pattern

variable (pattern : Pattern α)

/-- The scan, bounded by a number of its steps. -/
def replaceWithin : ℕ → List α → List α
  | 0, text => text
  | steps + 1, text =>
      match pattern.matchAt text with
      | some (out, rest) => out ++ replaceWithin steps rest
      | none =>
          match text with
          | [] => []
          | first :: tail => first :: replaceWithin steps tail

/-- The text with every match rewritten; each step consumes some of it. -/
def replaceAll (text : List α) : List α :=
  pattern.replaceWithin text.length text

variable {pattern} {text out rest : List α}

theorem matchAt_nil : pattern.matchAt [] = none := by
  cases found : pattern.matchAt [] with
  | none => rfl
  | some result => exact absurd (pattern.shrinks found) (Nat.not_lt_zero _)

theorem replaceWithin_enough {steps : ℕ} (enough : text.length ≤ steps) :
    pattern.replaceWithin steps text = pattern.replaceAll text := by
  induction steps using Nat.strong_induction_on generalizing text with
  | _ steps ih =>
      cases steps with
      | zero => rw [List.eq_nil_of_length_eq_zero (Nat.le_zero.mp enough)]; rfl
      | succ steps =>
          cases text with
          | nil =>
              rw [replaceWithin, matchAt_nil]
              rfl
          | cons first tail =>
              rw [replaceAll, List.length_cons, replaceWithin, replaceWithin]
              cases found : pattern.matchAt (first :: tail) with
              | none =>
                  rw [List.length_cons] at enough
                  dsimp only
                  rw [ih steps (Nat.lt_succ_self _)
                    (Nat.le_of_succ_le_succ enough)]
                  rfl
              | some result =>
                  have shorter := pattern.shrinks found
                  rw [List.length_cons] at enough shorter
                  dsimp only
                  rw [ih steps (Nat.lt_succ_self _) (by omega),
                    ih tail.length (by omega) (by omega)]

@[simp] theorem replaceAll_nil : pattern.replaceAll [] = [] := rfl

theorem replaceAll_match (found : pattern.matchAt text = some (out, rest)) :
    pattern.replaceAll text = out ++ pattern.replaceAll rest := by
  have shorter := pattern.shrinks found
  obtain ⟨steps, length⟩ : ∃ steps, text.length = steps + 1 := ⟨text.length - 1, by omega⟩
  rw [replaceAll, length, replaceWithin.eq_def]
  dsimp only
  rw [found]
  dsimp only
  rw [replaceWithin_enough (by omega)]

theorem replaceAll_skip {first : α} {tail : List α}
    (unmatched : pattern.matchAt (first :: tail) = none) :
    pattern.replaceAll (first :: tail) = first :: pattern.replaceAll tail := by
  rw [replaceAll, List.length_cons, replaceWithin, unmatched]
  rfl

theorem replaceAll_append {start : List α}
    (unmatched : ∀ before after, start = before ++ after → after ≠ [] →
      pattern.matchAt (after ++ rest) = none) :
    pattern.replaceAll (start ++ rest) = start ++ pattern.replaceAll rest := by
  induction start with
  | nil => rfl
  | cons first tail ih =>
      have here := unmatched [] (first :: tail) rfl (List.cons_ne_nil _ _)
      rw [List.cons_append] at here ⊢
      rw [replaceAll_skip here, List.cons_append]
      congr 1
      refine ih fun before after whole nonempty => ?_
      exact unmatched (first :: before) after (by rw [whole, List.cons_append]) nonempty

end Pattern

end LlvmDsdl.Library.ReplaceAll
