import LlvmDsdl.Semantics.BitLengthSet.Denotation
import LlvmDsdl.Semantics.RunSet.Compare
import LlvmDsdl.Semantics.RunSet.Pad
import LlvmDsdl.Semantics.RunSet.Repeat

/-!
Contract: the run-compressed form of a bit-length expression.

Owns: `BitLengthSet::runSet` and the theorem that a run set it returns passes
the audit and denotes exactly `S(e)`.

Run-set operations compute under ordinary arithmetic and refuse what leaves 64
bits. An answer therefore never meets the clamp of the denotation.
-/

namespace LlvmDsdl.Semantics

open Support Support.IntegerMath Library.Sumset

/-- One step of the run evaluation; a refusal below poisons the result. -/
def Node.runSetStep : Node → (ℕ → Option RunSet) → Option RunSet
  | leaf values, _ => some (RunSet.fromValues values)
  | add lhs rhs, memo => (memo lhs).bind fun l => (memo rhs).bind fun r => RunSet.sum l r
  | union lhs rhs, memo => (memo lhs).bind fun l => (memo rhs).bind fun r => RunSet.unite l r
  | pad lhs param, memo => (memo lhs).bind fun l => l.paddedTo (max 1 param)
  | repeated lhs param, memo => (memo lhs).bind fun l => l.repeated (max 0 param)
  | repeatRange lhs param, memo => (memo lhs).bind fun l => l.repeatRange (max 0 param)

namespace Heap

variable (heap : Heap)

/-- `BitLengthSet::runSet`, without the cache of the immutable result. -/
def runSet (set : BitLengthSet heap) : Option RunSet :=
  heap.evaluate Node.runSetStep set

theorem runSetStep_denotes (node : Node) (memo : ℕ → Option RunSet)
    (wellFormed : (heap.unfoldNode node).WellFormed)
    (recorded : ∀ child ∈ node.children, ∀ runs, memo child = some runs →
      runs.Denotes (heap.expr child).exactDenote) :
    ∀ runs, node.runSetStep memo = some runs →
      runs.Denotes (heap.unfoldNode node).exactDenote := by
  intro runs found
  cases node with
  | leaf values =>
      obtain rfl := Option.some.inj found
      refine RunSet.fromValues_denotes rfl (FlatSet.isLeast_front wellFormed.1 0).nonempty ?_
      exact fun v member => .of_nonneg (wellFormed.2 v member).1 (wellFormed.2 v member).2
  | add lhs rhs =>
      obtain ⟨l, lFound, found⟩ := Option.bind_eq_some_iff.mp found
      obtain ⟨r, rFound, found⟩ := Option.bind_eq_some_iff.mp found
      have left := recorded lhs (by simp [Node.children]) l lFound
      have right := recorded rhs (by simp [Node.children]) r rFound
      have spec := RunSet.sum_spec left.valid right.valid found
      rwa [left.elements, right.elements] at spec
  | union lhs rhs =>
      obtain ⟨l, lFound, found⟩ := Option.bind_eq_some_iff.mp found
      obtain ⟨r, rFound, found⟩ := Option.bind_eq_some_iff.mp found
      have left := recorded lhs (by simp [Node.children]) l lFound
      have right := recorded rhs (by simp [Node.children]) r rFound
      exact RunSet.unite_denotes left right found
  | pad lhs param =>
      obtain ⟨l, lFound, found⟩ := Option.bind_eq_some_iff.mp found
      have child := recorded lhs (by simp [Node.children]) l lFound
      rw [max_eq_right wellFormed.2.1] at found
      have spec := RunSet.paddedTo_spec child.valid (by have := wellFormed.2.1; omega) found
      rwa [child.elements] at spec
  | repeated lhs param =>
      obtain ⟨l, lFound, found⟩ := Option.bind_eq_some_iff.mp found
      have child := recorded lhs (by simp [Node.children]) l lFound
      rw [max_eq_right wellFormed.2.1] at found
      have spec := RunSet.repeated_spec child.valid found
      rwa [child.elements] at spec
  | repeatRange lhs param =>
      obtain ⟨l, lFound, found⟩ := Option.bind_eq_some_iff.mp found
      have child := recorded lhs (by simp [Node.children]) l lFound
      rw [max_eq_right wellFormed.2.1] at found
      have spec := RunSet.repeatRange_spec child.valid wellFormed.2.2 found
      rwa [child.elements] at spec

/-- A run set that is returned denotes `S(e)`: its values fit 64 bits, so no
value of the expression is clamped. -/
theorem runSet_denotes {set : BitLengthSet heap} {runs : RunSet}
    (found : heap.runSet set = some runs) : runs.Denotes (heap.denote set) := by
  have exact := heap.evaluate_rule
    (fun expr value => ∀ runs, value = some runs → runs.Denotes expr.exactDenote)
    heap.runSetStep_denotes set runs found
  refine ⟨exact.valid, exact.elements.trans (Expr.denote_eq_exactDenote
    (heap.expr_wellFormed set.isLt) fun value member => ?_).symm⟩
  exact (exact.valid.inInt64 (exact.elements ▸ member)).2

/-- **Exact or refuse.** A returned run set passes `valid()`, is sorted, disjoint
and canonical, and denotes exactly `S(e)`. -/
theorem runSet_exact (set : BitLengthSet heap) (runs : RunSet)
    (found : heap.runSet set = some runs) :
    runs.valid = true ∧ runs.Valid ∧ runs.elements = heap.denote set :=
  have denotes := heap.runSet_denotes found
  ⟨RunSet.valid_of_valid denotes.valid, denotes.valid, denotes.elements⟩

/-- Forty padded arrays behind a header, or one alone, as runs. -/
theorem runSet_exact_records : ∃ runs, (records 40).1.runSet (records 40).2 = some runs ∧
    runs.valid = true ∧ runs.Valid ∧ runs.elements = (records 40).1.denote (records 40).2 :=
  have answered : ((records 40).1.runSet (records 40).2).isSome := by decide +kernel
  have found := (Option.some_get answered).symm
  ⟨_, found, runSet_exact _ _ _ found⟩

end Heap

end LlvmDsdl.Semantics
