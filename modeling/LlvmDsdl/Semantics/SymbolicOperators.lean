import LlvmDsdl.Semantics.BitLengthSet.Enumerated
import LlvmDsdl.Semantics.Evaluator

/-!
Contract: the symbolic answers of the evaluator against the listed elements.

Owns: for a bit-length set whose expansion lists every element, what each
operator answers from the symbolic form and what it answers on the listed
elements.
-/

namespace LlvmDsdl.Semantics

open Frontend Support Support.IntegerMath

namespace LengthSet

def rationals (set : LengthSet) : RationalSet :=
  .integers set.elements

variable {set : LengthSet}

theorem elements_nonempty (enumerated : set.Enumerated) : set.elements.data ≠ [] := by
  obtain ⟨value, member⟩ := set.denote_nonempty
  have listed := (mem_elements enumerated).mpr member
  intro empty
  rw [FlatSet.mem_def, empty] at listed
  exact List.not_mem_nil listed

end LengthSet

section Materialisation

variable {host : Host} {set : LengthSet}

end Materialisation

section Elementwise

variable (host : Host) (op : BinaryOp) (operand : ℤ) (f : ℤ → ℤ)

end Elementwise

section Operators

variable {host : Host} {set : LengthSet}

def SymbolicAddend (addend : ℤ) : Prop :=
  0 ≤ addend ∧ addend ≤ int64Max

instance (addend : ℤ) : Decidable (SymbolicAddend addend) :=
  inferInstanceAs (Decidable (_ ∧ _))

end Operators

end LlvmDsdl.Semantics
