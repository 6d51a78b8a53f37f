import Mathlib

/-!
Contract: the words inside an unbounded bit sequence.

Owns: `wordAt`, the word whose bits stand at a position of the sequence.

Does not own bytes, buffers or bounds: a sequence is total and has no end.
-/

namespace LlvmDsdl.Library.BitRun

section Words

variable {n : ℕ}

/-- The word whose low `width` bits stand at `start`, zero above them. -/
def wordAt (n : ℕ) (bits : ℕ → Bool) (start width : ℕ) : BitVec n :=
  (BitVec.ofFnLE fun offset : Fin width => bits (start + offset)).setWidth n

theorem getLsbD_wordAt (bits : ℕ → Bool) (start width offset : ℕ) :
    (wordAt n bits start width).getLsbD offset =
      (decide (offset < n) && (decide (offset < width) && bits (start + offset))) := by
  rw [wordAt, BitVec.getLsbD_setWidth, BitVec.getLsbD_ofFnLE]
  by_cases inside : offset < width
  · simp [inside]
  · simp [inside]

end Words

end LlvmDsdl.Library.BitRun
