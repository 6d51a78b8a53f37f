import LlvmDsdl.Runtime.FastPaths

/-!
Contract: the fast copies and extractions against the portable ones.

Owns: for each of the three languages, exactly the inputs on which the two
runtimes raise together and leave the same bytes.
-/

namespace LlvmDsdl.Runtime

open LlvmDsdl.Runtime.Buffer

def WholeBytes (dstOffBits srcOffBits : ℕ) (lenBits : ℤ) : Prop :=
  dstOffBits % 8 = 0 ∧ srcOffBits % 8 = 0 ∧ lenBits % 8 = 0

/-- The bits a copy takes from `src`. -/
def sourceBits (src : Buffer) (srcOffBits : ℕ) : ℕ → Bool := fun index =>
  bitOf src (srcOffBits + index)

/-! ### Whole bytes -/

theorem length_slice_within {src : Buffer} {start count : ℕ} (inside : start + count ≤ src.length) :
    (src.slice start ((start : ℤ) + count)).length = count := by
  have forward : ¬(start : ℤ) + count < 0 := by omega
  rw [Buffer.slice, if_neg forward, List.length_take, List.length_drop]
  omega

theorem bitOf_slice_within {src : Buffer} {start count position : ℕ}
    (inside : position < 8 * count) :
    bitOf (src.slice start ((start : ℤ) + count)) position = bitOf src (8 * start + position) := by
  have forward : ¬(start : ℤ) + count < 0 := by omega
  have width : ((start : ℤ) + count).toNat - start = count := by omega
  rw [Buffer.slice, if_neg forward, width]
  exact bitOf_take_drop src start count inside

/-- A move of whole bytes inside both buffers writes the source's bits. -/
theorem splice_slice_written {dst src : Buffer} {dstOff srcOff : ℕ} {lenBits : ℤ}
    (whole : WholeBytes dstOff srcOff lenBits)
    (dstFits : dstOff + lenBits.toNat ≤ 8 * dst.length)
    (srcFits : srcOff + lenBits.toNat ≤ 8 * src.length) :
    Written dst dstOff lenBits.toNat (sourceBits src srcOff)
      (splice dst (dstOff / 8)
        (src.slice (srcOff / 8) (((srcOff / 8 : ℕ) : ℤ) + ((lenBits / 8).toNat : ℕ)))) := by
  rcases whole with ⟨dstWhole, srcWhole, lenWhole⟩
  have length := @length_slice_within src (srcOff / 8) (lenBits / 8).toNat (by omega)
  have start : 8 * (dstOff / 8) = dstOff := by omega
  have count : 8 * (lenBits / 8).toNat = lenBits.toNat := by omega
  have written := @splice_written dst (dstOff / 8)
    (src.slice (srcOff / 8) (((srcOff / 8 : ℕ) : ℤ) + ((lenBits / 8).toNat : ℕ))) (by omega)
  rw [length, start, count] at written
  apply written.congr
  intro index inside
  have place : 8 * (srcOff / 8) + index = srcOff + index := by omega
  rw [bitOf_slice_within (by omega), place, sourceBits]

/-- A slice that ends before it starts is empty unless its end counts from the end of the buffer
and lies past its start. -/
theorem slice_backward_iff {src : Buffer} {start : ℕ} {count : ℤ} (backward : count < 0) :
    src.slice start (start + count) = [] ↔ 0 ≤ start + count ∨ src.length + count ≤ 0 := by
  rw [← List.length_eq_zero_iff, Buffer.slice, List.length_take, List.length_drop]
  by_cases negative : (start : ℤ) + count < 0
  · rw [if_pos negative]
    omega
  · rw [if_neg negative]
    omega

/-! ### Python -/

theorem pythonCopy_same_iff (dst : Buffer) (dstOff : ℕ) (src : Buffer) (srcOff : ℕ) (len : ℤ) :
    SameOutcome (PythonFast.copyBits dst dstOff src srcOff len)
        (Python.copyBits dst dstOff src srcOff len) ↔
      len ≤ 0 ∨ ¬WholeBytes dstOff srcOff len ∨
        (dstOff + len.toNat ≤ 8 * dst.length ∧ srcOff + len.toNat ≤ 8 * src.length) ∨
        (8 * dst.length < dstOff + len.toNat ∧
          Already dst dstOff len.toNat (sourceBits src srcOff)) := by
  have written := Python.copyBits_written dst dstOff src srcOff len
  have ending := Python.copyBits_ending dst dstOff src srcOff len
  by_cases nothing : len ≤ 0
  · rw [PythonFast.copyBits, Python.copyBits, if_pos nothing, if_pos nothing]
    exact ⟨fun _ => Or.inl nothing, fun _ => ⟨rfl, rfl⟩⟩
  · by_cases whole : WholeBytes dstOff srcOff len
    · have dstWhole := whole.1
      have srcWhole := whole.2.1
      have lenWhole := whole.2.2
      have some : len.toNat ≠ 0 := by omega
      rw [PythonFast.copyBits, if_neg nothing, if_pos ⟨dstWhole, srcWhole, lenWhole⟩]
      dsimp only
      by_cases fits : dstOff + len.toNat ≤ 8 * dst.length ∧ srcOff + len.toNat ≤ 8 * src.length
      · have moved := splice_slice_written whole fits.1 fits.2
        rw [if_neg (by omega)]
        rw [if_pos (Or.inr fits.1)] at ending
        constructor
        · intro _
          exact Or.inr (Or.inr (Or.inl fits))
        · intro _
          refine ⟨moved.unique written, ?_⟩
          rw [ending]
      · rw [if_pos (by omega), SameOutcome, ending, eq_comm, written.eq_self_iff]
        by_cases room : dstOff + len.toNat ≤ 8 * dst.length
        · rw [if_pos (Or.inr room)]
          constructor
          · intro same
            exact absurd same.2 (by simp [Except.toOption])
          · intro condition
            rcases condition with less | part | inside | full
            · exact absurd less nothing
            · exact absurd whole part
            · exact absurd inside fits
            · exact absurd room (Nat.not_le.mpr full.1)
        · rw [if_neg (by omega)]
          constructor
          · intro same
            exact Or.inr (Or.inr (Or.inr ⟨by omega, same.1⟩))
          · intro condition
            rcases condition with less | part | inside | full
            · exact absurd less nothing
            · exact absurd whole part
            · exact absurd inside fits
            · exact ⟨full.2, rfl⟩
    · have unequal : ¬(dstOff % 8 = 0 ∧ srcOff % 8 = 0 ∧ len % 8 = 0) := whole
      rw [PythonFast.copyBits, Python.copyBits, if_neg nothing, if_neg nothing, if_neg unequal]
      exact ⟨fun _ => Or.inr (Or.inl whole), fun _ => ⟨rfl, rfl⟩⟩

private theorem slice_eq_extracted_iff {src : Buffer} {srcOff : ℕ} {len : ℤ}
    (srcWhole : srcOff % 8 = 0) (lenWhole : len % 8 = 0)
    (inside : ((srcOff / 8 : ℕ) : ℤ) + len / 8 ≤ src.length) {out : Buffer}
    (length : out.length = Python.byteLengthForBits len)
    (bits : ∀ position < 8 * out.length, bitOf out position =
      (decide (position < len.toNat) && bitOf src (srcOff + position))) :
    src.slice (srcOff / 8) (((srcOff / 8 : ℕ) : ℤ) + len / 8) = out ↔
      0 ≤ (srcOff : ℤ) + len ∨ 8 * (src.length : ℤ) + len ≤ 0 := by
  have outLength := Python.length_extractBits_output len
  rw [← length] at outLength
  rcases Int.lt_or_le len 0 with backward | forward
  · have empty : out = [] := List.length_eq_zero_iff.mp (by omega)
    rw [empty, slice_backward_iff (by omega)]
    omega
  · have count : len / 8 = ((len / 8).toNat : ℕ) := by omega
    rw [count] at inside ⊢
    have taken := @length_slice_within src (srcOff / 8) (len / 8).toNat (by omega)
    have same : src.slice (srcOff / 8) (((srcOff / 8 : ℕ) : ℤ) + ((len / 8).toNat : ℕ)) = out := by
      apply ext_bits (by omega)
      intro position before
      rw [taken] at before
      have place : 8 * (srcOff / 8) + position = srcOff + position := by omega
      have early : position < len.toNat := by omega
      rw [bitOf_slice_within before, bits position (by omega), place, decide_eq_true early,
        Bool.true_and]
    exact ⟨fun _ => Or.inl (by omega), fun _ => same⟩

theorem pythonExtract_same_iff (src : Buffer) (srcOff : ℕ) (len : ℤ) :
    (PythonFast.extractBits src srcOff len).toOption =
        (Python.extractBits src srcOff len).toOption ↔
      ¬(srcOff % 8 = 0 ∧ len % 8 = 0) ∨
        (srcOff + len ≤ 8 * src.length ∧
          (0 ≤ (srcOff : ℤ) + len ∨ 8 * (src.length : ℤ) + len ≤ 0)) := by
  rcases Python.extractBits_spec src srcOff len with ⟨out, extracted, length, bits⟩
  by_cases whole : srcOff % 8 = 0 ∧ len % 8 = 0
  · rw [PythonFast.extractBits, if_pos whole, extracted]
    dsimp only
    by_cases short : (src.length : ℤ) < ((srcOff / 8 : ℕ) : ℤ) + len / 8
    · rw [if_pos short]
      constructor
      · intro same
        exact absurd same (by simp [Except.toOption])
      · intro condition
        omega
    · have within := slice_eq_extracted_iff whole.1 whole.2 (Int.not_lt.mp short) length bits
      rw [if_neg short]
      constructor
      · intro same
        have equal := Option.some.inj same
        exact Or.inr ⟨by omega, within.mp equal⟩
      · intro condition
        rcases condition with part | inside
        · exact absurd whole part
        · rw [within.mpr inside.2]
  · have sameCopy : PythonFast.copyBits (List.replicate (Python.byteLengthForBits len) 0) 0 src
        srcOff len =
        Python.copyBits (List.replicate (Python.byteLengthForBits len) 0) 0 src srcOff len := by
      rw [PythonFast.copyBits, Python.copyBits]
      by_cases nothing : len ≤ 0
      · rw [if_pos nothing, if_pos nothing]
      · rw [if_neg nothing, if_neg nothing, if_neg fun all => whole all.2]
    have same : PythonFast.extractBits src srcOff len = Python.extractBits src srcOff len := by
      rw [PythonFast.extractBits, if_neg whole, Python.extractBits, ← sameCopy]
    exact ⟨fun _ => Or.inl whole, fun _ => by rw [same]⟩

/-! ### TypeScript -/

/-- The portable runtimes of the two scripting languages are one function each. -/
theorem typeScriptCopy_eq_python (dst : Buffer) (dstOff : ℕ) (src : Buffer) (srcOff : ℕ) (len : ℤ) :
    TypeScript.copyBits dst dstOff src srcOff len = Python.copyBits dst dstOff src srcOff len := rfl

theorem typeScriptExtract_eq_python (src : Buffer) (srcOff : ℕ) (len : ℤ) :
    TypeScript.extractBits src srcOff len = Python.extractBits src srcOff len := rfl

/-- Outside the ranges it can move, the fast copy is the portable one. -/
theorem typeScriptCopy_eq (dst : Buffer) (dstOff : ℕ) (src : Buffer) (srcOff : ℕ) (len : ℤ) :
    TypeScript.copyBitsFast dst dstOff src srcOff len =
      TypeScript.copyBits dst dstOff src srcOff len := by
  by_cases nothing : len ≤ 0
  · rw [TypeScript.copyBitsFast, TypeScript.copyBits, if_pos nothing, if_pos nothing]
  · have written := Python.copyBits_written dst dstOff src srcOff len
    have ending := Python.copyBits_ending dst dstOff src srcOff len
    rw [← typeScriptCopy_eq_python] at written ending
    rw [TypeScript.copyBitsFast, if_neg nothing]
    dsimp only
    split_ifs with moves
    · rcases moves with ⟨whole, dstFits, srcFits⟩
      have lenWhole := whole.2.2
      have moved := @splice_slice_written dst src dstOff srcOff len whole (by omega) (by omega)
      rw [if_pos (Or.inr (by omega))] at ending
      exact Prod.ext (moved.unique written) ending.symm
    · rw [TypeScript.copyBits, if_neg nothing]

theorem typeScriptExtract_same_iff (src : Buffer) (srcOff : ℕ) (len : ℤ) :
    TypeScript.extractBitsFast src srcOff len = TypeScript.extractBits src srcOff len ↔
      ¬(srcOff % 8 = 0 ∧ len % 8 = 0) ∨ 8 * (src.length : ℤ) < srcOff + len ∨
        0 ≤ (srcOff : ℤ) + len ∨ 8 * (src.length : ℤ) + len ≤ 0 := by
  rcases Python.extractBits_spec src srcOff len with ⟨out, extracted, length, bits⟩
  rw [TypeScript.extractBitsFast]
  dsimp only
  by_cases moves : (srcOff % 8 = 0 ∧ len % 8 = 0) ∧
      ((srcOff / 8 : ℕ) : ℤ) + len / 8 ≤ (src.length : ℤ)
  · have within := slice_eq_extracted_iff moves.1.1 moves.1.2 moves.2 length bits
    rw [if_pos moves, typeScriptExtract_eq_python, extracted]
    constructor
    · intro same
      exact Or.inr (Or.inr (within.mp (Except.ok.inj same)))
    · intro condition
      rcases condition with part | beyond | ordered
      · exact absurd moves.1 part
      · omega
      · rw [within.mpr ordered]
  · rw [if_neg moves, typeScriptCopy_eq]
    constructor
    · intro _
      by_cases whole : srcOff % 8 = 0 ∧ len % 8 = 0
      · have short : ¬((srcOff / 8 : ℕ) : ℤ) + len / 8 ≤ (src.length : ℤ) := fun inside =>
          moves ⟨whole, inside⟩
        exact Or.inr (Or.inl (by omega))
      · exact Or.inl whole
    · intro _
      rfl

section Rust

variable {w : ℕ}

/-- No sum that the portable loop forms leaves `usize`: it forms one of the source while both
buffers last, and one of the destination while the source has a bit. -/
def SumsCounted (w dstOff count srcOff dstBits srcBits : ℕ) : Prop :=
  ∀ index < count, index ≤ dstBits - dstOff → index ≤ srcBits - srcOff →
    srcOff + index < 2 ^ w ∧ (index < srcBits - srcOff → dstOff + index < 2 ^ w)

def sharedBits (dstOff count srcOff dstBits srcBits : ℕ) : ℕ :=
  min count (min (dstBits - dstOff) (srcBits - srcOff))

private def CountedFrom (w dstOff srcOff dstBits srcBits first remaining : ℕ) : Prop :=
  ∀ index, first ≤ index → index < first + remaining → index ≤ dstBits - dstOff →
    index ≤ srcBits - srcOff →
    srcOff + index < 2 ^ w ∧ (index < srcBits - srcOff → dstOff + index < 2 ^ w)

private theorem sourceBit_eq (src : Buffer) (position : ℕ) :
    ((contents src (position / 8) >>> (position % 8)) &&& 1 != 0) = bitOf src position := by
  rw [bitOf, bitAt]
  generalize contents src (position / 8) = byte
  have inByte : position % 8 < 8 := Nat.mod_lt _ (by decide)
  generalize position % 8 = bit at inByte
  have masked : ((byte >>> bit) &&& 1#8 != 0#8) = (byte >>> bit).getLsbD 0 := by
    have all : ∀ other : Byte, (other &&& 1#8 != 0#8) = other.getLsbD 0 := by decide
    exact all (byte >>> bit)
  exact masked.trans (by rw [BitVec.getLsbD_ushiftRight, Nat.add_zero])

private theorem portableLoop_store {dstOff srcOff remaining first : ℕ} {src dst : Buffer}
    (srcCounted : srcOff + first < 2 ^ w) (srcInside : srcOff + first < 8 * src.length)
    (dstCounted : dstOff + first < 2 ^ w) (dstInside : dstOff + first < 8 * dst.length) :
    Rust.portableLoop w dstOff src srcOff (remaining + 1) first dst =
      Rust.portableLoop w dstOff src srcOff remaining (first + 1)
        (dst.set ((dstOff + first) / 8)
          (withBit (contents dst ((dstOff + first) / 8)) ((dstOff + first) % 8)
            (bitOf src (srcOff + first)))) := by
  have srcSum : Rust.checkedAdd w srcOff first = .ok (srcOff + first) := if_pos srcCounted
  have dstSum : Rust.checkedAdd w dstOff first = .ok (dstOff + first) := if_pos dstCounted
  rw [Rust.portableLoop, srcSum]
  dsimp only
  rw [if_neg (by omega), dstSum]
  dsimp only
  rw [if_neg (by omega), sourceBit_eq]

private theorem portableLoop_written (dstOff : ℕ) (src : Buffer) (srcOff remaining first : ℕ)
    (dst : Buffer) (inDst : first ≤ 8 * dst.length - dstOff)
    (inSrc : first ≤ 8 * src.length - srcOff)
    (counted : CountedFrom w dstOff srcOff (8 * dst.length) (8 * src.length) first remaining) :
    Written dst (dstOff + first)
        (sharedBits dstOff (first + remaining) srcOff (8 * dst.length) (8 * src.length) - first)
        (fun index => bitOf src (srcOff + (first + index)))
        (Rust.portableLoop w dstOff src srcOff remaining first dst).1 ∧
      (Rust.portableLoop w dstOff src srcOff remaining first dst).2 = .ok () := by
  induction remaining generalizing first dst with
  | zero =>
      have none : sharedBits dstOff (first + 0) srcOff (8 * dst.length) (8 * src.length) - first =
          0 := by
        rw [sharedBits]
        omega
      rw [none]
      exact ⟨written_nothing _ _ _, rfl⟩
  | succ remaining ih =>
      have ⟨srcCounted, dstCounted⟩ := counted first (Nat.le_refl _) (by omega) inDst inSrc
      have srcSum : Rust.checkedAdd w srcOff first = .ok (srcOff + first) := if_pos srcCounted
      by_cases srcInside : srcOff + first < 8 * src.length
      · have dstSum : Rust.checkedAdd w dstOff first = .ok (dstOff + first) :=
          if_pos (dstCounted (by omega))
        by_cases dstInside : dstOff + first < 8 * dst.length
        · rw [portableLoop_store srcCounted srcInside (dstCounted (by omega)) dstInside]
          have stored := bitOf_set dst (bitOf src (srcOff + first)) dstInside
          generalize nextIs : dst.set ((dstOff + first) / 8) _ = after at stored ⊢
          have kept : after.length = dst.length := by
            rw [← nextIs, List.length_set]
          have later : CountedFrom w dstOff srcOff (8 * after.length) (8 * src.length) (first + 1)
              remaining := by
            intro index past before
            rw [kept]
            exact counted index (by omega) (by omega)
          have ⟨written, ending⟩ := ih (first + 1) after (by omega) (by omega) later
          refine ⟨⟨written.length.trans kept, ?_⟩, ending⟩
          intro position inBuffer
          rw [written.bit position (by omega), stored, kept]
          have sum : first + 1 + remaining = first + (remaining + 1) := by omega
          have shared : first + 1 ≤
              sharedBits dstOff (first + (remaining + 1)) srcOff (8 * dst.length)
                (8 * src.length) := by
            rw [sharedBits]
            omega
          rw [sum]
          generalize sharedBits dstOff (first + (remaining + 1)) srcOff _ _ = end_ at shared
          by_cases after : dstOff + (first + 1) ≤ position ∧
              position < dstOff + (first + 1) + (end_ - (first + 1))
          · have place : first + 1 + (position - (dstOff + (first + 1))) =
                first + (position - (dstOff + first)) := by omega
            rw [if_pos after, if_pos (by omega), place]
          · rw [if_neg after]
            by_cases here : position = dstOff + first
            · have none : first + (position - (dstOff + first)) = first := by omega
              rw [if_pos here, if_pos (by omega), none]
            · rw [if_neg here, if_neg (by omega)]
        · have none : sharedBits dstOff (first + (remaining + 1)) srcOff (8 * dst.length)
              (8 * src.length) - first = 0 := by
            rw [sharedBits]
            omega
          rw [Rust.portableLoop, srcSum, none]
          dsimp only
          rw [if_neg (by omega), dstSum]
          dsimp only
          rw [if_pos (by omega)]
          exact ⟨written_nothing _ _ _, rfl⟩
      · have none : sharedBits dstOff (first + (remaining + 1)) srcOff (8 * dst.length)
            (8 * src.length) - first = 0 := by
          rw [sharedBits]
          omega
        rw [Rust.portableLoop, srcSum, none]
        dsimp only
        rw [if_pos (by omega)]
        exact ⟨written_nothing _ _ _, rfl⟩

private theorem portableLoop_panics (dstOff : ℕ) (src : Buffer) (srcOff remaining first : ℕ)
    (dst : Buffer) (inDst : first ≤ 8 * dst.length - dstOff)
    (inSrc : first ≤ 8 * src.length - srcOff)
    (overflows :
      ¬CountedFrom w dstOff srcOff (8 * dst.length) (8 * src.length) first remaining) :
    (Rust.portableLoop w dstOff src srcOff remaining first dst).2 = .error Rust.addOverflow := by
  induction remaining generalizing first dst with
  | zero =>
      apply absurd _ overflows
      intro index after before
      omega
  | succ remaining ih =>
      by_cases srcCounted : srcOff + first < 2 ^ w
      · have srcSum : Rust.checkedAdd w srcOff first = .ok (srcOff + first) := if_pos srcCounted
        have srcInside : srcOff + first < 8 * src.length := by
          by_contra outside
          apply overflows
          intro index after before _ inSource
          have only : index = first := by omega
          subst only
          exact ⟨srcCounted, fun more => by omega⟩
        by_cases dstCounted : dstOff + first < 2 ^ w
        · have dstInside : dstOff + first < 8 * dst.length := by
            by_contra outside
            apply overflows
            intro index after before inTarget _
            have only : index = first := by omega
            subst only
            exact ⟨srcCounted, fun _ => dstCounted⟩
          rw [portableLoop_store srcCounted srcInside dstCounted dstInside]
          apply ih
          · rw [List.length_set]
            omega
          · omega
          · rw [List.length_set]
            intro later
            apply overflows
            intro index after before
            rcases Nat.eq_or_lt_of_le after with same | past
            · intro _ _
              rw [← same]
              exact ⟨srcCounted, fun _ => dstCounted⟩
            · exact later index past (by omega)
        · have dstSum : Rust.checkedAdd w dstOff first = .error Rust.addOverflow :=
            if_neg dstCounted
          rw [Rust.portableLoop, srcSum]
          dsimp only
          rw [if_neg (by omega), dstSum]
      · have srcSum : Rust.checkedAdd w srcOff first = .error Rust.addOverflow :=
          if_neg srcCounted
        rw [Rust.portableLoop, srcSum]

theorem chooseMin_eq (a b : ℕ) : Rust.chooseMin a b = min a b := by
  rw [Rust.chooseMin]
  split_ifs
  · omega
  · omega

private theorem union_aligned_iff (wide : 8 ≤ w) (dstOff srcOff length : BitVec w) :
    (dstOff ||| srcOff ||| length) &&& 7 = 0 ↔
      WholeBytes dstOff.toNat srcOff.toNat (length.toNat : ℤ) := by
  have less : 7 < 2 ^ w := Nat.lt_of_lt_of_le (by decide) (Nat.pow_le_pow_right (by decide) wide)
  have seven : (7 : BitVec w).toNat = 7 := (BitVec.toNat_ofNat ..).trans (Nat.mod_eq_of_lt less)
  have zero : (0 : BitVec w).toNat = 0 := BitVec.toNat_zero
  have low (value : ℕ) : value &&& 7 = value % 2 ^ 3 := Nat.and_two_pow_sub_one_eq_mod value 3
  rw [← BitVec.toNat_inj, BitVec.toNat_and, BitVec.toNat_or, BitVec.toNat_or, seven, zero, low,
    Nat.or_mod_two_pow, Nat.or_mod_two_pow, Nat.or_eq_zero_iff, Nat.or_eq_zero_iff, WholeBytes]
  omega

private theorem fastMove_written {dst src : Buffer} {dstOff srcOff length : ℕ}
    (whole : WholeBytes dstOff srcOff (length : ℤ)) (dstInside : dstOff ≤ 8 * dst.length) {count : ℕ}
    (countIs : count = min (length / 8) (min (dst.length - dstOff / 8) (src.length - srcOff / 8))) :
    Written dst dstOff (sharedBits dstOff length srcOff (8 * dst.length) (8 * src.length))
      (sourceBits src srcOff)
      (if 0 < count then splice dst (dstOff / 8) ((src.drop (srcOff / 8)).take count) else dst) := by
  rcases whole with ⟨dstWhole, srcWhole, lengthWhole⟩
  have shared : sharedBits dstOff length srcOff (8 * dst.length) (8 * src.length) = 8 * count := by
    rw [sharedBits]
    omega
  have taken : ((src.drop (srcOff / 8)).take count).length = count := by
    rw [List.length_take, List.length_drop]
    omega
  have start : 8 * (dstOff / 8) = dstOff := by omega
  have written := @splice_written dst (dstOff / 8) ((src.drop (srcOff / 8)).take count) (by omega)
  rw [taken, start] at written
  rw [shared]
  split_ifs with some
  · apply written.congr
    intro index inside
    have place : 8 * (srcOff / 8) + index = srcOff + index := by omega
    rw [bitOf_take_drop src _ _ inside, place, sourceBits]
  · have none : 8 * count = 0 := by omega
    rw [none]
    exact written_nothing _ _ _

theorem rustCopy_same_iff (wide : 8 ≤ w) (dst : Buffer) (dstOff length : BitVec w) (src : Buffer)
    (srcOff : BitVec w) :
    SameOutcome (Rust.copyBitsRuntimeFast dst dstOff length src srcOff)
        (Rust.copyBitsPortable dst dstOff length src srcOff) ↔
      ¬WholeBytes dstOff.toNat srcOff.toNat (length.toNat : ℤ) ∨ 8 * dst.length < dstOff.toNat ∨
        8 * src.length < srcOff.toNat ∨
        SumsCounted w dstOff.toNat length.toNat srcOff.toNat (8 * dst.length) (8 * src.length) := by
  have aligned := union_aligned_iff wide dstOff srcOff length
  by_cases nothing : length = 0
  · have none : length.toNat = 0 := by
      rw [nothing]
      exact BitVec.toNat_zero
    rw [Rust.copyBitsRuntimeFast, if_pos nothing, Rust.copyBitsPortable, none]
    constructor
    · intro _
      refine Or.inr (Or.inr (Or.inr ?_))
      intro index before
      exact absurd before (Nat.not_lt_zero index)
    · intro _
      exact ⟨rfl, rfl⟩
  · rw [Rust.copyBitsRuntimeFast, if_neg nothing]
    dsimp only
    by_cases moves : (dstOff ||| srcOff ||| length) &&& 7 = 0 ∧
        dstOff.toNat / 8 ≤ dst.length ∧ srcOff.toNat / 8 ≤ src.length
    · have whole := aligned.mp moves.1
      have ⟨dstWhole, srcWhole, _⟩ := whole
      have moved := @fastMove_written dst src _ _ _ whole (by omega)
        (Rust.chooseMin (length.toNat / 8) (Rust.chooseMin (dst.length - dstOff.toNat / 8)
          (src.length - srcOff.toNat / 8))) (by rw [chooseMin_eq, chooseMin_eq])
      rw [if_pos moves, ← apply_ite fun result : Buffer => (result, (.ok () : Except String Unit))]
      by_cases counted : SumsCounted w dstOff.toNat length.toNat srcOff.toNat (8 * dst.length)
          (8 * src.length)
      · have all : CountedFrom w dstOff.toNat srcOff.toNat (8 * dst.length) (8 * src.length) 0
            length.toNat := by
          intro index _ before
          exact counted index (by omega)
        have ⟨written, ending⟩ := portableLoop_written dstOff.toNat src srcOff.toNat length.toNat 0
          dst (Nat.zero_le _) (Nat.zero_le _) all
        rw [Nat.add_zero, Nat.zero_add, Nat.sub_zero] at written
        constructor
        · intro _
          exact Or.inr (Or.inr (Or.inr counted))
        · intro _
          constructor
          · apply moved.unique
            apply written.congr
            intro index _
            rw [Nat.zero_add, sourceBits]
          · rw [Rust.copyBitsPortable, ending]
      · have overflows : ¬CountedFrom w dstOff.toNat srcOff.toNat (8 * dst.length)
            (8 * src.length) 0 length.toNat := by
          intro all
          apply counted
          intro index before
          exact all index (Nat.zero_le _) (by omega)
        have panics := portableLoop_panics dstOff.toNat src srcOff.toNat length.toNat 0 dst
          (Nat.zero_le _) (Nat.zero_le _) overflows
        constructor
        · intro same
          have ending := same.2
          rw [Rust.copyBitsPortable, panics] at ending
          exact absurd ending (by simp [Except.toOption])
        · intro condition
          rcases condition with part | dstPast | srcPast | sums
          · exact absurd whole part
          · omega
          · omega
          · exact absurd sums counted
    · rw [if_neg moves]
      constructor
      · intro _
        by_cases whole : WholeBytes dstOff.toNat srcOff.toNat (length.toNat : ℤ)
        · have ⟨dstWhole, srcWhole, _⟩ := whole
          have outside : ¬(dstOff.toNat / 8 ≤ dst.length ∧ srcOff.toNat / 8 ≤ src.length) :=
            fun inside => moves ⟨aligned.mpr whole, inside⟩
          omega
        · exact Or.inl whole
      · intro _
        exact ⟨rfl, rfl⟩

/-- A saturated read never forms a sum outside `usize`, so the two copies read alike. -/
theorem rustGetBits_same (wide : 8 ≤ w) (output buf : Buffer) (off length : BitVec w) :
    SameOutcome (Rust.getBits true output buf off length)
      (Rust.getBits false output buf off length) := by
  rw [Rust.getBits, Rust.getBits, Rust.copyBits, Rust.copyBits, if_pos rfl,
    if_neg Bool.false_ne_true, rustCopy_same_iff wide]
  have satIs : Rust.saturateFragmentBits w buf.length off.toNat length.toNat =
      min length.toNat (min (buf.length * 8) (2 ^ w - 1) - off.toNat) := by
    rw [Rust.saturateFragmentBits, Rust.saturatingMul, chooseMin_eq, chooseMin_eq]
    omega
  have inWord := length.isLt
  have start : (0 : BitVec w).toNat = 0 := BitVec.toNat_zero
  have satNat : (BitVec.ofNat w (Rust.saturateFragmentBits w buf.length off.toNat
      length.toNat)).toNat = Rust.saturateFragmentBits w buf.length off.toNat length.toNat := by
    rw [BitVec.toNat_ofNat, Nat.mod_eq_of_lt (by omega)]
  refine Or.inr (Or.inr (Or.inr ?_))
  intro index before _ _
  rw [satNat] at before
  rw [start]
  omega

end Rust

/-! ### The languages together -/

/-- When the fast runtimes of Python, TypeScript and Rust are interchangeable with the portable
ones, function by function. -/
theorem fast_portable_same_iff {w : ℕ} (wide : 8 ≤ w) :
    (∀ (dst : Buffer) (dstOff : ℕ) (src : Buffer) (srcOff : ℕ) (len : ℤ),
      SameOutcome (PythonFast.copyBits dst dstOff src srcOff len)
          (Python.copyBits dst dstOff src srcOff len) ↔
        len ≤ 0 ∨ ¬WholeBytes dstOff srcOff len ∨
          (dstOff + len.toNat ≤ 8 * dst.length ∧ srcOff + len.toNat ≤ 8 * src.length) ∨
          (8 * dst.length < dstOff + len.toNat ∧
            Already dst dstOff len.toNat (sourceBits src srcOff))) ∧
    (∀ (src : Buffer) (srcOff : ℕ) (len : ℤ),
      (PythonFast.extractBits src srcOff len).toOption =
          (Python.extractBits src srcOff len).toOption ↔
        ¬(srcOff % 8 = 0 ∧ len % 8 = 0) ∨
          (srcOff + len ≤ 8 * src.length ∧
            (0 ≤ (srcOff : ℤ) + len ∨ 8 * (src.length : ℤ) + len ≤ 0))) ∧
    (∀ (dst : Buffer) (dstOff : ℕ) (src : Buffer) (srcOff : ℕ) (len : ℤ),
      TypeScript.copyBitsFast dst dstOff src srcOff len =
        TypeScript.copyBits dst dstOff src srcOff len) ∧
    (∀ (src : Buffer) (srcOff : ℕ) (len : ℤ),
      TypeScript.extractBitsFast src srcOff len = TypeScript.extractBits src srcOff len ↔
        ¬(srcOff % 8 = 0 ∧ len % 8 = 0) ∨ 8 * (src.length : ℤ) < srcOff + len ∨
          0 ≤ (srcOff : ℤ) + len ∨ 8 * (src.length : ℤ) + len ≤ 0) ∧
    (∀ (dst : Buffer) (dstOff length : BitVec w) (src : Buffer) (srcOff : BitVec w),
      SameOutcome (Rust.copyBitsRuntimeFast dst dstOff length src srcOff)
          (Rust.copyBitsPortable dst dstOff length src srcOff) ↔
        ¬WholeBytes dstOff.toNat srcOff.toNat (length.toNat : ℤ) ∨ 8 * dst.length < dstOff.toNat ∨
          8 * src.length < srcOff.toNat ∨
          SumsCounted w dstOff.toNat length.toNat srcOff.toNat (8 * dst.length)
            (8 * src.length)) ∧
    ∀ (output buf : Buffer) (off length : BitVec w),
      SameOutcome (Rust.getBits true output buf off length)
        (Rust.getBits false output buf off length) :=
  ⟨pythonCopy_same_iff, pythonExtract_same_iff, typeScriptCopy_eq, typeScriptExtract_same_iff,
    rustCopy_same_iff wide, rustGetBits_same wide⟩

/-- One byte copied inside both buffers, on a 64-bit machine. -/
theorem fast_portable_same_iff_byte :
    SameOutcome (PythonFast.copyBits [0xFF] 0 [0x5A] 0 8) (Python.copyBits [0xFF] 0 [0x5A] 0 8) ∧
      SameOutcome (Rust.copyBitsRuntimeFast [0xFF] 0#64 8#64 [0x5A] 0#64)
        (Rust.copyBitsPortable [0xFF] 0#64 8#64 [0x5A] 0#64) := by
  have same := @fast_portable_same_iff 64 (by decide)
  constructor
  · exact (same.1 [0xFF] 0 [0x5A] 0 8).mpr (Or.inr (Or.inr (Or.inl (by decide))))
  · apply (same.2.2.2.2.1 [0xFF] 0#64 8#64 [0x5A] 0#64).mpr
    refine Or.inr (Or.inr (Or.inr ?_))
    intro index before _ _
    have short : index < 8 := before
    have start : (0#64).toNat = 0 := rfl
    rw [start, Nat.zero_add]
    have counted : index < 2 ^ 64 := by omega
    exact ⟨counted, fun _ => counted⟩

/-- A source that ends early: the fast Python runtime raises where the portable one reads zeros. -/
theorem short_source_differs :
    ¬SameOutcome (PythonFast.copyBits [0xFF] 0 [] 0 8) (Python.copyBits [0xFF] 0 [] 0 8) ∧
      (PythonFast.extractBits [] 0 8).toOption ≠ (Python.extractBits [] 0 8).toOption := by
  constructor
  · intro same
    exact absurd same.2 (by decide)
  · decide

end LlvmDsdl.Runtime
