import LlvmDsdl.Runtime.FastAgreement
import LlvmDsdl.Runtime.PythonAccelerator

/-!
Contract: `copy_bits` of the CPython accelerator against the pure-Python one.

Owns: when a call of the accelerator has the outcome of the pure call; what the
range checks of the accelerated copy let through; and exactly the copies between
separate buffers on which both raise or both succeed and leave the same bytes, for
any Python length.
-/

namespace LlvmDsdl.Runtime.Accelerator

open LlvmDsdl.Runtime.Buffer

/-- The accelerator's call is defined, and has the outcome of the pure one. -/
def Agrees {α : Type} (accelerated : Option (Outcome α)) (pure : Outcome α) : Prop :=
  ∃ outcome, accelerated = some outcome ∧ SameOutcome outcome pure

theorem toNat_sizeBits (object : Held) : (object.size * 8).toNat = 8 * object.bytes.length := by
  have counted := object.counted
  have eight : (8 : Word).toNat = 8 := rfl
  rw [BitVec.toNat_mul, Held.size, BitVec.toNat_ofNat, eight]
  omega

theorem length_readBack (buffer : Buffer) (memory : Bytes) :
    (readBack buffer memory).length = buffer.length := by
  rw [readBack, List.length_map, List.length_range]

theorem bitOf_readBack (buffer : Buffer) (memory : Bytes) {position : ℕ}
    (inside : position < 8 * buffer.length) :
    bitOf (readBack buffer memory) position = bitAt memory position := by
  have inBuffer : position / 8 < buffer.length := by omega
  rw [bitOf, bitAt, bitAt, contents, List.getD_eq_getElem?_getD, readBack, List.getElem?_map,
    List.getElem?_range inBuffer]
  rfl

/-- A call that moves a run over the memory of an object writes the run. -/
theorem readBack_written {buffer : Buffer} {memory : Bytes} {start count : ℕ} {bits : ℕ → Bool}
    (moved : ∀ position, bitAt memory position =
      if start ≤ position ∧ position < start + count then bits (position - start)
      else bitAt (contents buffer) position) :
    Written buffer start count bits (readBack buffer memory) := by
  refine ⟨length_readBack buffer memory, ?_⟩
  intro position inside
  rw [bitOf_readBack buffer memory inside, moved, bitOf]

theorem readBack_contents (buffer : Buffer) : readBack buffer (contents buffer) = buffer := by
  apply ext_bits (length_readBack buffer _)
  intro position inside
  rw [length_readBack] at inside
  rw [bitOf_readBack buffer _ inside, bitOf]

theorem copySpan_le (dstOff lenBits srcOff : Word) :
    copySpan dstOff lenBits srcOff ≤ lenBits.toNat := by
  rw [copySpan]
  split_ifs
  · exact Nat.le_refl _
  · exact Nat.le_refl _
  · exact Nat.zero_le _

/-- The header's copy over the memory of two objects, where no end wraps. -/
theorem copy_written {dst : Buffer} {dstOff lenBits srcOff : Word} (src : Buffer)
    (safe : SizeT.ByteAligned dstOff srcOff ∨ SizeT.Counted dstOff lenBits srcOff) :
    Written dst dstOff.toNat lenBits.toNat (sourceBits src srcOff.toNat)
      (readBack dst (SizeT.copyBits (contents dst) dstOff lenBits (contents src) srcOff)) := by
  apply readBack_written
  intro position
  exact SizeT.moves_of_safe (by decide) safe (contents dst) (contents src) position

theorem agrees_error_iff {α : Type} {buffer : Buffer} {message : String} {pure : Outcome α} :
    Agrees (some (buffer, .error message)) pure ↔ pure.1 = buffer ∧ pure.2.toOption = none := by
  constructor
  · rintro ⟨outcome, same, left, right⟩
    rw [← Option.some.inj same] at left right
    exact ⟨left.symm, right.symm⟩
  · intro ⟨left, right⟩
    exact ⟨_, rfl, left.symm, right.symm⟩

theorem agrees_ok_iff {α : Type} {buffer : Buffer} {result : α} {pure : Outcome α} :
    Agrees (some (buffer, .ok result)) pure ↔ pure.1 = buffer ∧ pure.2.toOption = some result := by
  constructor
  · rintro ⟨outcome, same, left, right⟩
    rw [← Option.some.inj same] at left right
    exact ⟨left.symm, right.symm⟩
  · intro ⟨left, right⟩
    exact ⟨_, rfl, left.symm, right.symm⟩

theorem not_agrees_none {α : Type} {pure : Outcome α} : ¬Agrees none pure := by
  rintro ⟨outcome, same, _⟩
  exact absurd same (by simp)

/-- The length a caller passes, modulo `2 ^ 64`: the argument parser masks it. -/
def lengthWord (lenBits : ℤ) : ℕ := (lenBits % 2 ^ 64).toNat

theorem toNat_mask_length (lenBits : ℤ) :
    (asUnsignedLongLongMask lenBits).toNat = lengthWord lenBits := by
  rw [asUnsignedLongLongMask, BitVec.toNat_ofInt, lengthWord]
  rfl

theorem add_lengthWord_mod {lenBits : ℤ} (counted : 0 ≤ lenBits) (off : ℕ) :
    (off + lengthWord lenBits) % 2 ^ 64 = (off + lenBits.toNat) % 2 ^ 64 := by
  rw [lengthWord]
  omega

/-- The end of the source wraps to one inside it and the offsets do not both stand on a byte: the
checks pass, and the copy moves nothing. -/
def WrapsToNothing (dstOff srcBytes srcOff count : ℕ) : Prop :=
  ¬(srcOff % 8 = 0 ∧ dstOff % 8 = 0) ∧ 2 ^ 64 ≤ srcOff + count ∧
    srcOff + count - 2 ^ 64 ≤ 8 * srcBytes

/-- When two copies between separate buffers agree. -/
def CopyCondition (dst : Buffer) (dstOff : ℕ) (src : Buffer) (srcOff : ℕ) (lenBits : ℤ) : Prop :=
  let count := lenBits.toNat
  let word := lengthWord lenBits
  if lenBits < 0 ∧ word ≠ 0 then
    -- the pure runtime copies nothing
    (dstOff + word ≤ 8 * dst.length ∧ srcOff + word ≤ 8 * src.length ∧
        Already dst dstOff word (sourceBits src srcOff)) ∨
      ((dstOff + word) % 2 ^ 64 ≤ 8 * dst.length ∧ WrapsToNothing dstOff src.length srcOff word)
  else if count = 0 then dstOff ≤ 8 * dst.length ∧ srcOff ≤ 8 * src.length
  else if dstOff + count ≤ 8 * dst.length then
    srcOff + count ≤ 8 * src.length ∨
      (WrapsToNothing dstOff src.length srcOff count ∧
        Already dst dstOff count (sourceBits src srcOff))
  else
    (8 * dst.length < (dstOff + count) % 2 ^ 64 ∨ 8 * src.length < (srcOff + count) % 2 ^ 64) ∧
      Already dst dstOff count (sourceBits src srcOff)

section Checks

variable (dst : Held) (dstOff : Word) (src : Held) (srcOff lenBits : Word)

/-- The four ways through the checks: refused; copied inside both buffers; passed, with nothing to
move; and passed, with a copy that leaves a buffer. -/
theorem copyBits_cases :
    ((8 * dst.bytes.length < (dstOff.toNat + lenBits.toNat) % 2 ^ 64 ∨
          8 * src.bytes.length < (srcOff.toNat + lenBits.toNat) % 2 ^ 64) ∧
        ∃ message, copyBits dst dstOff src srcOff lenBits = some (dst.bytes, .error message)) ∨
      (dstOff.toNat + lenBits.toNat ≤ 8 * dst.bytes.length ∧
        srcOff.toNat + lenBits.toNat ≤ 8 * src.bytes.length ∧
        ∃ copied, copyBits dst dstOff src srcOff lenBits = some (copied, .ok ()) ∧
          Written dst.bytes dstOff.toNat lenBits.toNat (sourceBits src.bytes srcOff.toNat)
            copied) ∨
      (lenBits.toNat ≠ 0 ∧ (dstOff.toNat + lenBits.toNat) % 2 ^ 64 ≤ 8 * dst.bytes.length ∧
        WrapsToNothing dstOff.toNat src.bytes.length srcOff.toNat lenBits.toNat ∧
        copyBits dst dstOff src srcOff lenBits = some (dst.bytes, .ok ())) ∨
      (lenBits.toNat ≠ 0 ∧ (dstOff.toNat + lenBits.toNat) % 2 ^ 64 ≤ 8 * dst.bytes.length ∧
        (srcOff.toNat + lenBits.toNat) % 2 ^ 64 ≤ 8 * src.bytes.length ∧
        ¬(dstOff.toNat + lenBits.toNat ≤ 8 * dst.bytes.length ∧
          srcOff.toNat + lenBits.toNat ≤ 8 * src.bytes.length) ∧
        ¬WrapsToNothing dstOff.toNat src.bytes.length srcOff.toNat lenBits.toNat ∧
        copyBits dst dstOff src srcOff lenBits = none) := by
  have dstCounted := dst.counted
  have srcCounted := src.counted
  have dstBits := toNat_sizeBits dst
  have srcBits := toNat_sizeBits src
  have dstWord := dstOff.isLt
  have srcWord := srcOff.isLt
  have lenWord := lenBits.isLt
  rw [copyBits]
  dsimp only
  by_cases dstPast : dst.size * 8 < dstOff + lenBits
  · have past := BitVec.lt_def.mp dstPast
    rw [dstBits, BitVec.toNat_add] at past
    rw [if_pos dstPast]
    exact Or.inl ⟨Or.inl past, _, rfl⟩
  by_cases srcPast : src.size * 8 < srcOff + lenBits
  · have past := BitVec.lt_def.mp srcPast
    rw [srcBits, BitVec.toNat_add] at past
    rw [if_neg dstPast, if_pos srcPast]
    exact Or.inl ⟨Or.inr past, _, rfl⟩
  rw [if_neg dstPast, if_neg srcPast]
  rw [BitVec.lt_def, dstBits, BitVec.toNat_add] at dstPast
  rw [BitVec.lt_def, srcBits, BitVec.toNat_add] at srcPast
  by_cases fits : dstOff.toNat + lenBits.toNat ≤ 8 * dst.bytes.length ∧
      srcOff.toNat + lenBits.toNat ≤ 8 * src.bytes.length
  · have short := copySpan_le dstOff lenBits srcOff
    have within : InBounds dst.bytes.length dstOff lenBits src.bytes.length srcOff :=
      Or.inr ⟨by omega, by omega⟩
    rw [if_pos within]
    exact Or.inr (Or.inl ⟨fits.1, fits.2, _, rfl,
      copy_written src.bytes (Or.inr ⟨by omega, by omega⟩)⟩)
  · have some : lenBits.toNat ≠ 0 := by omega
    by_cases wraps : WrapsToNothing dstOff.toNat src.bytes.length srcOff.toNat lenBits.toNat
    · have ⟨unaligned, past, _⟩ := wraps
      have still : InBounds dst.bytes.length dstOff lenBits src.bytes.length srcOff := by
        apply Or.inl
        rw [copySpan, if_neg unaligned, if_neg (by omega)]
      rw [if_pos still, SizeT.copyBits, if_neg unaligned, SizeT.copyLoop_of_wrapped _ _ past,
        readBack_contents]
      exact Or.inr (Or.inr (Or.inl ⟨some, by omega, wraps, rfl⟩))
    · have beyond : ¬InBounds dst.bytes.length dstOff lenBits src.bytes.length srcOff := by
        have span : copySpan dstOff lenBits srcOff = lenBits.toNat := by
          rw [copySpan]
          split_ifs with aligned counted
          · rfl
          · rfl
          · exact absurd ⟨aligned, by omega, by omega⟩ wraps
        rw [InBounds, span]
        omega
      rw [if_neg beyond]
      exact Or.inr (Or.inr (Or.inr ⟨some, by omega, by omega, fits, wraps, rfl⟩))

variable {dst dstOff src srcOff lenBits} {pure : Outcome Unit}

/-- Against a pure copy of nothing, the accelerated copy has to change nothing. -/
theorem agrees_idle_iff (kept : pure.1 = dst.bytes) (ending : pure.2 = .ok ()) :
    Agrees (copyBits dst dstOff src srcOff lenBits) pure ↔
      (dstOff.toNat + lenBits.toNat ≤ 8 * dst.bytes.length ∧
          srcOff.toNat + lenBits.toNat ≤ 8 * src.bytes.length ∧
          Already dst.bytes dstOff.toNat lenBits.toNat (sourceBits src.bytes srcOff.toNat)) ∨
        ((dstOff.toNat + lenBits.toNat) % 2 ^ 64 ≤ 8 * dst.bytes.length ∧
          WrapsToNothing dstOff.toNat src.bytes.length srcOff.toNat lenBits.toNat) := by
  have dstCounted := dst.counted
  have srcCounted := src.counted
  have srcWord := srcOff.isLt
  have lenWord := lenBits.isLt
  rcases copyBits_cases dst dstOff src srcOff lenBits with
    ⟨refused, message, call⟩ | ⟨dstFits, srcFits, copied, call, written⟩ |
      ⟨_, dstInside, wraps, call⟩ | ⟨_, dstInside, srcInside, leaves, moves, call⟩
  · rw [call, agrees_error_iff, ending]
    constructor
    · rintro ⟨_, raised⟩
      exact absurd raised (by simp [Except.toOption])
    · rintro (⟨dstFits, srcFits, _⟩ | ⟨dstInside, _, wraps, srcInside⟩)
      · omega
      · omega
  · rw [call, agrees_ok_iff, ending, kept, eq_comm, written.eq_self_iff]
    constructor
    · rintro ⟨already, _⟩
      exact Or.inl ⟨dstFits, srcFits, already⟩
    · rintro (⟨_, _, already⟩ | ⟨_, _, wraps, _⟩)
      · exact ⟨already, rfl⟩
      · omega
  · rw [call, agrees_ok_iff, ending, kept]
    exact ⟨fun _ => Or.inr ⟨dstInside, wraps⟩, fun _ => ⟨rfl, rfl⟩⟩
  · rw [call]
    constructor
    · intro agrees
      exact absurd agrees not_agrees_none
    · rintro (⟨dstFits, srcFits, _⟩ | ⟨_, wraps⟩)
      · exact absurd ⟨dstFits, srcFits⟩ leaves
      · exact absurd wraps moves

theorem agrees_fitting_iff (fits : dstOff.toNat + lenBits.toNat ≤ 8 * dst.bytes.length)
    (written : Written dst.bytes dstOff.toNat lenBits.toNat (sourceBits src.bytes srcOff.toNat)
      pure.1)
    (ending : pure.2 = .ok ()) :
    Agrees (copyBits dst dstOff src srcOff lenBits) pure ↔
      srcOff.toNat + lenBits.toNat ≤ 8 * src.bytes.length ∨
        (WrapsToNothing dstOff.toNat src.bytes.length srcOff.toNat lenBits.toNat ∧
          Already dst.bytes dstOff.toNat lenBits.toNat (sourceBits src.bytes srcOff.toNat)) := by
  have dstCounted := dst.counted
  have srcCounted := src.counted
  have srcWord := srcOff.isLt
  have lenWord := lenBits.isLt
  rcases copyBits_cases dst dstOff src srcOff lenBits with
    ⟨refused, message, call⟩ | ⟨_, srcFits, copied, call, same⟩ | ⟨_, _, wraps, call⟩ |
      ⟨_, _, _, leaves, moves, call⟩
  · rw [call, agrees_error_iff, ending]
    constructor
    · rintro ⟨_, raised⟩
      exact absurd raised (by simp [Except.toOption])
    · rintro (srcFits | ⟨⟨_, wraps, srcInside⟩, _⟩)
      · omega
      · omega
  · rw [call, agrees_ok_iff, ending]
    exact ⟨fun _ => Or.inl srcFits, fun _ => ⟨written.unique same, rfl⟩⟩
  · rw [call, agrees_ok_iff, ending, written.eq_self_iff]
    constructor
    · rintro ⟨already, _⟩
      exact Or.inr ⟨wraps, already⟩
    · rintro (srcFits | ⟨_, already⟩)
      · have := wraps.2.1
        omega
      · exact ⟨already, rfl⟩
  · rw [call]
    constructor
    · intro agrees
      exact absurd agrees not_agrees_none
    · rintro (srcFits | ⟨wraps, _⟩)
      · exact absurd ⟨fits, srcFits⟩ leaves
      · exact absurd wraps moves

/-- Against a pure copy that raises, the accelerated copy has to be refused. -/
theorem agrees_raising_iff {already : Prop} {message : String}
    (unchanged : pure.1 = dst.bytes ↔ already) (ending : pure.2 = .error message) :
    Agrees (copyBits dst dstOff src srcOff lenBits) pure ↔
      (8 * dst.bytes.length < (dstOff.toNat + lenBits.toNat) % 2 ^ 64 ∨
        8 * src.bytes.length < (srcOff.toNat + lenBits.toNat) % 2 ^ 64) ∧ already := by
  have succeeds (copied : Buffer) : ¬Agrees (some (copied, .ok ())) pure := by
    rw [agrees_ok_iff, ending]
    rintro ⟨_, raised⟩
    exact absurd raised (by simp [Except.toOption])
  have dstCounted := dst.counted
  have srcCounted := src.counted
  have srcWord := srcOff.isLt
  have lenWord := lenBits.isLt
  rcases copyBits_cases dst dstOff src srcOff lenBits with
    ⟨refused, _, call⟩ | ⟨dstFits, srcFits, copied, call, _⟩ |
      ⟨_, dstInside, ⟨_, wraps, srcInside⟩, call⟩ | ⟨_, dstInside, srcInside, _, _, call⟩
  · rw [call, agrees_error_iff, ending, unchanged]
    exact ⟨fun same => ⟨refused, same.1⟩, fun same => ⟨same.2, rfl⟩⟩
  · rw [call]
    exact ⟨fun agrees => absurd agrees (succeeds _), fun same => by omega⟩
  · rw [call]
    exact ⟨fun agrees => absurd agrees (succeeds _), fun same => by omega⟩
  · rw [call]
    exact ⟨fun agrees => absurd agrees not_agrees_none, fun same => by omega⟩

end Checks

theorem copyBits_agrees_iff (dst : Held) (dstOff : Word) (src : Held) (srcOff : Word)
    (lenBits : ℤ) :
    Agrees (copyBits dst dstOff src srcOff (asUnsignedLongLongMask lenBits))
        (Python.copyBits dst.bytes dstOff.toNat src.bytes srcOff.toNat lenBits) ↔
      CopyCondition dst.bytes dstOff.toNat src.bytes srcOff.toNat lenBits := by
  have word := toNat_mask_length lenBits
  have written : Written dst.bytes dstOff.toNat lenBits.toNat (sourceBits src.bytes srcOff.toNat) _ :=
    Python.copyBits_written dst.bytes dstOff.toNat src.bytes srcOff.toNat lenBits
  have ending := Python.copyBits_ending dst.bytes dstOff.toNat src.bytes srcOff.toNat lenBits
  have dstCounted := dst.counted
  rw [CopyCondition, ← word]
  by_cases none : lenBits.toNat = 0
  · have kept : (Python.copyBits dst.bytes dstOff.toNat src.bytes srcOff.toNat lenBits).1 =
        dst.bytes := by
      rw [none] at written
      exact written.unique (written_nothing _ _ _)
    rw [if_pos (Or.inl none)] at ending
    rw [agrees_idle_iff kept ending]
    by_cases negative : lenBits < 0 ∧ (asUnsignedLongLongMask lenBits).toNat ≠ 0
    · rw [if_pos negative]
    · have zero : (asUnsignedLongLongMask lenBits).toNat = 0 := by
        rw [word, lengthWord] at negative ⊢
        omega
      rw [if_neg negative, if_pos none, zero, Nat.add_zero, Nat.add_zero]
      constructor
      · rintro (⟨dstFits, srcFits, _⟩ | ⟨_, _, wraps, _⟩)
        · exact ⟨dstFits, srcFits⟩
        · have srcWord := srcOff.isLt
          omega
      · rintro ⟨dstFits, srcFits⟩
        refine Or.inl ⟨dstFits, srcFits, ?_⟩
        intro position _ after before
        omega
  · rw [if_neg (by omega), if_neg none]
    by_cases fits : dstOff.toNat + lenBits.toNat ≤ 8 * dst.bytes.length
    · have count : lenBits.toNat = (asUnsignedLongLongMask lenBits).toNat := by
        rw [word, lengthWord]
        omega
      rw [if_pos fits]
      rw [if_pos (Or.inr fits)] at ending
      rw [count] at fits written ⊢
      exact agrees_fitting_iff fits written ending
    · rw [if_neg (by omega)] at ending
      rw [if_neg fits, agrees_raising_iff written.eq_self_iff ending, word,
        add_lengthWord_mod (by omega), add_lengthWord_mod (by omega)]

end LlvmDsdl.Runtime.Accelerator
