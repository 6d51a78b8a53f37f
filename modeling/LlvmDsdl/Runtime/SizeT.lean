import LlvmDsdl.Library.Loop
import LlvmDsdl.Runtime.CopyBits

/-!
Contract: the runtime header on a target whose `size_t` has any width.

Owns: the header's transfer and integer primitives with every offset and length a
word of that width, wrapping as `size_t` does, and each result in its own type;
exactly when the transfer moves the run it is asked for; and that a saturated
fragment never wraps.

The pieces of the copy and their masks are those of `CopyBits`.
-/

namespace LlvmDsdl.Runtime.SizeT

open LlvmDsdl.Library.Loop

variable {w : ℕ}

/-- C gives `size_t` sixteen bits at least; eight let the constants of the header fit. -/
theorem two_pow_wide (wide : 8 ≤ w) : ∃ unit, 0 < unit ∧ 2 ^ w = 256 * unit := by
  refine ⟨2 ^ (w - 8), Nat.two_pow_pos _, ?_⟩
  have split : w = 8 + (w - 8) := by omega
  calc 2 ^ w = 2 ^ (8 + (w - 8)) := by rw [← split]
    _ = 256 * 2 ^ (w - 8) := Nat.pow_add 2 8 (w - 8)

theorem toNat_small (wide : 8 ≤ w) {value : ℕ} (small : value < 256) :
    (BitVec.ofNat w value).toNat = value := by
  have ⟨unit, positive, whole⟩ := two_pow_wide wide
  rw [BitVec.toNat_ofNat]
  apply Nat.mod_eq_of_lt
  omega

theorem toNat_div_eight (wide : 8 ≤ w) (value : BitVec w) : (value / 8).toNat = value.toNat / 8 := by
  have eight : (8 : BitVec w).toNat = 8 := toNat_small wide (by decide)
  rw [BitVec.toNat_udiv, eight]

theorem toNat_mod_eight (wide : 8 ≤ w) (value : BitVec w) : (value % 8).toNat = value.toNat % 8 := by
  have eight : (8 : BitVec w).toNat = 8 := toNat_small wide (by decide)
  rw [BitVec.toNat_umod, eight]

theorem ofNat_of_toNat (value : BitVec w) {number : ℕ} (same : value.toNat = number) :
    BitVec.ofNat w number = value := by
  rw [← same, BitVec.ofNat_toNat, BitVec.setWidth_eq]

def chooseMin (a b : BitVec w) : BitVec w :=
  if a < b then a else b

def saturateFragmentBits (bufferSizeBytes fragmentOffsetBits fragmentLengthBits : BitVec w) :
    BitVec w :=
  let sizeBits := bufferSizeBytes * 8
  let tailBits := sizeBits - chooseMin sizeBits fragmentOffsetBits
  chooseMin fragmentLengthBits tailBits

theorem toNat_chooseMin (a b : BitVec w) : (chooseMin a b).toNat = min a.toNat b.toNat := by
  rw [chooseMin]
  by_cases less : a < b
  · rw [if_pos less]
    have := BitVec.lt_def.mp less
    omega
  · rw [if_neg less]
    have := BitVec.le_def.mp (BitVec.not_lt.mp less)
    omega

/-- What is left of the fragment, with the bits of the buffer counted modulo the word. -/
theorem toNat_saturateFragmentBits (size offset length : BitVec w) :
    (saturateFragmentBits size offset length).toNat =
      min length.toNat ((size * 8).toNat - offset.toNat) := by
  have bounded := toNat_chooseMin (size * 8) offset
  have below : chooseMin (size * 8) offset ≤ size * 8 := BitVec.le_def.mpr (by omega)
  rw [saturateFragmentBits, toNat_chooseMin, BitVec.toNat_sub_of_le below, bounded]
  omega

/-- C's way back from the complement of a negative value is the value. -/
theorem neg_not_sub_one {bits : ℕ} (value : BitVec bits) : -~~~value - 1 = value := by
  rw [BitVec.neg_eq_not_add, BitVec.not_not]
  exact BitVec.add_sub_cancel value 1

/-- The copy between two turns of its loop. -/
structure CopyState (w : ℕ) where
  dst : Bytes
  dstOff : BitVec w
  srcOff : BitVec w

/-- One piece, up to the end of the nearer of the two bytes. -/
def copyTurn (src : Bytes) (lastBit : BitVec w) (state : CopyState w) : CopyState w :=
  let srcMod := state.srcOff.toNat % 8
  let dstMod := state.dstOff.toNat % 8
  let maxMod := max srcMod dstMod
  let size := min (8 - maxMod) (lastBit - state.srcOff).toNat
  let mask := maskOf size dstMod
  let input := (src (state.srcOff.toNat / 8) >>> srcMod) <<< dstMod
  let a := state.dst (state.dstOff.toNat / 8) &&& ~~~mask
  let b := input &&& mask
  { dst := Function.update state.dst (state.dstOff.toNat / 8) (a ||| b)
    dstOff := state.dstOff + BitVec.ofNat w size
    srcOff := state.srcOff + BitVec.ofNat w size }

/-- The loop for offsets that do not both stand on a byte; each turn takes at least one bit. -/
def copyLoop (dst : Bytes) (dstOffsetBits lengthBits : BitVec w) (src : Bytes)
    (srcOffsetBits : BitVec w) : CopyState w :=
  let lastBit := srcOffsetBits + lengthBits
  whileLoop (fun state => decide (state.srcOff < lastBit)) (copyTurn src lastBit)
    lengthBits.toNat { dst := dst, dstOff := dstOffsetBits, srcOff := srcOffsetBits }

def copyBits (dst : Bytes) (dstOffsetBits lengthBits : BitVec w) (src : Bytes)
    (srcOffsetBits : BitVec w) : Bytes :=
  if srcOffsetBits.toNat % 8 = 0 ∧ dstOffsetBits.toNat % 8 = 0 then
    copyAligned dst dstOffsetBits.toNat lengthBits.toNat src srcOffsetBits.toNat
  else (copyLoop dst dstOffsetBits lengthBits src srcOffsetBits).dst

/-- The two ends of the run are counted by `size_t`; the destination's may be the first that is
not. -/
def Counted (dstOffsetBits lengthBits srcOffsetBits : BitVec w) : Prop :=
  srcOffsetBits.toNat + lengthBits.toNat < 2 ^ w ∧
    dstOffsetBits.toNat + lengthBits.toNat ≤ 2 ^ w

def ByteAligned (dstOffsetBits srcOffsetBits : BitVec w) : Prop :=
  srcOffsetBits.toNat % 8 = 0 ∧ dstOffsetBits.toNat % 8 = 0

/-- The bit-by-bit meaning of the copy. -/
def Moves (copy : Bytes → Bytes → Bytes) (dstOffset length srcOffset : ℕ) : Prop :=
  ∀ dst src position, bitAt (copy dst src) position =
    if dstOffset ≤ position ∧ position < dstOffset + length then
      bitAt src (srcOffset + (position - dstOffset))
    else bitAt dst position

private theorem loop_eq_copyPieces (wide : 8 ≤ w) (src : Bytes) (lastBit : BitVec w) (fuel : ℕ)
    (dst : Bytes) (dstOff srcOff : BitVec w)
    (counted : dstOff.toNat + (lastBit.toNat - srcOff.toNat) ≤ 2 ^ w) :
    (whileLoop (fun state => decide (state.srcOff < lastBit)) (copyTurn src lastBit) fuel
        { dst := dst, dstOff := dstOff, srcOff := srcOff }).dst =
      copyPieces fuel dst dstOff.toNat src srcOff.toNat lastBit.toNat := by
  induction fuel generalizing dst dstOff srcOff with
  | zero => rfl
  | succ fuel ih =>
      have ⟨unit, positive, whole⟩ := two_pow_wide wide
      rw [whileLoop, copyPieces]
      by_cases more : srcOff < lastBit
      · have before := BitVec.lt_def.mp more
        have inWord := lastBit.isLt
        have rest : (lastBit - srcOff).toNat = lastBit.toNat - srcOff.toNat :=
          BitVec.toNat_sub_of_le (BitVec.le_def.mpr (by omega))
        rw [if_pos (decide_eq_true more), if_pos before]
        simp only [copyTurn, rest]
        generalize sizeIs : min (8 - max (srcOff.toNat % 8) (dstOff.toNat % 8))
          (lastBit.toNat - srcOff.toNat) = size
        have sizeNat : (BitVec.ofNat w size).toNat = size := toNat_small wide (by omega)
        have srcNext : (srcOff + BitVec.ofNat w size).toNat = srcOff.toNat + size := by
          rw [BitVec.toNat_add, sizeNat]
          apply Nat.mod_eq_of_lt
          omega
        by_cases ends : srcOff.toNat + size = lastBit.toNat
        · have stops : ¬srcOff + BitVec.ofNat w size < lastBit := by
            rw [BitVec.lt_def, srcNext]
            omega
          rw [whileLoop_of_false fuel (by exact decide_eq_false stops), ends]
          cases fuel with
          | zero => rfl
          | succ fuel => rw [copyPieces, if_neg (Nat.lt_irrefl _)]
        · have dstNext : (dstOff + BitVec.ofNat w size).toNat = dstOff.toNat + size := by
            rw [BitVec.toNat_add, sizeNat]
            apply Nat.mod_eq_of_lt
            omega
          rw [ih _ _ _ (by rw [dstNext, srcNext]; omega), dstNext, srcNext]
      · have after : ¬srcOff.toNat < lastBit.toNat := fun less => more (BitVec.lt_def.mpr less)
        rw [if_neg (by simpa using more), if_neg after]

theorem copyBits_eq (wide : 8 ≤ w) (dst : Bytes) {dstOff length : BitVec w} (src : Bytes)
    {srcOff : BitVec w} (safe : ByteAligned dstOff srcOff ∨ Counted dstOff length srcOff) :
    copyBits dst dstOff length src srcOff =
      Runtime.copyBits dst dstOff.toNat length.toNat src srcOff.toNat := by
  rw [copyBits, Runtime.copyBits]
  by_cases aligned : srcOff.toNat % 8 = 0 ∧ dstOff.toNat % 8 = 0
  · rw [if_pos aligned, if_pos aligned]
  · rcases safe.resolve_left aligned with ⟨srcEnd, dstEnd⟩
    have last : (srcOff + length).toNat = srcOff.toNat + length.toNat := by
      rw [BitVec.toNat_add, Nat.mod_eq_of_lt srcEnd]
    rw [if_neg aligned, if_neg aligned, copyLoop, loop_eq_copyPieces wide src _ _ dst dstOff srcOff (by omega), last]

theorem moves_of_safe (wide : 8 ≤ w) {dstOff length srcOff : BitVec w}
    (safe : ByteAligned dstOff srcOff ∨ Counted dstOff length srcOff) :
    Moves (fun dst src => copyBits dst dstOff length src srcOff) dstOff.toNat length.toNat
      srcOff.toNat := by
  intro dst src position
  dsimp only
  rw [copyBits_eq wide dst src safe, bitAt_copyBits]

/-- An end of the source that wraps stands before its start, so nothing is copied. -/
theorem copyLoop_of_wrapped (dst src : Bytes) {dstOff length srcOff : BitVec w}
    (wraps : 2 ^ w ≤ srcOff.toNat + length.toNat) :
    (copyLoop dst dstOff length src srcOff).dst = dst := by
  have := srcOff.isLt
  have := length.isLt
  have wrapped : (srcOff + length).toNat = srcOff.toNat + length.toNat - 2 ^ w := by
    rw [BitVec.toNat_add, Nat.mod_eq_sub_mod wraps]
    apply Nat.mod_eq_of_lt
    omega
  have stops : ¬srcOff < srcOff + length := by
    rw [BitVec.lt_def, wrapped]
    omega
  rw [copyLoop, whileLoop_of_false _ (by exact decide_eq_false stops)]

private theorem bitAt_copyLoop_beyond (wide : 8 ≤ w) (dst src : Bytes)
    (dstOff length srcOff : BitVec w) {position : ℕ} (beyond : 2 ^ w ≤ position) :
    bitAt (copyLoop dst dstOff length src srcOff).dst position = bitAt dst position := by
  have ⟨unit, positive, whole⟩ := two_pow_wide wide
  rw [copyLoop]
  apply @whileLoop_keeps _ _ _ fun state : CopyState w => bitAt state.dst position = bitAt dst position
  · intro state same _
    have inWord := state.dstOff.isLt
    simp only [copyTurn]
    rw [bitAt_update, if_neg (by omega), same]
  · rfl

/-- The copy moves the run it is asked for, for all memory, exactly when both offsets stand on a
byte or neither end of the run wraps. -/
theorem moves_iff (wide : 8 ≤ w) (dstOff length srcOff : BitVec w) :
    Moves (fun dst src => copyBits dst dstOff length src srcOff) dstOff.toNat length.toNat
        srcOff.toNat ↔
      ByteAligned dstOff srcOff ∨ Counted dstOff length srcOff := by
  constructor
  · intro moves
    by_contra unsafeRun
    rw [not_or] at unsafeRun
    have unaligned : ¬(srcOff.toNat % 8 = 0 ∧ dstOff.toNat % 8 = 0) := unsafeRun.1
    have ones (position : ℕ) : bitAt (fun _ => (255 : Byte)) position = true := by
      have inByte : position % 8 < 8 := Nat.mod_lt _ (by decide)
      rw [bitAt]
      generalize position % 8 = bit at inByte
      revert bit
      decide
    have zeros (position : ℕ) : bitAt (fun _ => (0 : Byte)) position = false := by
      rw [bitAt]
      exact BitVec.getLsbD_zero
    have := srcOff.isLt
    have := dstOff.isLt
    by_cases srcEnd : srcOff.toNat + length.toNat < 2 ^ w
    · have dstEnd : ¬dstOff.toNat + length.toNat ≤ 2 ^ w := fun ends =>
        unsafeRun.2 ⟨srcEnd, ends⟩
      have last := moves (fun _ => 0) (fun _ => 255) (dstOff.toNat + length.toNat - 1)
      dsimp only at last
      rw [if_pos (by omega), ones, copyBits, if_neg unaligned,
        bitAt_copyLoop_beyond wide _ _ _ _ _ (by omega), zeros] at last
      exact Bool.false_ne_true last
    · have first := moves (fun _ => 0) (fun _ => 255) dstOff.toNat
      dsimp only at first
      rw [if_pos (by omega), ones, copyBits, if_neg unaligned,
        copyLoop_of_wrapped _ _ (by omega), zeros] at first
      exact Bool.false_ne_true first
  · exact moves_of_safe wide

/-- A saturated fragment, copied to the start of a buffer, wraps at neither end. -/
theorem counted_saturated (size offset length : BitVec w) :
    Counted 0 (saturateFragmentBits size offset length) offset := by
  have := (size * 8).isLt
  have := offset.isLt
  have saturated := toNat_saturateFragmentBits size offset length
  have start : (0 : BitVec w).toNat = 0 := BitVec.toNat_zero
  constructor
  · omega
  · omega

def getBits (output buf : Bytes) (bufSizeBytes offBits lenBits : BitVec w) : Bytes :=
  let satBits := saturateFragmentBits bufSizeBytes offBits lenBits
  let cleared := memset output (satBits.toNat / 8) 0
    ((lenBits + 7) / 8 - BitVec.ofNat w (satBits.toNat / 8)).toNat
  copyBits cleared 0 satBits buf offBits

/-- `-DSDL_RUNTIME_ERROR_SERIALIZATION_BUFFER_TOO_SMALL` as the function returns it. -/
def bufferTooSmall : BitVec 8 := -3#8

/-- The bytes of the temporary, least significant first. -/
def bytesOf (value : BitVec 64) : Bytes := fun index => (value >>> (8 * index)).setWidth 8

def setUxx (buf : Bytes) (bufSizeBytes offBits : BitVec w) (value : BitVec 64)
    (lenBits : BitVec 8) : Bytes × BitVec 8 :=
  if bufSizeBytes * 8 < offBits + lenBits.setWidth w then (buf, bufferTooSmall)
  else
    let saturatedLenBits := chooseMin (lenBits.setWidth w) 64
    (copyBits buf offBits saturatedLenBits (bytesOf value) 0, 0)

def setIxx (buf : Bytes) (bufSizeBytes offBits : BitVec w) (value : BitVec 64)
    (lenBits : BitVec 8) : Bytes × BitVec 8 :=
  setUxx buf bufSizeBytes offBits value lenBits

/-- The bytes of the temporary as one integer of `holder` bits. -/
def littleEndian (holder : ℕ) (bytes : Bytes) : ℕ → BitVec holder
  | 0 => 0
  | count + 1 =>
      littleEndian holder bytes count ||| (bytes count).setWidth holder <<< (8 * count)

theorem getLsbD_littleEndian (holder : ℕ) (bytes : Bytes) (count bit : ℕ) :
    (littleEndian holder bytes count).getLsbD bit =
      (decide (bit < holder) && (decide (bit < 8 * count) && bitAt bytes bit)) :=
  getLsbD_joined rfl (fun _ => rfl) count bit

def getUnsigned (holder : ℕ) (buf : Bytes) (bufSizeBytes offBits : BitVec w)
    (lenBits : BitVec 8) : BitVec holder :=
  let bits := saturateFragmentBits bufSizeBytes offBits
    (chooseMin (lenBits.setWidth w) (BitVec.ofNat w holder))
  littleEndian holder (copyBits (fun _ => 0) 0 bits buf offBits) (holder / 8)

def getU8 : Bytes → BitVec w → BitVec w → BitVec 8 → BitVec 8 := getUnsigned 8
def getU16 : Bytes → BitVec w → BitVec w → BitVec 8 → BitVec 16 := getUnsigned 16
def getU32 : Bytes → BitVec w → BitVec w → BitVec 8 → BitVec 32 := getUnsigned 32
def getU64 : Bytes → BitVec w → BitVec w → BitVec 8 → BitVec 64 := getUnsigned 64

def getSigned (holder : ℕ) (buf : Bytes) (bufSizeBytes offBits : BitVec w)
    (lenBits : BitVec 8) : BitVec holder :=
  let sat := min lenBits.toNat holder
  let val := getUnsigned holder buf bufSizeBytes offBits (BitVec.ofNat 8 sat)
  let neg := decide (0 < sat) && val.getLsbD (sat - 1)
  let extended :=
    if sat < holder ∧ neg = true then val ||| ~~~((BitVec.ofNat holder 1 <<< sat) - 1) else val
  if neg then -~~~extended - 1 else extended

def getI8 : Bytes → BitVec w → BitVec w → BitVec 8 → BitVec 8 := getSigned 8
def getI16 : Bytes → BitVec w → BitVec w → BitVec 8 → BitVec 16 := getSigned 16
def getI32 : Bytes → BitVec w → BitVec w → BitVec 8 → BitVec 32 := getSigned 32
def getI64 : Bytes → BitVec w → BitVec w → BitVec 8 → BitVec 64 := getSigned 64

end LlvmDsdl.Runtime.SizeT
