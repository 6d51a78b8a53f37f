import Mathlib
import LlvmDsdl.Library.BitRun

/-!
Contract: the bit transfer of the runtime header, over memory as bytes.

Owns: memory behind a pointer; `saturateFragmentBits`; `copyBits` with its
byte-aligned path and its piecewise path; `getBits` with its zero extension; and
what each does to the individual bits.

Does not own the primitives that carry a field: those are built on these.
-/

namespace LlvmDsdl.Runtime

open LlvmDsdl.Library.BitRun

/-- `size_t`, `uint64_t` and the plan's `i64`. -/
abbrev Word := BitVec 64

abbrev Byte := BitVec 8

/-- The memory a pointer leads into, by the index from the pointer. -/
abbrev Bytes := ℕ → Byte

/-- Bit `position % 8` of byte `position / 8`: the order bits travel in. -/
def bitAt (bytes : Bytes) (position : ℕ) : Bool :=
  (bytes (position / 8)).getLsbD (position % 8)

theorem bitAt_mul_add (bytes : Bytes) (index : ℕ) {bit : ℕ} (inside : bit < 8) :
    bitAt bytes (8 * index + bit) = (bytes index).getLsbD bit := by
  have quotient : (8 * index + bit) / 8 = index := by omega
  have remainder : (8 * index + bit) % 8 = bit := by omega
  rw [bitAt, quotient, remainder]

theorem getLsbD_joined {holder : ℕ} {bytes : Bytes} {joined : ℕ → BitVec holder}
    (none : joined 0 = 0) (next : ∀ count, joined (count + 1) =
      joined count ||| (bytes count).setWidth holder <<< (8 * count)) (count bit : ℕ) :
    (joined count).getLsbD bit =
      (decide (bit < holder) && (decide (bit < 8 * count) && bitAt bytes bit)) := by
  induction count with
  | zero => simp [none]
  | succ count ih =>
      rw [next, BitVec.getLsbD_or, ih, BitVec.getLsbD_shiftLeft, BitVec.getLsbD_setWidth]
      by_cases held : bit < holder
      · by_cases earlier : bit < 8 * count
        · have both : bit < 8 * (count + 1) := by omega
          simp [held, earlier, both]
        · by_cases here : bit < 8 * (count + 1)
          · have quotient : bit / 8 = count := by omega
            have remainder : bit - 8 * count = bit % 8 := by omega
            have inByte : bit % 8 < holder := by omega
            simp [held, earlier, here, inByte, bitAt, quotient, remainder]
          · have high : 8 ≤ bit - 8 * count := by omega
            simp [held, earlier, here, BitVec.getLsbD_of_ge _ _ high]
      · simp [held]

/-- A pointer moved `count` bytes forward. -/
def pointerAt (bytes : Bytes) (count : ℕ) : Bytes := fun index => bytes (count + index)

def memmove (dst : Bytes) (dstIndex : ℕ) (src : Bytes) (srcIndex count : ℕ) : Bytes := fun index =>
  if dstIndex ≤ index ∧ index < dstIndex + count then src (srcIndex + (index - dstIndex))
  else dst index

def memset (dst : Bytes) (dstIndex : ℕ) (value : Byte) (count : ℕ) : Bytes := fun index =>
  if dstIndex ≤ index ∧ index < dstIndex + count then value else dst index

theorem bitAt_memmove (dst : Bytes) (dstIndex : ℕ) (src : Bytes) (srcIndex count position : ℕ) :
    bitAt (memmove dst dstIndex src srcIndex count) position =
      if 8 * dstIndex ≤ position ∧ position < 8 * dstIndex + 8 * count then
        bitAt src (8 * srcIndex + (position - 8 * dstIndex))
      else bitAt dst position := by
  by_cases moved : 8 * dstIndex ≤ position ∧ position < 8 * dstIndex + 8 * count
  · have quotient : (8 * srcIndex + (position - 8 * dstIndex)) / 8 =
        srcIndex + (position / 8 - dstIndex) := by omega
    have remainder : (8 * srcIndex + (position - 8 * dstIndex)) % 8 = position % 8 := by omega
    rw [if_pos moved, bitAt, bitAt, quotient, remainder, memmove, if_pos (by omega)]
  · rw [if_neg moved, bitAt, bitAt, memmove, if_neg (by omega)]

theorem bitAt_memset_zero (dst : Bytes) (dstIndex count position : ℕ) :
    bitAt (memset dst dstIndex 0 count) position =
      if 8 * dstIndex ≤ position ∧ position < 8 * dstIndex + 8 * count then false
      else bitAt dst position := by
  by_cases cleared : 8 * dstIndex ≤ position ∧ position < 8 * dstIndex + 8 * count
  · rw [if_pos cleared, bitAt, memset, if_pos (by omega)]
    simp
  · rw [if_neg cleared, bitAt, bitAt, memset, if_neg (by omega)]

/-- The mask of `size` bits from bit `shift` on. -/
def maskOf (size shift : ℕ) : Byte :=
  ((1#8 <<< size) - 1#8) <<< shift

private theorem getLsbD_maskOf_zero :
    ∀ size < 9, ∀ bit < 8, ((1#8 <<< size) - 1#8).getLsbD bit = decide (bit < size) := by
  decide

theorem getLsbD_maskOf {size shift bit : ℕ} (sizeBound : size ≤ 8) (inside : bit < 8) :
    (maskOf size shift).getLsbD bit = decide (shift ≤ bit ∧ bit < shift + size) := by
  rw [maskOf, BitVec.getLsbD_shiftLeft]
  by_cases below : bit < shift
  · simp [below]
  · rw [getLsbD_maskOf_zero size (by omega) (bit - shift) (by omega)]
    simp only [inside, below, decide_true, decide_false, Bool.not_false, Bool.true_and]
    congr 1
    apply propext
    omega

private theorem getLsbD_merge (old new : Byte) {size shift bit : ℕ} (sizeBound : size ≤ 8)
    (inside : bit < 8) :
    ((old &&& ~~~maskOf size shift) ||| (new &&& maskOf size shift)).getLsbD bit =
      if shift ≤ bit ∧ bit < shift + size then new.getLsbD bit else old.getLsbD bit := by
  rw [BitVec.getLsbD_or, BitVec.getLsbD_and, BitVec.getLsbD_and, BitVec.getLsbD_not,
    getLsbD_maskOf sizeBound inside]
  by_cases masked : shift ≤ bit ∧ bit < shift + size
  · simp [masked]
  · simp [masked, inside]

theorem bitAt_update (dst : Bytes) (index : ℕ) (value : Byte) (position : ℕ) :
    bitAt (Function.update dst index value) position =
      if position / 8 = index then value.getLsbD (position % 8) else bitAt dst position := by
  by_cases here : position / 8 = index
  · rw [if_pos here, bitAt, here, Function.update_self]
  · rw [if_neg here, bitAt, bitAt, Function.update_of_ne here]

/-- The path for offsets that both stand on a byte: a move, then the last partial byte. -/
def copyAligned (dst : Bytes) (dstOffset length : ℕ) (src : Bytes) (srcOffset : ℕ) : Bytes :=
  let lengthBytes := length / 8
  let moved := memmove dst (dstOffset / 8) src (srcOffset / 8) lengthBytes
  let lengthMod := length % 8
  if lengthMod = 0 then moved
  else
    let lastSrc := srcOffset / 8 + lengthBytes
    let lastDst := dstOffset / 8 + lengthBytes
    let mask := maskOf lengthMod 0
    Function.update moved lastDst ((moved lastDst &&& ~~~mask) ||| (src lastSrc &&& mask))

/-- The path for any offsets: pieces that stay inside one byte on either side. `fuel` bounds the
pieces; each takes at least one bit. -/
def copyPieces : ℕ → Bytes → ℕ → Bytes → ℕ → ℕ → Bytes
  | 0, dst, _, _, _, _ => dst
  | fuel + 1, dst, dstOffset, src, srcOffset, lastBit =>
      if srcOffset < lastBit then
        let srcMod := srcOffset % 8
        let dstMod := dstOffset % 8
        let size := min (8 - max srcMod dstMod) (lastBit - srcOffset)
        let mask := maskOf size dstMod
        let input := (src (srcOffset / 8) >>> srcMod) <<< dstMod
        let merged := (dst (dstOffset / 8) &&& ~~~mask) ||| (input &&& mask)
        copyPieces fuel (Function.update dst (dstOffset / 8) merged) (dstOffset + size) src
          (srcOffset + size) lastBit
      else dst

def copyBits (dst : Bytes) (dstOffset length : ℕ) (src : Bytes) (srcOffset : ℕ) : Bytes :=
  if srcOffset % 8 = 0 ∧ dstOffset % 8 = 0 then copyAligned dst dstOffset length src srcOffset
  else copyPieces length dst dstOffset src srcOffset (srcOffset + length)

private theorem bitAt_copyAligned (dst : Bytes) {dstOffset : ℕ} (length : ℕ) (src : Bytes)
    {srcOffset : ℕ} (srcAligned : srcOffset % 8 = 0) (dstAligned : dstOffset % 8 = 0)
    (position : ℕ) :
    bitAt (copyAligned dst dstOffset length src srcOffset) position =
      if dstOffset ≤ position ∧ position < dstOffset + length then
        bitAt src (srcOffset + (position - dstOffset))
      else bitAt dst position := by
  have dstWhole : 8 * (dstOffset / 8) = dstOffset := by omega
  have srcWhole : 8 * (srcOffset / 8) = srcOffset := by omega
  simp only [copyAligned]
  by_cases whole : length % 8 = 0
  · have lengthWhole : 8 * (length / 8) = length := by omega
    rw [if_pos whole, bitAt_memmove, dstWhole, srcWhole, lengthWhole]
  · rw [if_neg whole, bitAt_update]
    by_cases last : position / 8 = dstOffset / 8 + length / 8
    · have lastSource : (srcOffset + (position - dstOffset)) / 8 = srcOffset / 8 + length / 8 := by
        omega
      have sameBit : (srcOffset + (position - dstOffset)) % 8 = position % 8 := by omega
      have unmoved : memmove dst (dstOffset / 8) src (srcOffset / 8) (length / 8)
          (dstOffset / 8 + length / 8) = dst (position / 8) := by
        rw [memmove, if_neg (by omega), last]
      rw [if_pos last, getLsbD_merge _ _ (by omega) (by omega), unmoved]
      by_cases copied : dstOffset ≤ position ∧ position < dstOffset + length
      · rw [if_pos copied, if_pos (by omega), bitAt, lastSource, sameBit]
      · rw [if_neg copied, if_neg (by omega), bitAt]
    · rw [if_neg last, bitAt_memmove, dstWhole, srcWhole]
      by_cases copied : dstOffset ≤ position ∧ position < dstOffset + length
      · rw [if_pos copied, if_pos (by omega)]
      · rw [if_neg copied, if_neg (by omega)]

theorem bitAt_piece (dst src : Bytes) {dstOffset srcOffset size : ℕ}
    (inSource : srcOffset % 8 + size ≤ 8) (inTarget : dstOffset % 8 + size ≤ 8) (position : ℕ) :
    bitAt (Function.update dst (dstOffset / 8)
        ((dst (dstOffset / 8) &&& ~~~maskOf size (dstOffset % 8)) |||
          (((src (srcOffset / 8) >>> (srcOffset % 8)) <<< (dstOffset % 8)) &&&
            maskOf size (dstOffset % 8)))) position =
      if dstOffset ≤ position ∧ position < dstOffset + size then
        bitAt src (srcOffset + (position - dstOffset))
      else bitAt dst position := by
  rw [bitAt_update]
  by_cases here : position / 8 = dstOffset / 8
  · rw [if_pos here, getLsbD_merge _ _ (by omega) (by omega)]
    by_cases copied : dstOffset ≤ position ∧ position < dstOffset + size
    · have byte : (srcOffset + (position - dstOffset)) / 8 = srcOffset / 8 := by omega
      have bit : (srcOffset + (position - dstOffset)) % 8 =
          srcOffset % 8 + (position % 8 - dstOffset % 8) := by omega
      have inByte : position % 8 < 8 := by omega
      have above : ¬position % 8 < dstOffset % 8 := by omega
      rw [if_pos copied, if_pos (by omega), BitVec.getLsbD_shiftLeft, BitVec.getLsbD_ushiftRight,
        bitAt, byte, bit]
      simp [inByte, above]
    · rw [if_neg copied, if_neg (by omega), bitAt, here]
  · rw [if_neg here]
    by_cases copied : dstOffset ≤ position ∧ position < dstOffset + size
    · omega
    · rw [if_neg copied]

private theorem bitAt_copyPieces (fuel : ℕ) (dst : Bytes) (dstOffset : ℕ) (src : Bytes)
    (srcOffset lastBit : ℕ) (enough : lastBit - srcOffset ≤ fuel) (position : ℕ) :
    bitAt (copyPieces fuel dst dstOffset src srcOffset lastBit) position =
      if dstOffset ≤ position ∧ position < dstOffset + (lastBit - srcOffset) then
        bitAt src (srcOffset + (position - dstOffset))
      else bitAt dst position := by
  induction fuel generalizing dst dstOffset srcOffset with
  | zero =>
      rw [copyPieces, if_neg (by omega)]
  | succ fuel ih =>
      rw [copyPieces]
      by_cases more : srcOffset < lastBit
      · rw [if_pos more]
        dsimp only
        generalize sizeIs : min (8 - max (srcOffset % 8) (dstOffset % 8)) (lastBit - srcOffset) = size
        have positive : 0 < size := by omega
        have within : size ≤ lastBit - srcOffset := by omega
        rw [ih _ _ _ (by omega), bitAt_piece _ _ (by omega) (by omega)]
        by_cases later : dstOffset + size ≤ position ∧
            position < dstOffset + size + (lastBit - (srcOffset + size))
        · have same : srcOffset + size + (position - (dstOffset + size)) =
              srcOffset + (position - dstOffset) := by omega
          rw [if_pos later, if_pos (by omega), same]
        · rw [if_neg later]
          by_cases now : dstOffset ≤ position ∧ position < dstOffset + size
          · rw [if_pos now, if_pos (by omega)]
          · rw [if_neg now, if_neg (by omega)]
      · rw [if_neg more, if_neg (by omega)]

/-- Both paths move the same bits: the run, in place, and nothing else. -/
theorem bitAt_copyBits (dst : Bytes) (dstOffset length : ℕ) (src : Bytes) (srcOffset : ℕ)
    (position : ℕ) :
    bitAt (copyBits dst dstOffset length src srcOffset) position =
      if dstOffset ≤ position ∧ position < dstOffset + length then
        bitAt src (srcOffset + (position - dstOffset))
      else bitAt dst position := by
  rw [copyBits]
  by_cases aligned : srcOffset % 8 = 0 ∧ dstOffset % 8 = 0
  · rw [if_pos aligned, bitAt_copyAligned dst length src aligned.1 aligned.2]
  · rw [if_neg aligned, bitAt_copyPieces length dst dstOffset src srcOffset (srcOffset + length)
      (by omega), Nat.add_sub_cancel_left]

def chooseMin (a b : Word) : Word :=
  if a < b then a else b

def saturateFragmentBits (bufferSizeBytes fragmentOffsetBits fragmentLengthBits : Word) : Word :=
  let sizeBits := bufferSizeBytes * 8
  let tailBits := sizeBits - chooseMin sizeBits fragmentOffsetBits
  chooseMin fragmentLengthBits tailBits

theorem toNat_chooseMin (a b : Word) : (chooseMin a b).toNat = min a.toNat b.toNat := by
  rw [chooseMin]
  by_cases less : a < b
  · rw [if_pos less]
    have := BitVec.lt_def.mp less
    omega
  · rw [if_neg less]
    have := BitVec.not_lt.mp less
    have := BitVec.le_def.mp this
    omega

/-- What is left of the fragment inside a buffer whose bits `size_t` counts. -/
theorem toNat_saturateFragmentBits {size : Word} (offset length : Word)
    (counted : 8 * size.toNat < 2 ^ 64) :
    (saturateFragmentBits size offset length).toNat =
      min length.toNat (8 * size.toNat - offset.toNat) := by
  have sizeBits : (size * 8).toNat = 8 * size.toNat := by
    have eight : (8 : Word).toNat = 8 := rfl
    rw [BitVec.toNat_mul, eight]
    omega
  have bounded := toNat_chooseMin (size * 8) offset
  rw [saturateFragmentBits, toNat_chooseMin, BitVec.toNat_sub, bounded, sizeBits]
  have := (size * 8).isLt
  omega

/-- Whatever the offset, a saturated fragment ends inside the buffer. -/
theorem saturateFragmentBits_within {size : Word} (offset length : Word)
    (counted : 8 * size.toNat < 2 ^ 64)
    (some : 0 < (saturateFragmentBits size offset length).toNat) :
    offset.toNat + (saturateFragmentBits size offset length).toNat ≤ 8 * size.toNat := by
  rw [toNat_saturateFragmentBits offset length counted] at some ⊢
  omega

/-- Reads `length` bits into `output`, zero from the end of the buffer on. -/
def getBits (output buf : Bytes) (size offset length : Word) : Bytes :=
  let satBits := (saturateFragmentBits size offset length).toNat
  let cleared := memset output (satBits / 8) 0 ((length.toNat + 7) / 8 - satBits / 8)
  copyBits cleared 0 satBits buf offset.toNat

/-- The bit of the buffer, or zero past its end. -/
def zeroExtended (buf : Bytes) (sizeBytes : ℕ) (position : ℕ) : Bool :=
  decide (position < 8 * sizeBytes) && bitAt buf position

end LlvmDsdl.Runtime
