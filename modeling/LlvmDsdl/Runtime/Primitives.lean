import Mathlib
import LlvmDsdl.Runtime.CopyBits

/-!
Contract: the field primitives of the runtime header.

Owns: the error codes; the bytes of a word and the word of some bytes; the integer
getters; and the selection of one for an integral `dsdl.read_bits`.

Does not own the helpers that normalise a value after it is read.
-/

namespace LlvmDsdl.Runtime

open LlvmDsdl.Library.BitRun

abbrev ErrorCode := ℤ

def errorInvalidArgument : ErrorCode := 2
def errorRepresentationBadArrayLength : ErrorCode := 10
def errorRepresentationBadUnionTag : ErrorCode := 11
def errorRepresentationBadDelimiterHeader : ErrorCode := 12

/-- The bytes of a word, least significant first. -/
def bytesOf (value : Word) : Bytes := fun index => (value >>> (8 * index)).setWidth 8

theorem bitAt_bytesOf (value : Word) (position : ℕ) :
    bitAt (bytesOf value) position = value.getLsbD position := by
  have inByte : position % 8 < 8 := Nat.mod_lt _ (by decide)
  have whole : 8 * (position / 8) + position % 8 = position := by omega
  rw [bitAt, bytesOf, BitVec.getLsbD_setWidth, BitVec.getLsbD_ushiftRight, whole]
  simp [inByte]

/-- The first `count` bytes as one word, least significant first. -/
def littleEndian (bytes : Bytes) : ℕ → Word
  | 0 => 0
  | count + 1 => littleEndian bytes count ||| (bytes count).setWidth 64 <<< (8 * count)

theorem getLsbD_littleEndian (bytes : Bytes) (count bit : ℕ) :
    (littleEndian bytes count).getLsbD bit =
      (decide (bit < 64) && (decide (bit < 8 * count) && bitAt bytes bit)) :=
  getLsbD_joined rfl (fun _ => rfl) count bit

/-- The shape shared by the unsigned getters: up to `holder` bits, zero from the end of the buffer
on. -/
def getUnsigned (holder : ℕ) (buf : Bytes) (bufSizeBytes offBits : Word) (lenBits : ℕ) : Word :=
  let bits := saturateFragmentBits bufSizeBytes offBits
    (chooseMin (BitVec.ofNat 64 lenBits) (BitVec.ofNat 64 holder))
  let tmp := copyBits (fun _ => 0) 0 bits.toNat buf offBits.toNat
  littleEndian tmp (holder / 8)

def getU8 : Bytes → Word → Word → ℕ → Word := getUnsigned 8
def getU16 : Bytes → Word → Word → ℕ → Word := getUnsigned 16
def getU32 : Bytes → Word → Word → ℕ → Word := getUnsigned 32
def getU64 : Bytes → Word → Word → ℕ → Word := getUnsigned 64

def getBit (buf : Bytes) (bufSizeBytes offBits : Word) : Bool :=
  1 == getU8 buf bufSizeBytes offBits 1

/-- The shape shared by the signed getters, widened to the plan's word. -/
def getSigned (holder : ℕ) (buf : Bytes) (bufSizeBytes offBits : Word) (lenBits : ℕ) : Word :=
  let sat := min lenBits holder
  let val := getUnsigned holder buf bufSizeBytes offBits sat
  let neg := decide (0 < sat) && val.getLsbD (sat - 1)
  if neg then val ||| ~~~((1#64 <<< sat) - 1#64) else val

def getI8 : Bytes → Word → Word → ℕ → Word := getSigned 8
def getI16 : Bytes → Word → Word → ℕ → Word := getSigned 16
def getI32 : Bytes → Word → Word → ℕ → Word := getSigned 32
def getI64 : Bytes → Word → Word → ℕ → Word := getSigned 64

/-- The holder widths, and what a width needs of its holder. -/
structure Holds (holder width : ℕ) : Prop where
  whole : holder % 8 = 0
  word : holder ≤ 64
  narrow : width ≤ holder

theorem getUnsigned_eq {holder width : ℕ} (holds : Holds holder width) (buf : Bytes)
    {size : Word} (offset : Word) (counted : 8 * size.toNat < 2 ^ 64) :
    getUnsigned holder buf size offset width =
      wordAt 64 (zeroExtended buf size.toNat) offset.toNat width := by
  have whole := holds.whole
  have word := holds.word
  have narrow := holds.narrow
  have requested : (chooseMin (BitVec.ofNat 64 width) (BitVec.ofNat 64 holder)).toNat = width := by
    rw [toNat_chooseMin, BitVec.toNat_ofNat, BitVec.toNat_ofNat]
    omega
  have saturated := toNat_saturateFragmentBits offset
    (chooseMin (BitVec.ofNat 64 width) (BitVec.ofNat 64 holder)) counted
  rw [requested] at saturated
  apply BitVec.eq_of_getLsbD_eq
  intro bit inWord
  simp only [getUnsigned]
  rw [getLsbD_littleEndian, getLsbD_wordAt, bitAt_copyBits, saturated, zeroExtended]
  by_cases inside : bit < width
  · by_cases present : offset.toNat + bit < 8 * size.toNat
    · have copied : bit < min width (8 * size.toNat - offset.toNat) := by omega
      have held : bit < 8 * (holder / 8) := by omega
      simp [inWord, inside, present, copied, held]
    · have missed : ¬bit < min width (8 * size.toNat - offset.toNat) := by omega
      simp [inside, present, missed, bitAt]
  · have missed : ¬bit < min width (8 * size.toNat - offset.toNat) := by omega
    simp [inside, missed, bitAt]

/-- The word `value`, of `width` bits, with its top bit repeated above. -/
def signExtended (value : Word) (width : ℕ) : Word :=
  (value.setWidth width).signExtend 64

theorem getLsbD_signExtended (value : Word) {width bit : ℕ} (inWord : bit < 64) :
    (signExtended value width).getLsbD bit =
      if bit < width then value.getLsbD bit
      else decide (0 < width) && value.getLsbD (width - 1) := by
  rw [signExtended, BitVec.getLsbD_signExtend]
  by_cases inside : bit < width
  · simp [inWord, inside]
  · by_cases some : 0 < width
    · have top : width - 1 < width := by omega
      rw [BitVec.msb_eq_getLsbD_last]
      simp [inWord, inside, some, top]
    · have none : width = 0 := by omega
      subst none
      simp [inWord, BitVec.msb_eq_getLsbD_last]

theorem getLsbD_highMask {holder width bit : ℕ} (narrow : width ≤ holder) (inside : bit < holder) :
    (~~~((BitVec.ofNat holder 1 <<< width) - 1)).getLsbD bit = decide (width ≤ bit) := by
  have low : ((BitVec.ofNat holder 1 <<< width) - BitVec.ofNat holder 1).getLsbD bit =
      decide (bit < width) := by
    rcases Nat.lt_or_eq_of_le narrow with smaller | full
    · have bound : 2 ^ width < 2 ^ holder := Nat.pow_lt_pow_right (by decide) smaller
      have positive : 0 < 2 ^ width := Nat.two_pow_pos width
      have one : (BitVec.ofNat holder 1).toNat = 1 := by
        rw [BitVec.toNat_ofNat, Nat.mod_eq_of_lt (by omega)]
      have power : (BitVec.ofNat holder 1 <<< width).toNat = 2 ^ width := by
        rw [BitVec.toNat_shiftLeft, one, Nat.shiftLeft_eq, Nat.one_mul, Nat.mod_eq_of_lt bound]
      have value : ((BitVec.ofNat holder 1 <<< width) - BitVec.ofNat holder 1).toNat =
          2 ^ width - 1 := by
        rw [BitVec.toNat_sub_of_le (BitVec.le_def.mpr (by omega)), power, one]
      rw [BitVec.getLsbD, value, Nat.testBit_two_pow_sub_one]
    · have none : BitVec.ofNat holder 1 <<< width = BitVec.ofNat holder 0 :=
        BitVec.shiftLeft_eq_zero full.ge
      rw [none, BitVec.zero_sub, BitVec.neg_one_eq_allOnes, BitVec.getLsbD_allOnes, full]
  show (~~~((BitVec.ofNat holder 1 <<< width) - BitVec.ofNat holder 1)).getLsbD bit = _
  rw [BitVec.getLsbD_not, low, decide_eq_true inside, Bool.true_and, ← decide_not]
  simp only [Nat.not_lt]

def holderWidthFor (bits : ℕ) : ℕ :=
  if bits ≤ 8 then 8 else if bits ≤ 16 then 16 else if bits ≤ 32 then 32 else 64

def getUnsignedHeld (buf : Bytes) (bufSizeBytes offBits : Word) (width : ℕ) : Word :=
  match holderWidthFor width with
  | 8 => getU8 buf bufSizeBytes offBits width
  | 16 => getU16 buf bufSizeBytes offBits width
  | 32 => getU32 buf bufSizeBytes offBits width
  | _ => getU64 buf bufSizeBytes offBits width

def getSignedHeld (buf : Bytes) (bufSizeBytes offBits : Word) (width : ℕ) : Word :=
  match holderWidthFor width with
  | 8 => getI8 buf bufSizeBytes offBits width
  | 16 => getI16 buf bufSizeBytes offBits width
  | 32 => getI32 buf bufSizeBytes offBits width
  | _ => getI64 buf bufSizeBytes offBits width

/-- `dsdl.read_bits` of an integral value: one bit travels as a bool, anything else in the
narrowest holder. -/
def readBits (buf : Bytes) (bufSizeBytes bitOffset : Word) (width : ℕ) (isSigned : Bool) : Word :=
  if width = 1 ∧ isSigned = false then (if getBit buf bufSizeBytes bitOffset then 1 else 0)
  else if isSigned then getSignedHeld buf bufSizeBytes bitOffset width
  else getUnsignedHeld buf bufSizeBytes bitOffset width

end LlvmDsdl.Runtime
