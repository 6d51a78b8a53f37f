import LlvmDsdl.Library.Loop
import LlvmDsdl.Runtime.ByteBuffer

/-!
Contract: the pure-Python runtime, `_dsdl_runtime.py`.

Owns: its bit, copy and integer primitives over buffers of bytes, with lengths and
values any integers; and what each leaves in its buffer and returns.

An offset is a natural number here: the branches for a negative byte index are
never taken.
-/

namespace LlvmDsdl.Runtime.Python

open LlvmDsdl.Library.Loop
open LlvmDsdl.Runtime.Buffer

/-- The text of the `ValueError` a store outside the buffer raises. -/
def tooSmall : String := "serialisation buffer too small"

def byteLengthForBits (totalBits : ℤ) : ℕ :=
  if totalBits ≤ 0 then 0 else ((totalBits + 7) / 8).toNat

def maskBits (lengthBits : ℤ) : ℤ :=
  if lengthBits ≤ 0 then 0 else (1 : ℤ) <<< lengthBits.toNat - 1

def setBit (buf : Buffer) (offBits : ℕ) (value : Bool) : Except String Buffer :=
  storeBit tooSmall buf offBits value

def getBit (buf : Buffer) (offBits : ℕ) : Bool :=
  let byteIndex := offBits / 8
  let bitIndex := offBits % 8
  if buf.length ≤ byteIndex then false else (contents buf byteIndex >>> bitIndex) &&& 1 == 1

def setBits (buf : Buffer) (offBits count : ℕ) (bits : ℕ → Bool) : Outcome Unit :=
  storeBits tooSmall bits offBits count 0 buf

def copyBits (dst : Buffer) (dstOffBits : ℕ) (src : Buffer) (srcOffBits : ℕ) (lenBits : ℤ) :
    Outcome Unit :=
  if lenBits ≤ 0 then (dst, .ok ())
  else setBits dst dstOffBits lenBits.toNat fun index => getBit src (srcOffBits + index)

def extractBits (src : Buffer) (srcOffBits : ℕ) (lenBits : ℤ) : Except String Buffer :=
  let out := List.replicate (byteLengthForBits lenBits) 0
  let copied := copyBits out 0 src srcOffBits lenBits
  copied.2.map fun _ => copied.1

/-- `(value >> index) & 1 == 1`. -/
def bitOfInt (value : ℤ) (index : ℕ) : Bool := (value >>> index) % 2 == 1

/-- The value whose bits a write stores. Masking with `2 ** n - 1` leaves the residue. -/
def encodeUnsigned (lenBits value : ℤ) (saturating : Bool) : ℤ :=
  let maxValue := maskBits lenBits
  if saturating then
    if value < 0 then 0 else if maxValue < value then maxValue else value
  else value % (maxValue + 1)

def writeUnsigned (buf : Buffer) (offBits : ℕ) (lenBits value : ℤ) (saturating : Bool) :
    Outcome ℤ :=
  if lenBits ≤ 0 then (buf, .ok 0)
  else
    let valueInt := encodeUnsigned lenBits value saturating
    let written := setBits buf offBits lenBits.toNat (bitOfInt valueInt)
    (written.1, written.2.map fun _ => 0)

def clampSigned (lenBits value : ℤ) (saturating : Bool) : ℤ :=
  if saturating then
    let minValue := -((1 : ℤ) <<< (lenBits - 1).toNat)
    let maxValue := (1 : ℤ) <<< (lenBits - 1).toNat - 1
    if value < minValue then minValue else if maxValue < value then maxValue else value
  else value

def writeSigned (buf : Buffer) (offBits : ℕ) (lenBits value : ℤ) (saturating : Bool) : Outcome ℤ :=
  if lenBits ≤ 0 then (buf, .ok 0)
  else writeUnsigned buf offBits lenBits (clampSigned lenBits value saturating) false

def readUnsigned (buf : Buffer) (offBits : ℕ) (lenBits : ℤ) : ℕ :=
  if lenBits ≤ 0 then 0
  else
    countingLoop (fun index out => if getBit buf (offBits + index) then out ||| (1 <<< index) else out)
      lenBits.toNat 0

def readSigned (buf : Buffer) (offBits : ℕ) (lenBits : ℤ) : ℤ :=
  if lenBits ≤ 0 then 0
  else
    let raw := readUnsigned buf offBits lenBits
    let signBit := 1 <<< (lenBits - 1).toNat
    if raw &&& signBit ≠ 0 then (raw : ℤ) - (1 : ℤ) <<< lenBits.toNat else raw

theorem getBit_eq (buf : Buffer) (offBits : ℕ) : getBit buf offBits = bitOf buf offBits := by
  rw [getBit]
  by_cases outside : buf.length ≤ offBits / 8
  · rw [if_pos outside, bitOf_beyond buf (by omega)]
  · rw [if_neg outside, bitOf, bitAt]
    generalize contents buf (offBits / 8) = byte
    have inByte : offBits % 8 < 8 := Nat.mod_lt _ (by decide)
    generalize offBits % 8 = bit at inByte
    have masked : ((byte >>> bit) &&& 1#8 == 1#8) = (byte >>> bit).getLsbD 0 := by
      have all : ∀ other : Byte, (other &&& 1#8 == 1#8) = other.getLsbD 0 := by decide
      exact all (byte >>> bit)
    exact masked.trans (by rw [BitVec.getLsbD_ushiftRight, Nat.add_zero])

/-- What a copy leaves: the source's bits, zero past its end, as far as the destination goes. -/
theorem copyBits_written (dst : Buffer) (dstOffBits : ℕ) (src : Buffer) (srcOffBits : ℕ)
    (lenBits : ℤ) :
    Written dst dstOffBits lenBits.toNat (fun index => bitOf src (srcOffBits + index))
      (copyBits dst dstOffBits src srcOffBits lenBits).1 := by
  rw [copyBits]
  by_cases nothing : lenBits ≤ 0
  · have none : lenBits.toNat = 0 := by omega
    rw [if_pos nothing, none]
    exact written_nothing _ _ _
  · rw [if_neg nothing]
    apply (storeBits_written tooSmall _ dstOffBits lenBits.toNat dst).congr
    intro index _
    exact getBit_eq src (srcOffBits + index)

theorem copyBits_ending (dst : Buffer) (dstOffBits : ℕ) (src : Buffer) (srcOffBits : ℕ)
    (lenBits : ℤ) :
    (copyBits dst dstOffBits src srcOffBits lenBits).2 =
      if lenBits.toNat = 0 ∨ dstOffBits + lenBits.toNat ≤ 8 * dst.length then .ok ()
      else .error tooSmall := by
  rw [copyBits]
  by_cases nothing : lenBits ≤ 0
  · rw [if_pos nothing, if_pos (Or.inl (by omega))]
  · rw [if_neg nothing]
    exact storeBits_ending tooSmall _ dstOffBits lenBits.toNat dst

theorem length_extractBits_output (lenBits : ℤ) :
    lenBits.toNat ≤ 8 * byteLengthForBits lenBits ∧
      8 * byteLengthForBits lenBits < lenBits.toNat + 8 := by
  rw [byteLengthForBits]
  by_cases nothing : lenBits ≤ 0
  · rw [if_pos nothing]
    omega
  · rw [if_neg nothing]
    omega

/-- An extraction always succeeds; bits past the source, and those that fill the last byte, are
zero. -/
theorem extractBits_spec (src : Buffer) (srcOffBits : ℕ) (lenBits : ℤ) :
    ∃ out, extractBits src srcOffBits lenBits = .ok out ∧
      out.length = byteLengthForBits lenBits ∧
      ∀ position < 8 * out.length, bitOf out position =
        (decide (position < lenBits.toNat) && bitOf src (srcOffBits + position)) := by
  have ⟨enough, _⟩ := length_extractBits_output lenBits
  have written := copyBits_written (List.replicate (byteLengthForBits lenBits) 0) 0 src srcOffBits
    lenBits
  have ending := copyBits_ending (List.replicate (byteLengthForBits lenBits) 0) 0 src srcOffBits
    lenBits
  have clear (position : ℕ) :
      bitOf (List.replicate (byteLengthForBits lenBits) 0) position = false := by
    have zeros : contents (List.replicate (byteLengthForBits lenBits) 0) = fun _ => 0 := by
      funext index
      rw [contents, List.getD_eq_getElem?_getD, List.getElem?_replicate]
      split_ifs <;> rfl
    rw [bitOf, zeros, bitAt]
    exact BitVec.getLsbD_zero
  rw [List.length_replicate, if_pos (Or.inr (by omega))] at ending
  refine ⟨_, ?_, written.length.trans (List.length_replicate ..), ?_⟩
  · rw [extractBits, ending]
    rfl
  · intro position inside
    rw [written.length] at inside
    rw [written.bit position inside, clear]
    by_cases inRun : position < lenBits.toNat
    · rw [if_pos (by omega), decide_eq_true inRun, Nat.sub_zero, Bool.true_and]
    · rw [if_neg (by omega), decide_eq_false inRun, Bool.false_and]

end LlvmDsdl.Runtime.Python
