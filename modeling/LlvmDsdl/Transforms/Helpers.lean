import Mathlib
import LlvmDsdl.Transforms.PlanSteps

/-!
Contract: the helper functions the lowering stamps on a plan, and the scalar
operations they surround.

Owns: the shape of a scalar helper and its arith body; the union-tag,
array-length and delimiter checks with the code each answers; and the masks of a
tag and a length prefix.

Does not own the order in which a body applies them.
-/

namespace LlvmDsdl.Transforms

open LlvmDsdl.Runtime
open LlvmDsdl.Library.BitRun

inductive HelperScalarKind where
  | unsigned
  | signed
  | float
deriving DecidableEq, Repr

inductive HelperDirection where
  | serialize
  | deserialize
deriving DecidableEq, Repr

inductive HelperBodyKind where
  | identity
  | mask
  | saturateUnsigned
  | saturateSigned
  | signExtend
deriving DecidableEq, Repr

structure HelperBody where
  kind : HelperBodyKind
  bits : ℕ
  minValue : Word
  maxValue : Word

def helperBodyForScalar (kind : HelperScalarKind) (bits : ℕ) (saturated : Bool)
    (direction : HelperDirection) : HelperBody :=
  let serialize := direction == .serialize
  let narrow := decide (bits < 64)
  match kind with
  | .unsigned =>
      if serialize && saturated && narrow then ⟨.saturateUnsigned, bits, 0, 0⟩
      else if narrow then ⟨.mask, bits, 0, 0⟩
      else ⟨.identity, bits, 0, 0⟩
  | .signed =>
      if serialize && saturated && decide (0 < bits) && narrow then
        ⟨.saturateSigned, bits, -(1#64 <<< (bits - 1)), (1#64 <<< (bits - 1)) - 1#64⟩
      else if !serialize && decide (0 < bits) && narrow then ⟨.signExtend, bits, 0, 0⟩
      else ⟨.identity, bits, 0, 0⟩
  | .float => ⟨.identity, bits, 0, 0⟩

/-- The mask of the low `bits` bits, for a width below the word's. -/
def lowMask (bits : ℕ) : Word := (1#64 <<< bits) - 1#64

def lowerScalarHelperBody (body : HelperBody) (value : Word) : Word :=
  match body.kind with
  | .identity => value
  | .mask => value &&& lowMask body.bits
  | .saturateUnsigned => if lowMask body.bits < value then lowMask body.bits else value
  | .saturateSigned =>
      let clampedLow := if value.slt body.minValue then body.minValue else value
      if body.maxValue.slt value then body.maxValue else clampedLow
  | .signExtend =>
      let masked := value &&& lowMask body.bits
      let signPart := masked &&& (1#64 <<< (body.bits - 1))
      if signPart ≠ 0 then masked ||| ~~~lowMask body.bits else masked

def ScalarType.helperKind (type : ScalarType) : HelperScalarKind :=
  match type.category with
  | .signed => .signed
  | .float => .float
  | .bool | .byte | .utf8 | .unsigned => .unsigned

/-- A bool has no helper: it is one bit, with nothing to saturate or extend. -/
def normaliseScalar (type : ScalarType) (value : Word) (direction : HelperDirection) : Word :=
  if type.category = .bool then value
  else
    lowerScalarHelperBody
      (helperBodyForScalar type.helperKind type.bitLength (type.castMode == .saturated) direction)
      value

/-- What a target decides about counts: the width of its index type. -/
structure Target where
  indexBits : ℕ

/-- The count survives the round trip through the index type as a signed quantity. -/
def indexHolds (target : Target) (value : Word) : Bool :=
  (value.setWidth target.indexBits).signExtend 64 == value

def validateUnionTag (optionIndexes : List ℕ) (tagValue : Word) : ErrorCode :=
  if optionIndexes.any fun option => tagValue == BitVec.ofNat 64 option then 0
  else -errorRepresentationBadUnionTag

def validateArrayLength (target : Target) (capacity : ℕ) (length : Word) : ErrorCode :=
  let isNegative := length.slt 0
  let tooLarge := (BitVec.ofNat 64 capacity).slt length
  if isNegative || tooLarge || !indexHolds target length then -errorRepresentationBadArrayLength
  else 0

def validateDelimiterHeader (headerBytes remainingBytes : Word) : ErrorCode :=
  let isNegative := headerBytes.slt 0
  let tooLarge := decide (remainingBytes < headerBytes)
  if isNegative || tooLarge then -errorRepresentationBadDelimiterHeader else 0

/-- The tag and prefix helpers, the same in both directions. -/
def maskTo (bits : ℕ) (value : Word) : Word :=
  if bits = 64 then value else value &&& lowMask bits

theorem toNat_lowMask {bits : ℕ} (narrow : bits < 64) : (lowMask bits).toNat = 2 ^ bits - 1 := by
  have bound : 2 ^ bits < 2 ^ 64 := Nat.pow_lt_pow_right (by decide) narrow
  have positive : 0 < 2 ^ bits := Nat.two_pow_pos bits
  have one : (1#64).toNat = 1 := rfl
  have power : (1#64 <<< bits).toNat = 2 ^ bits := by
    rw [BitVec.toNat_shiftLeft, one, Nat.shiftLeft_eq, Nat.one_mul, Nat.mod_eq_of_lt bound]
  rw [lowMask, BitVec.toNat_sub, power, one]
  omega

private theorem toNat_one_shiftLeft {places : ℕ} (narrow : places < 64) :
    (1#64 <<< places).toNat = 2 ^ places := by
  have bound : 2 ^ places < 2 ^ 64 := Nat.pow_lt_pow_right (by decide) narrow
  have one : (1#64).toNat = 1 := rfl
  rw [BitVec.toNat_shiftLeft, one, Nat.shiftLeft_eq, Nat.one_mul, Nat.mod_eq_of_lt bound]

theorem toInt_minValue {width : ℕ} (positive : 0 < width) (narrow : width < 64) :
    (-(1#64 <<< (width - 1))).toInt = -2 ^ (width - 1) := by
  have power := toNat_one_shiftLeft (show width - 1 < 64 by omega)
  have bound : 2 ^ (width - 1) ≤ 2 ^ 62 := Nat.pow_le_pow_right (by decide) (by omega)
  have positivePower : 0 < 2 ^ (width - 1) := Nat.two_pow_pos _
  rw [BitVec.toInt_neg, BitVec.toInt_eq_toNat_of_lt (by rw [power]; omega), power]
  push_cast
  have boundInt : (2 : ℤ) ^ (width - 1) ≤ 2 ^ 62 := by exact_mod_cast bound
  apply Int.bmod_eq_of_le
  · norm_num
    omega
  · norm_num
    have : (0 : ℤ) < 2 ^ (width - 1) := by exact_mod_cast positivePower
    omega

theorem toInt_maxValue {width : ℕ} (positive : 0 < width) (narrow : width < 64) :
    ((1#64 <<< (width - 1)) - 1#64).toInt = 2 ^ (width - 1) - 1 := by
  have small : width - 1 < 64 := by omega
  have value := toNat_lowMask small
  have bound : 2 ^ (width - 1) ≤ 2 ^ 62 := Nat.pow_le_pow_right (by decide) (by omega)
  have positivePower : 0 < 2 ^ (width - 1) := Nat.two_pow_pos _
  rw [lowMask] at value
  rw [BitVec.toInt_eq_toNat_of_lt (by rw [value]; omega), value]
  rw [Nat.cast_sub positivePower]
  push_cast
  rfl

theorem validateArrayLength_code (target : Target) (capacity : ℕ) (length : Word) :
    validateArrayLength target capacity length = 0 ∨
      validateArrayLength target capacity length = -errorRepresentationBadArrayLength := by
  simp only [validateArrayLength]
  split_ifs
  · exact Or.inr rfl
  · exact Or.inl rfl

theorem validateDelimiterHeader_code (header remaining : Word) :
    validateDelimiterHeader header remaining = 0 ∨
      validateDelimiterHeader header remaining = -errorRepresentationBadDelimiterHeader := by
  simp only [validateDelimiterHeader]
  split_ifs
  · exact Or.inr rfl
  · exact Or.inl rfl

theorem validateUnionTag_code (optionIndexes : List ℕ) (tag : Word) :
    validateUnionTag optionIndexes tag = 0 ∨
      validateUnionTag optionIndexes tag = -errorRepresentationBadUnionTag := by
  rw [validateUnionTag]
  split_ifs
  · exact Or.inl rfl
  · exact Or.inr rfl

end LlvmDsdl.Transforms
