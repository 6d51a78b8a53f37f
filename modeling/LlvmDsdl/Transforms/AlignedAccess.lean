import LlvmDsdl.Runtime.Float
import LlvmDsdl.Runtime.SizeT

/-!
Contract: how a scalar wire access is lowered to LLVM.

Owns: the primitive a scalar access resolves to, with its arguments coerced to the
declared signature; the access that a little-endian target makes as one load or
store; the two lowerings that choose between them; and exactly when the choice
cannot be told from the primitive.

Does not own offsets that are no constant: those always call the primitive. A
pointer and a `size_t` have one width, and the buffer begins at address zero.
-/

namespace LlvmDsdl.Transforms.ConvertDSDLToLLVM

open LlvmDsdl.Runtime (Byte Bytes Word bitAt holderWidthFor float16Pack float16Unpack)
open LlvmDsdl.Runtime.SizeT

/-- The type of the value an access moves. A float is held as its bits. -/
inductive ValueType where
  | integer (bits : ℕ)
  | f32
  | f64
deriving DecidableEq, Repr

def ValueType.bits : ValueType → ℕ
  | .integer bits => bits
  | .f32 => 32
  | .f64 => 64

def ValueType.isFloat : ValueType → Bool
  | .integer _ => false
  | .f32 | .f64 => true

/-- The widths on the wire that a type of value is read and written at. -/
def ValueType.Carries (valueType : ValueType) (width : ℕ) : Prop :=
  match valueType with
  | .integer _ => True
  | .f32 => width = 16 ∨ width = 32
  | .f64 => width = 64

/-- What a `dsdl.write_bits` or a `dsdl.read_bits` states about its value. -/
structure Scalar where
  valueType : ValueType
  width : ℕ
  isSigned : Bool
  carried : valueType.Carries width

/-- Converts an integer to the width the callee's signature asks for. -/
def coerce {n : ℕ} (isSigned : Bool) (value : BitVec n) (target : ℕ) : BitVec target :=
  if isSigned then value.signExtend target else value.setWidth target

def setBit {w : ℕ} (buf : Bytes) (bufSizeBytes offBits : BitVec w) (value : Bool) :
    Bytes × BitVec 8 :=
  if bufSizeBytes * 8 ≤ offBits then (buf, bufferTooSmall)
  else (copyBits buf offBits 1 (fun _ => if value then 1 else 0) 0, 0)

def getBit {w : ℕ} (buf : Bytes) (bufSizeBytes offBits : BitVec w) : Bool :=
  1 == getU8 buf bufSizeBytes offBits 1

/-- The call that writes a scalar on a target whose `size_t` has `w` bits. -/
def setPrimitive (w : ℕ) (scalar : Scalar) (buf : Bytes) (size bitOffset : Word)
    (value : BitVec scalar.valueType.bits) : Bytes × BitVec 8 :=
  let bufSizeBytes : BitVec w := coerce scalar.isSigned size w
  let offBits : BitVec w := coerce scalar.isSigned bitOffset w
  let lenBits := BitVec.ofNat 8 scalar.width
  if scalar.valueType.isFloat then
    if scalar.width = 16 then
      setUxx buf bufSizeBytes offBits ((float16Pack (value.setWidth 32)).setWidth 64) 16
    else setUxx buf bufSizeBytes offBits (value.setWidth 64) lenBits
  else if scalar.width = 1 ∧ scalar.isSigned = false then
    setBit buf bufSizeBytes offBits (value.getLsbD 0)
  else if scalar.isSigned then
    setIxx buf bufSizeBytes offBits (coerce true value 64) lenBits
  else setUxx buf bufSizeBytes offBits (coerce false value 64) lenBits

/-- The call that reads a scalar, with its answer at the width the plan computes on. -/
def getPrimitive (w : ℕ) (scalar : Scalar) (buf : Bytes) (size bitOffset : Word) :
    BitVec scalar.valueType.bits :=
  let bufSizeBytes : BitVec w := coerce scalar.isSigned size w
  let offBits : BitVec w := coerce scalar.isSigned bitOffset w
  let lenBits := BitVec.ofNat 8 scalar.width
  if scalar.valueType.isFloat then
    if scalar.width = 16 then (float16Unpack (getU16 buf bufSizeBytes offBits 16)).setWidth _
    else (getUnsigned scalar.width buf bufSizeBytes offBits lenBits).setWidth _
  else if scalar.width = 1 ∧ scalar.isSigned = false then
    if getBit buf bufSizeBytes offBits then BitVec.ofNat _ 1 else BitVec.ofNat _ 0
  else if scalar.isSigned then
    coerce true (getSigned (holderWidthFor scalar.width) buf bufSizeBytes offBits lenBits) _
  else coerce false (getUnsigned (holderWidthFor scalar.width) buf bufSizeBytes offBits lenBits) _

structure AlignedAccess where
  byteOffset : ℕ
  bytes : ℕ
deriving DecidableEq, Repr

def alignedAccess (littleEndian : Bool) (bitOffset : Word) (scalar : Scalar) :
    Option AlignedAccess :=
  let access := AlignedAccess.mk (bitOffset.toNat / 8) (scalar.width / 8)
  if littleEndian = false ∨ bitOffset.slt 0 = true ∨ bitOffset.toNat % 8 ≠ 0 then none
  else if scalar.width ≠ 8 ∧ scalar.width ≠ 16 ∧ scalar.width ≠ 32 ∧ scalar.width ≠ 64 then none
  else
    match scalar.valueType with
    | .integer bits => if bits < scalar.width then none else some access
    | .f32 => if scalar.width = 32 then some access else none
    | .f64 => if scalar.width = 64 then some access else none

/-- Whether the buffer's size holds the access. -/
def accessFits (size : Word) (access : AlignedAccess) : Bool :=
  decide (BitVec.ofNat 64 (access.byteOffset + access.bytes) ≤ size)

/-- The address the access begins at: the index is an `int32_t`, which `getelementptr` extends by
its sign. -/
def accessAddress (w : ℕ) (access : AlignedAccess) : BitVec w :=
  (BitVec.ofNat 32 access.byteOffset).signExtend w

/-- The load of an integer of `bits` bits. -/
def load {w : ℕ} (memory : Bytes) (address : BitVec w) (bits : ℕ) : BitVec bits :=
  littleEndian bits (fun index => memory (address + BitVec.ofNat w index).toNat) (bits / 8)

/-- The store of the first `count` bytes of an integer. -/
def store {w n : ℕ} (memory : Bytes) (address : BitVec w) (value : BitVec n) : ℕ → Bytes
  | 0 => memory
  | count + 1 =>
      Function.update (store memory address value count) (address + BitVec.ofNat w count).toNat
        ((value >>> (8 * count)).setWidth 8)

def writeBits (w : ℕ) (littleEndian : Bool) (scalar : Scalar) (buf : Bytes)
    (size bitOffset : Word) (value : BitVec scalar.valueType.bits) : Bytes × BitVec 8 :=
  match alignedAccess littleEndian bitOffset scalar with
  | none => setPrimitive w scalar buf size bitOffset value
  | some access =>
      if accessFits size access then
        let narrowed := value.setWidth scalar.width
        (store buf (accessAddress w access) narrowed access.bytes, 0)
      else setPrimitive w scalar buf size bitOffset value

def readBits (w : ℕ) (littleEndian : Bool) (scalar : Scalar) (buf : Bytes)
    (size bitOffset : Word) : BitVec scalar.valueType.bits :=
  match alignedAccess littleEndian bitOffset scalar with
  | none => getPrimitive w scalar buf size bitOffset
  | some access =>
      if accessFits size access then
        coerce scalar.isSigned (load buf (accessAddress w access) scalar.width) _
      else getPrimitive w scalar buf size bitOffset

end LlvmDsdl.Transforms.ConvertDSDLToLLVM
