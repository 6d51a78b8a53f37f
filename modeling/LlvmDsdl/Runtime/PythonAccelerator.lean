import LlvmDsdl.Runtime.Primitives
import LlvmDsdl.Runtime.PythonRuntime
import LlvmDsdl.Runtime.SizeT

/-!
Contract: the CPython accelerator, `dsdl_runtime_accel.c`, on a 64-bit target.

Owns: its copy and integer entry points over the buffers of Python objects, with
offsets and lengths as the 64-bit words the argument parser delivers and values any
Python integers; the conversions of such integers; and where a call reads or writes
outside a buffer, or shifts too far, and has no defined behaviour.

The two buffers of a copy share no byte, allocations succeed, and the assertions of
the header are compiled out.
-/

namespace LlvmDsdl.Runtime.Accelerator

open LlvmDsdl.Runtime.Buffer

/-- The memory of a bytes-like object: a 64-bit machine addresses fewer than `2 ^ 61` bytes. -/
structure Held where
  bytes : Buffer
  counted : 8 * bytes.length < 2 ^ 64

/-- `Py_ssize_t` as the `size_t` a call passes on. -/
def Held.size (object : Held) : Word := BitVec.ofNat 64 object.bytes.length

/-- The bytes of an object after a call has run over its memory. -/
def readBack (buffer : Buffer) (memory : Bytes) : Buffer :=
  (List.range buffer.length).map memory

/-- How many bits `dsdl_runtime_copy_bits` goes through: an end of the source that wraps stops its
unaligned path at once. -/
def copySpan (dstOff lenBits srcOff : Word) : ℕ :=
  if srcOff.toNat % 8 = 0 ∧ dstOff.toNat % 8 = 0 then lenBits.toNat
  else if srcOff.toNat + lenBits.toNat < 2 ^ 64 then lenBits.toNat else 0

/-- The copy stays inside memory of so many bytes on either side. -/
def InBounds (dstBytes : ℕ) (dstOff lenBits : Word) (srcBytes : ℕ) (srcOff : Word) : Prop :=
  copySpan dstOff lenBits srcOff = 0 ∨
    (dstOff.toNat + copySpan dstOff lenBits srcOff ≤ 8 * dstBytes ∧
      srcOff.toNat + copySpan dstOff lenBits srcOff ≤ 8 * srcBytes)

instance (dstBytes : ℕ) (dstOff lenBits : Word) (srcBytes : ℕ) (srcOff : Word) :
    Decidable (InBounds dstBytes dstOff lenBits srcBytes srcOff) :=
  inferInstanceAs (Decidable (_ ∨ _))

/-- `py_copy_bits`, where the two buffers share no byte. -/
def copyBits (dst : Held) (dstOffBits : Word) (src : Held) (srcOffBits lenBits : Word) :
    Option (Outcome Unit) :=
  if dst.size * 8 < dstOffBits + lenBits then
    some (dst.bytes, .error "destination range exceeds destination buffer")
  else if src.size * 8 < srcOffBits + lenBits then
    some (dst.bytes, .error "source range exceeds source buffer")
  else if InBounds dst.bytes.length dstOffBits lenBits src.bytes.length srcOffBits then
    let memory := SizeT.copyBits (contents dst.bytes) dstOffBits lenBits (contents src.bytes)
      srcOffBits
    some (readBack dst.bytes memory, .ok ())
  else none

/-- `py_extract_bits`. The output is cleared from `sat / 8` on and then copied into. -/
def extractBits (src : Held) (srcOffBits lenBits : Word) : Option (Except String Buffer) :=
  let outSize := (lenBits + 7) / 8
  let out : Buffer := List.replicate outSize.toNat 0
  let satBits := SizeT.saturateFragmentBits src.size srcOffBits lenBits
  let clearedBytes := (outSize - BitVec.ofNat 64 (satBits.toNat / 8)).toNat
  if satBits.toNat / 8 + clearedBytes ≤ outSize.toNat ∧
      InBounds outSize.toNat 0 satBits src.bytes.length srcOffBits then
    let memory := SizeT.getBits (contents out) (contents src.bytes) src.size srcOffBits lenBits
    some (.ok (readBack out memory))
  else none

def int64Min : ℤ := -(2 ^ 63)
def int64Max : ℤ := 2 ^ 63 - 1

/-- `PyLong_AsLongLongAndOverflow`: the value, or the side it lies past. -/
def asLongLongAndOverflow (value : ℤ) : Word × ℤ :=
  if int64Max < value then (-1, 1)
  else if value < int64Min then (-1, -1)
  else (BitVec.ofInt 64 value, 0)

def asUnsignedLongLong (value : ℤ) : Option Word :=
  if 0 ≤ value ∧ value < 2 ^ 64 then some (BitVec.ofInt 64 value) else none

/-- `PyLong_AsUnsignedLongLongMask`: the value modulo `2 ^ 64`. -/
def asUnsignedLongLongMask (value : ℤ) : Word := BitVec.ofInt 64 value

/-- `to_u8_len_bits`. -/
def toU8LenBits (lenBits : Word) : Except String (BitVec 8) :=
  if 64 < lenBits then .error "len_bits must be <= 64" else .ok (lenBits.setWidth 8)

/-- The word `py_write_unsigned` hands on. -/
def encodeUnsigned (lenBits : BitVec 8) (value : ℤ) (saturating : Bool) : Word :=
  let mask : Word := if lenBits = 64 then BitVec.allOnes 64 else (1#64 <<< lenBits.toNat) - 1#64
  if saturating then
    let signedValue := (asLongLongAndOverflow value).1
    let overflow := (asLongLongAndOverflow value).2
    let wide := if 0 < overflow then asUnsignedLongLong value else none
    if overflow < 0 ∨ (overflow = 0 ∧ signedValue.slt 0) then 0
    else if 0 < overflow then
      match wide with
      | some wide => if wide ≤ mask then wide else mask
      | none => mask
    else if mask < signedValue then mask else signedValue
  else asUnsignedLongLongMask value &&& mask

/-- The word `py_write_signed` hands on; a saturating write of no bits shifts by `UINT_MAX`. -/
def encodeSigned (lenBits : BitVec 8) (value : ℤ) (saturating : Bool) : Option Word :=
  if saturating then
    if lenBits = 0 then none
    else
      let signedValue := (asLongLongAndOverflow value).1
      let overflow := (asLongLongAndOverflow value).2
      let minValue : Word :=
        if lenBits = 64 then BitVec.ofInt 64 int64Min else -(1#64 <<< (lenBits.toNat - 1))
      let maxValue : Word :=
        if lenBits = 64 then BitVec.ofInt 64 int64Max else (1#64 <<< (lenBits.toNat - 1)) - 1#64
      some (
        if overflow < 0 then minValue
        else if 0 < overflow then maxValue
        else if signedValue.slt minValue then minValue
        else if maxValue.slt signedValue then maxValue
        else signedValue)
  else
    let bits := asUnsignedLongLongMask value
    some (if BitVec.ofInt 64 int64Max < bits then -~~~bits - 1 else bits)

/-- `dsdl_runtime_set_uxx` over the object, and the exception for its error code. -/
def setField (dst : Held) (offBits value : Word) (lenBits : BitVec 8) (failed : String) :
    Option (Outcome ℤ) :=
  let written := SizeT.setUxx (contents dst.bytes) dst.size offBits value lenBits
  if written.2.slt 0 then some (dst.bytes, .error failed)
  else if InBounds dst.bytes.length offBits (SizeT.chooseMin (lenBits.setWidth 64) 64) 8 0 then
    some (readBack dst.bytes written.1, .ok 0)
  else none

def writeUnsigned (dst : Held) (offBits lenBitsRaw : Word) (value : ℤ) (saturating : Bool) :
    Option (Outcome ℤ) :=
  match toU8LenBits lenBitsRaw with
  | .error message => some (dst.bytes, .error message)
  | .ok lenBits =>
      setField dst offBits (encodeUnsigned lenBits value saturating) lenBits
        "write_unsigned failed: serialisation buffer too small"

def writeSigned (dst : Held) (offBits lenBitsRaw : Word) (value : ℤ) (saturating : Bool) :
    Option (Outcome ℤ) :=
  match toU8LenBits lenBitsRaw with
  | .error message => some (dst.bytes, .error message)
  | .ok lenBits =>
      match encodeSigned lenBits value saturating with
      | none => none
      | some word =>
          setField dst offBits word lenBits "write_signed failed: serialisation buffer too small"

/-- `py_read_unsigned`; a saturated read stays inside the buffer. -/
def readUnsigned (src : Held) (offBits lenBitsRaw : Word) : Except String ℤ :=
  (toU8LenBits lenBitsRaw).map fun lenBits =>
    ((SizeT.getU64 (contents src.bytes) src.size offBits lenBits).toNat : ℤ)

def readSigned (src : Held) (offBits lenBitsRaw : Word) : Except String ℤ :=
  (toU8LenBits lenBitsRaw).map fun lenBits =>
    (SizeT.getI64 (contents src.bytes) src.size offBits lenBits).toInt

end LlvmDsdl.Runtime.Accelerator
