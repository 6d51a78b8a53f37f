import LlvmDsdl.Runtime.PythonRuntime

/-!
Contract: the byte-aligned copy and extraction of the scripting and Rust runtimes.

Owns: `copy_bits` and `extract_bits` of `_dsdl_runtime_fast.py`; both runtimes of
TypeScript; and the two copies of `dsdl_runtime.rs`, with its `get_bits`, for a
`usize` of any width.

The portable Python runtime is `PythonRuntime`. Where the two runtimes of a
language share a function, it is defined once.
-/

namespace LlvmDsdl.Runtime

open LlvmDsdl.Runtime.Buffer

/-- `bytes[start:stop]` in Python, `slice(start, stop)` in JavaScript: a negative end counts from
the end. -/
def Buffer.slice (buffer : Buffer) (start : ℕ) (stop : ℤ) : Buffer :=
  let last := if stop < 0 then (stop + buffer.length).toNat else stop.toNat
  (buffer.drop start).take (last - start)

namespace PythonFast

def copyBits (dst : Buffer) (dstOffBits : ℕ) (source : Buffer) (srcOffBits : ℕ) (lenBits : ℤ) :
    Outcome Unit :=
  if lenBits ≤ 0 then (dst, .ok ())
  else if dstOffBits % 8 = 0 ∧ srcOffBits % 8 = 0 ∧ lenBits % 8 = 0 then
    let dstStart := dstOffBits / 8
    let srcStart := srcOffBits / 8
    let byteLen := (lenBits / 8).toNat
    if dst.length < dstStart + byteLen ∨ source.length < srcStart + byteLen then
      (dst, .error Python.tooSmall)
    else (splice dst dstStart (source.slice srcStart (srcStart + byteLen)), .ok ())
  else
    Python.setBits dst dstOffBits lenBits.toNat fun index =>
      Python.getBit source (srcOffBits + index)

def extractBits (source : Buffer) (srcOffBits : ℕ) (lenBits : ℤ) : Except String Buffer :=
  if srcOffBits % 8 = 0 ∧ lenBits % 8 = 0 then
    let srcStart := srcOffBits / 8
    let byteLen := lenBits / 8
    if (source.length : ℤ) < srcStart + byteLen then .error Python.tooSmall
    else .ok (source.slice srcStart (srcStart + byteLen))
  else
    let out := List.replicate (Python.byteLengthForBits lenBits) 0
    let copied := copyBits out 0 source srcOffBits lenBits
    copied.2.map fun _ => copied.1

end PythonFast

namespace TypeScript

def byteLengthForBits (totalBits : ℤ) : ℕ :=
  if totalBits ≤ 0 then 0 else ((totalBits + 7) / 8).toNat

/-- The text of the `Error` a store outside the buffer throws. -/
def tooSmall : String := "serialisation buffer too small"

def getRawBit (buf : Buffer) (offBits : ℕ) : Bool :=
  let byteIndex := offBits / 8
  let bitIndex := offBits % 8
  if buf.length ≤ byteIndex then false else (contents buf byteIndex >>> bitIndex) &&& 1 == 1

/-- The loop over `setRawBit`, which is `storeBit` with that text, that both copies end in. -/
def copyRawBits (dst : Buffer) (dstOffBits : ℕ) (src : Buffer) (srcOffBits : ℕ) (lenBits : ℤ) :
    Outcome Unit :=
  storeBits tooSmall (fun index => getRawBit src (srcOffBits + index)) dstOffBits lenBits.toNat 0
    dst

/-- `copyBits` of `dsdl_runtime.ts`. -/
def copyBits (dst : Buffer) (dstOffBits : ℕ) (src : Buffer) (srcOffBits : ℕ) (lenBits : ℤ) :
    Outcome Unit :=
  if lenBits ≤ 0 then (dst, .ok ()) else copyRawBits dst dstOffBits src srcOffBits lenBits

/-- `extractBits` of `dsdl_runtime.ts`. -/
def extractBits (src : Buffer) (srcOffBits : ℕ) (lenBits : ℤ) : Except String Buffer :=
  let out := List.replicate (byteLengthForBits lenBits) 0
  let copied := copyBits out 0 src srcOffBits lenBits
  copied.2.map fun _ => copied.1

/-- `copyBits` of `dsdl_runtime_fast.ts`, for two different arrays. -/
def copyBitsFast (dst : Buffer) (dstOffBits : ℕ) (src : Buffer) (srcOffBits : ℕ) (lenBits : ℤ) :
    Outcome Unit :=
  if lenBits ≤ 0 then (dst, .ok ())
  else
    let dstStart := dstOffBits / 8
    let srcStart := srcOffBits / 8
    let byteLen := (lenBits / 8).toNat
    if (dstOffBits % 8 = 0 ∧ srcOffBits % 8 = 0 ∧ lenBits % 8 = 0) ∧
        dstStart + byteLen ≤ dst.length ∧ srcStart + byteLen ≤ src.length then
      (splice dst dstStart (src.slice srcStart (srcStart + byteLen)), .ok ())
    else copyRawBits dst dstOffBits src srcOffBits lenBits

def extractBitsFast (src : Buffer) (srcOffBits : ℕ) (lenBits : ℤ) : Except String Buffer :=
  let srcStart := srcOffBits / 8
  let byteLen := lenBits / 8
  if (srcOffBits % 8 = 0 ∧ lenBits % 8 = 0) ∧ srcStart + byteLen ≤ (src.length : ℤ) then
    .ok (src.slice srcStart (srcStart + byteLen))
  else
    let out := List.replicate (byteLengthForBits lenBits) 0
    let copied := copyBitsFast out 0 src srcOffBits lenBits
    copied.2.map fun _ => copied.1

end TypeScript

namespace Rust

variable {w : ℕ}

/-- The panic of an addition that leaves `usize`. -/
def addOverflow : String := "attempt to add with overflow"

def chooseMin (a b : ℕ) : ℕ := if a < b then a else b

/-- `a + b` in `usize`. -/
def checkedAdd (w a b : ℕ) : Except String ℕ :=
  if a + b < 2 ^ w then .ok (a + b) else .error addOverflow

/-- The largest `usize` where the product would leave it. -/
def saturatingMul (w a b : ℕ) : ℕ := min (a * b) (2 ^ w - 1)

def saturateFragmentBits (w bufferSizeBytes fragmentOffsetBits fragmentLengthBits : ℕ) : ℕ :=
  let sizeBits := saturatingMul w bufferSizeBytes 8
  let tailBits := sizeBits - chooseMin sizeBits fragmentOffsetBits
  chooseMin fragmentLengthBits tailBits

/-- The loop of `copy_bits_portable` from bit `index` of the run on: it ends where either buffer
does. -/
def portableLoop (w dstOffsetBits : ℕ) (src : Buffer) (srcOffsetBits : ℕ) :
    ℕ → ℕ → Buffer → Outcome Unit
  | 0, _, dst => (dst, .ok ())
  | remaining + 1, index, dst =>
      match checkedAdd w srcOffsetBits index with
      | .error panic => (dst, .error panic)
      | .ok srcBitIndex =>
          if src.length ≤ srcBitIndex / 8 then (dst, .ok ())
          else
            match checkedAdd w dstOffsetBits index with
            | .error panic => (dst, .error panic)
            | .ok dstBitIndex =>
                if dst.length ≤ dstBitIndex / 8 then (dst, .ok ())
                else
                  let bit := (contents src (srcBitIndex / 8) >>> (srcBitIndex % 8)) &&& 1 != 0
                  let stored := withBit (contents dst (dstBitIndex / 8)) (dstBitIndex % 8) bit
                  portableLoop w dstOffsetBits src srcOffsetBits remaining (index + 1)
                    (dst.set (dstBitIndex / 8) stored)

def copyBitsPortable (dst : Buffer) (dstOffsetBits lengthBits : BitVec w) (src : Buffer)
    (srcOffsetBits : BitVec w) : Outcome Unit :=
  portableLoop w dstOffsetBits.toNat src srcOffsetBits.toNat lengthBits.toNat 0 dst

def copyBitsRuntimeFast (dst : Buffer) (dstOffsetBits lengthBits : BitVec w) (src : Buffer)
    (srcOffsetBits : BitVec w) : Outcome Unit :=
  if lengthBits = 0 then (dst, .ok ())
  else
    let dstStart := dstOffsetBits.toNat / 8
    let srcStart := srcOffsetBits.toNat / 8
    if (dstOffsetBits ||| srcOffsetBits ||| lengthBits) &&& 7 = 0 ∧
        dstStart ≤ dst.length ∧ srcStart ≤ src.length then
      let dstAvailable := dst.length - dstStart
      let srcAvailable := src.length - srcStart
      let requestedBytes := lengthBits.toNat / 8
      let copyBytes := chooseMin requestedBytes (chooseMin dstAvailable srcAvailable)
      if 0 < copyBytes then
        (splice dst dstStart ((src.drop srcStart).take copyBytes), .ok ())
      else (dst, .ok ())
    else copyBitsPortable dst dstOffsetBits lengthBits src srcOffsetBits

/-- `copy_bits`, with and without the feature `runtime-fast`. -/
def copyBits (runtimeFast : Bool) (dst : Buffer) (dstOffsetBits lengthBits : BitVec w)
    (src : Buffer) (srcOffsetBits : BitVec w) : Outcome Unit :=
  if runtimeFast then copyBitsRuntimeFast dst dstOffsetBits lengthBits src srcOffsetBits
  else copyBitsPortable dst dstOffsetBits lengthBits src srcOffsetBits

def getBits (runtimeFast : Bool) (output buf : Buffer) (offBits lenBits : BitVec w) :
    Outcome Unit :=
  let satBits := saturateFragmentBits w buf.length offBits.toNat lenBits.toNat
  let outLen := (lenBits.toNat + 7) / 8
  let cleared := output.mapIdx fun index byte => if index < outLen then 0 else byte
  copyBits runtimeFast cleared 0 (BitVec.ofNat w satBits) buf offBits

end Rust

end LlvmDsdl.Runtime
