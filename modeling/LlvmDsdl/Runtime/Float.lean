import Mathlib
import LlvmDsdl.Runtime.Primitives

/-!
Contract: the float primitives of the runtime header, on bit patterns.

Owns: the product of a binary32 pattern and a power of two; the binary16
conversion in both directions; the getters of the three widths; and the selection
of one for a float `dsdl.read_bits`.

Does not own float arithmetic beyond that product. A pattern is the bits of a
carrier, so a getter of 32 or 64 bits moves it unchanged.
-/

namespace LlvmDsdl.Runtime

/-- A significand moved right by `places`, to the nearest with ties to even. -/
def shiftRounded (significand : ℕ) (places : ℤ) : ℕ :=
  if places ≤ 0 then significand <<< (-places).toNat
  else
    let kept := significand >>> places.toNat
    let lost := significand % 2 ^ places.toNat
    let half := 2 ^ (places.toNat - 1)
    if half < lost ∨ (lost = half ∧ kept % 2 = 1) then kept + 1 else kept

/-- `bits` times `2 ^ power`, for a pattern that is finite and not negative. A significand that
rounds up to the next binade carries into the exponent field. -/
def mulPowerOfTwo (bits : BitVec 32) (power : ℤ) : BitVec 32 :=
  let field := (bits >>> 23).toNat
  let fraction := bits.toNat % 2 ^ 23
  let significand := if field = 0 then fraction else 2 ^ 23 + fraction
  let exponent : ℤ := (if field = 0 then -149 else (field : ℤ) - 150) + power
  if significand = 0 then 0
  else
    let leading : ℤ := (Nat.log2 significand : ℤ) + exponent
    if leading < -126 then BitVec.ofNat 32 (shiftRounded significand (-149 - exponent))
    else if 127 < leading then BitVec.ofNat 32 (255 <<< 23)
    else
      BitVec.ofNat 32 ((leading + 126).toNat <<< 23 +
        shiftRounded significand ((Nat.log2 significand : ℤ) - 23))

def float16Pack (value : BitVec 32) : BitVec 16 :=
  let roundMask : BitVec 32 := ~~~0x0FFF#32
  let f32inf : BitVec 32 := 255#32 <<< 23
  let f16inf : BitVec 32 := 31#32 <<< 23
  let sign := value &&& (1#32 <<< 31)
  let bits := value ^^^ sign
  let out : BitVec 16 :=
    if f32inf ≤ bits then
      if bits &&& 0x7FFFFF#32 ≠ 0 then 0x7E00#16
      else if f32inf < bits then 0x7FFF#16 else 0x7C00#16
    else
      -- the magic factor is the pattern `15 << 23`, which is 2 ^ (15 - 127)
      let scaled := mulPowerOfTwo (bits &&& roundMask) (15 - 127) - roundMask
      let bounded := if f16inf < scaled then f16inf else scaled
      (bounded >>> 13).setWidth 16
  out ||| (sign >>> 16).setWidth 16

def float16Unpack (value : BitVec 16) : BitVec 32 :=
  let infNan : BitVec 32 := 0x8F#32 <<< 23
  -- the magic factor is the pattern `0xEF << 23`, which is 2 ^ (0xEF - 127)
  let scaled := mulPowerOfTwo ((value &&& 0x7FFF#16).setWidth 32 <<< 13) (0xEF - 127)
  let magnitude := if infNan ≤ scaled then scaled ||| (0xFF#32 <<< 23) else scaled
  magnitude ||| ((value &&& 0x8000#16).setWidth 32 <<< 16)

def getF16 (buf : Bytes) (bufSizeBytes offBits : Word) : BitVec 32 :=
  float16Unpack ((getU16 buf bufSizeBytes offBits 16).setWidth 16)

def getF32 (buf : Bytes) (bufSizeBytes offBits : Word) : BitVec 32 :=
  (getU32 buf bufSizeBytes offBits 32).setWidth 32

def getF64 (buf : Bytes) (bufSizeBytes offBits : Word) : Word :=
  getU64 buf bufSizeBytes offBits 64

/-- `dsdl.read_bits` of a float carrier. -/
def readFloat (buf : Bytes) (bufSizeBytes bitOffset : Word) (width : ℕ) : Word :=
  match width with
  | 16 => (getF16 buf bufSizeBytes bitOffset).setWidth 64
  | 32 => (getF32 buf bufSizeBytes bitOffset).setWidth 64
  | _ => getF64 buf bufSizeBytes bitOffset

def IsFloatWidth (width : ℕ) : Prop := width = 16 ∨ width = 32 ∨ width = 64

instance (width : ℕ) : Decidable (IsFloatWidth width) := by
  unfold IsFloatWidth
  infer_instance

end LlvmDsdl.Runtime
