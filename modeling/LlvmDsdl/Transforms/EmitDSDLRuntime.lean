import LlvmDsdl.Runtime.SizeT

/-!
Contract: the bit primitives that the pass builds as IR.

Owns: the integer operations the built functions use; the byte accesses and
helpers of the builders; and the functions behind `copy_bits`, `get_bits`,
`set_uxx`, `set_ixx`, `get_uXX` and `get_iXX`, for a `size_t` of any width.

An index into a buffer is a bit offset divided by eight, so its sign is clear and
the address it selects is its unsigned value.
-/

namespace LlvmDsdl.Transforms.EmitDSDLRuntime

open LlvmDsdl.Library.Loop
open LlvmDsdl.Runtime (Byte Bytes)

variable {w n : ℕ}

def minui (a b : BitVec n) : BitVec n := if a < b then a else b

def maxui (a b : BitVec n) : BitVec n := if a < b then b else a

/-- `scf.for` with step one over `index`, which an integer enters with its sign. -/
def forLoop {σ : Type*} (lower upper : ℤ) (body : ℤ → σ → σ) (state : σ) : σ :=
  countingLoop (fun turn => body (lower + turn)) (upper - lower).toNat state

def loadByte (buffer : Bytes) (index : BitVec n) : Byte := buffer index.toNat

def storeByte (buffer : Bytes) (index : BitVec n) (value : Byte) : Bytes :=
  Function.update buffer index.toNat value

/-- Zero-extends to the target width. -/
def widen (value : BitVec n) (target : ℕ) : BitVec target := value.setWidth target

/-- Truncates or zero-extends, whichever way the widths run. -/
def resize (value : BitVec n) (target : ℕ) : BitVec target := value.setWidth target

def saturate (sizeBytes offset length : BitVec w) : BitVec w :=
  let sizeBits := sizeBytes * 8
  let reached := minui sizeBits offset
  let tail := sizeBits - reached
  minui length tail

/-- A stack slot, zeroed; nothing reads past the bytes it was given. -/
def scratch : Bytes := fun _ => 0

/-- The first `bytes` bytes as one little-endian integer. -/
def assembleLE (result : ℕ) (buffer : Bytes) (bytes : ℕ) : BitVec result :=
  countingLoop (fun index out =>
    let byte := loadByte buffer (BitVec.ofNat 64 index)
    out ||| (widen byte result <<< BitVec.ofNat result (index * 8))) bytes 0

/-- Writes `value` as `bytes` little-endian bytes. -/
def disassembleLE (buffer : Bytes) (value : BitVec 64) (bytes : ℕ) : Bytes :=
  countingLoop (fun index out =>
    let shifted := value >>> BitVec.ofNat 64 (index * 8)
    storeByte out (BitVec.ofNat 64 index) (shifted.setWidth 8)) bytes buffer

/-- What the loop of the unaligned path carries, and the memory it stores to. -/
structure CopyState (w : ℕ) where
  memory : Bytes
  sAt : BitVec w
  dAt : BitVec w

/-- The body of the `scf.while`. -/
def copyTurn (src : Bytes) (last : BitVec w) (state : CopyState w) : CopyState w :=
  let sMod := state.sAt % 8
  let dMod := state.dAt % 8
  let most := maxui sMod dMod
  let size := minui (8 - most) (last - state.sAt)
  let wide := resize size 32
  let mask : Byte := (((1#32 <<< wide) - 1#32) <<< resize dMod 32).setWidth 8
  let taken := (loadByte src (state.sAt / 8) >>> sMod.setWidth 8) <<< dMod.setWidth 8
  let destination := state.dAt / 8
  let keep := loadByte state.memory destination &&& (mask ^^^ -1)
  { memory := storeByte state.memory destination (keep ||| (taken &&& mask))
    sAt := state.sAt + size
    dAt := state.dAt + size }

/-- The `then` branch: whole bytes, then the bits of the last one. -/
def copyWhole (dst : Bytes) (dstOff length : BitVec w) (src : Bytes) (srcOff : BitVec w) : Bytes :=
  let bytes := length / 8
  let srcStart := srcOff / 8
  let dstStart := dstOff / 8
  let moved := forLoop 0 bytes.toInt (fun induction memory =>
    let position := BitVec.ofInt w induction
    storeByte memory (dstStart + position) (loadByte src (srcStart + position))) dst
  let spare := length % 8
  if spare ≠ 0 then
    let mask : Byte := ((1#32 <<< resize spare 32) - 1#32).setWidth 8
    let lastSrc := srcStart + bytes
    let lastDst := dstStart + bytes
    let keep := loadByte moved lastDst &&& (mask ^^^ -1)
    let take := loadByte src lastSrc &&& mask
    storeByte moved lastDst (keep ||| take)
  else moved

/-- What `buildCopyBits` defines. A turn of the loop takes at least one bit. -/
def copyBits (dst : Bytes) (dstOff length : BitVec w) (src : Bytes) (srcOff : BitVec w) : Bytes :=
  if srcOff % 8 = 0 ∧ dstOff % 8 = 0 then copyWhole dst dstOff length src srcOff
  else
    let last := srcOff + length
    (whileLoop (fun state => decide (state.sAt < last)) (copyTurn src last) length.toNat
      { memory := dst, sAt := srcOff, dAt := dstOff }).memory

def getBits (output buffer : Bytes) (size offset length : BitVec w) : Bytes :=
  let sat := saturate size offset length
  let fromByte := sat / 8
  let untilByte := (length + 7) / 8
  let cleared := forLoop fromByte.toInt untilByte.toInt (fun induction memory =>
    storeByte memory (BitVec.ofInt w induction) 0) output
  copyBits cleared 0 sat buffer offset

/-- The check of a writer whose bits have a length. -/
def tooSmall (sizeBytes offset length : BitVec w) : Bool :=
  decide (sizeBytes * 8 < offset + length)

def setInteger (buffer : Bytes) (size offset : BitVec w) (value : BitVec 64) (length : BitVec 8) :
    Bytes × BitVec 8 :=
  let width := widen length w
  if tooSmall size offset width then (buffer, -3)
  else
    let slot := disassembleLE scratch value 8
    let written := minui width 64
    (copyBits buffer offset written slot 0, 0)

/-- What `buildGetUnsigned` defines for a result of `bits` bits. -/
def getUnsigned (bits : ℕ) (buffer : Bytes) (size offset : BitVec w) (length : BitVec 8) :
    BitVec bits :=
  let width := widen length w
  let capped := minui width (BitVec.ofNat w bits)
  let taken := saturate size offset capped
  let slot := copyBits scratch 0 taken buffer offset
  assembleLE bits slot (bits / 8)

/-- What `buildGetSigned` defines for a result of `bits` bits. -/
def getSigned (bits : ℕ) (buffer : Bytes) (size offset : BitVec w) (width : BitVec 8) :
    BitVec bits :=
  let capped := minui width (BitVec.ofNat 8 bits)
  let raw := getUnsigned bits buffer size offset capped
  let wide := widen capped bits
  let slack := BitVec.ofNat bits bits - wide
  let up := raw <<< slack
  let down := up.sshiftRight' slack
  if wide = 0 then raw else down

end LlvmDsdl.Transforms.EmitDSDLRuntime
