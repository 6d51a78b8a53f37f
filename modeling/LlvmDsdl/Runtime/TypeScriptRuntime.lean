import LlvmDsdl.Runtime.FastPaths
import LlvmDsdl.Runtime.AcceleratorAgreement

/-!
Contract: the integer writes of the TypeScript runtimes.

Owns: the integers a program holds in a `number` or a `bigint`; `writeUnsigned` and
`writeSigned`, which `dsdl_runtime.ts` and `dsdl_runtime_fast.ts` share; and that
they store what the pure-Python runtime stores.

A `number` is a safe integer here.
-/

namespace LlvmDsdl.Runtime.TypeScript

open LlvmDsdl.Runtime.Buffer

/-- An integer that a `number` tells from its neighbours. -/
structure SafeInteger where
  value : ℤ
  safe : |value| ≤ 2 ^ 53 - 1

inductive Integer where
  | number (held : SafeInteger)
  | bigint (value : ℤ)

/-- `toBigIntValue`: a safe integer is finite, and its own truncation. -/
def toBigIntValue : Integer → ℤ
  | .number held => held.value
  | .bigint value => value

def maskBits (lenBits : ℤ) : ℤ :=
  if lenBits ≤ 0 then 0 else (1 : ℤ) <<< lenBits.toNat - 1

def asUintN (bits : ℕ) (value : ℤ) : ℤ := value % 2 ^ bits

/-- `((value >> BigInt(i)) & 1n) === 1n`. -/
def bitOfBigInt (value : ℤ) (index : ℕ) : Bool := (value >>> index) % 2 == 1

def writeUnsignedBits (buf : Buffer) (offBits : ℕ) (lenBits value : ℤ) : Outcome Unit :=
  storeBits tooSmall (bitOfBigInt value) offBits lenBits.toNat 0 buf

def writeUnsigned (buf : Buffer) (offBits : ℕ) (lenBits : ℤ) (value : Integer)
    (saturating : Bool) : Outcome ℤ :=
  if lenBits ≤ 0 then (buf, .ok 0)
  else
    let max := maskBits lenBits
    let inValue := toBigIntValue value
    let encoded :=
      if saturating then if inValue < 0 then 0 else if max < inValue then max else inValue
      else asUintN lenBits.toNat inValue
    let written := writeUnsignedBits buf offBits lenBits encoded
    (written.1, written.2.map fun _ => 0)

def writeSigned (buf : Buffer) (offBits : ℕ) (lenBits : ℤ) (value : Integer) (saturating : Bool) :
    Outcome ℤ :=
  if lenBits ≤ 0 then (buf, .ok 0)
  else
    let inValue := toBigIntValue value
    let encoded :=
      if saturating then
        let min := -((1 : ℤ) <<< (lenBits - 1).toNat)
        let max := (1 : ℤ) <<< (lenBits - 1).toNat - 1
        if inValue < min then min else if max < inValue then max else inValue
      else inValue
    let written := writeUnsignedBits buf offBits lenBits (asUintN lenBits.toNat encoded)
    (written.1, written.2.map fun _ => 0)

theorem asUintN_eq_mask {lenBits : ℤ} (positive : ¬lenBits ≤ 0) (value : ℤ) :
    asUintN lenBits.toNat value = value % (Python.maskBits lenBits + 1) := by
  have modulus : Python.maskBits lenBits + 1 = 2 ^ lenBits.toNat := by
    rw [Python.maskBits, if_neg positive, Int.shiftLeft_eq, one_mul]
    omega
  rw [asUintN, modulus]

theorem writeUnsigned_eq_python (buf : Buffer) (offBits : ℕ) (lenBits : ℤ) (value : Integer)
    (saturating : Bool) :
    writeUnsigned buf offBits lenBits value saturating =
      Python.writeUnsigned buf offBits lenBits (toBigIntValue value) saturating := by
  rw [writeUnsigned, Python.writeUnsigned]
  by_cases nothing : lenBits ≤ 0
  · rw [if_pos nothing, if_pos nothing]
  · rw [if_neg nothing, if_neg nothing, Python.encodeUnsigned]
    dsimp only
    rw [asUintN_eq_mask nothing]
    rfl

theorem writeSigned_eq_python (buf : Buffer) (offBits : ℕ) (lenBits : ℤ) (value : Integer)
    (saturating : Bool) :
    writeSigned buf offBits lenBits value saturating =
      Python.writeSigned buf offBits lenBits (toBigIntValue value) saturating := by
  rw [writeSigned, Python.writeSigned]
  by_cases nothing : lenBits ≤ 0
  · rw [if_pos nothing, if_pos nothing]
  · rw [if_neg nothing, if_neg nothing, Python.writeUnsigned, if_neg nothing,
      Python.encodeUnsigned, if_neg Bool.false_ne_true]
    dsimp only
    rw [asUintN_eq_mask nothing]
    rfl

end LlvmDsdl.Runtime.TypeScript
