import LlvmDsdl.Runtime.Primitives
import LlvmDsdl.Transforms.EmitDSDLRuntime

/-!
Contract: the emitted primitives against those of the runtime header.

Owns: that the emitted transfer is the header's on every input; exactly when the
two `get_bits` leave the same output; that the emitted integer writer and readers
are the header's, error codes included; and exactly when the transfer of both
moves the run it is asked for.
-/

namespace LlvmDsdl.Transforms.EmitDSDLRuntime

open LlvmDsdl.Library.Loop
open LlvmDsdl.Runtime (Byte Bytes bitAt maskOf memmove memset copyAligned)
open LlvmDsdl.Runtime (SizeT.toNat_small SizeT.toNat_div_eight SizeT.toNat_mod_eight)

variable {w : ℕ}

theorem minui_eq {n : ℕ} (a b : BitVec n) : minui a b = Runtime.SizeT.chooseMin a b := rfl

theorem toNat_minui {n : ℕ} (a b : BitVec n) : (minui a b).toNat = min a.toNat b.toNat :=
  Runtime.SizeT.toNat_chooseMin a b

theorem toNat_maxui {n : ℕ} (a b : BitVec n) : (maxui a b).toNat = max a.toNat b.toNat := by
  rw [maxui]
  by_cases less : a < b
  · rw [if_pos less]
    have := BitVec.lt_def.mp less
    omega
  · rw [if_neg less]
    have := BitVec.le_def.mp (BitVec.not_lt.mp less)
    omega

theorem saturate_eq (size offset length : BitVec w) :
    saturate size offset length = Runtime.SizeT.saturateFragmentBits size offset length := rfl

theorem xor_ones (mask : Byte) : mask ^^^ -1 = ~~~mask := by
  have ones : (-1 : Byte) = BitVec.allOnes 8 := by decide
  rw [ones, BitVec.xor_allOnes]

private theorem mask_eq : ∀ size < 9, ∀ shift < 8,
    ((((1#32 <<< BitVec.ofNat 32 size) - 1#32) <<< BitVec.ofNat 32 shift).setWidth 8 : Byte) =
      maskOf size shift := by
  decide

theorem resize_eq {n : ℕ} (value : BitVec n) (target : ℕ) :
    resize value target = BitVec.ofNat target value.toNat := by
  rw [resize, BitVec.ofNat_toNat]

/-- The two loops hold the same memory and offsets. -/
structure Same (emitted : CopyState w) (header : Runtime.SizeT.CopyState w) : Prop where
  memory : emitted.memory = header.dst
  source : emitted.sAt = header.srcOff
  destination : emitted.dAt = header.dstOff

private theorem copyTurn_same (wide : 8 ≤ w) (src : Bytes) (last : BitVec w)
    {emitted : CopyState w} {header : Runtime.SizeT.CopyState w} (same : Same emitted header) :
    Same (copyTurn src last emitted) (Runtime.SizeT.copyTurn src last header) := by
  rcases emitted with ⟨memory, sAt, dAt⟩
  rcases header with ⟨dst, dstOff, srcOff⟩
  rcases same with ⟨rfl, rfl, rfl⟩
  have eight : (8 : BitVec w).toNat = 8 := SizeT.toNat_small wide (by decide)
  have sMod := SizeT.toNat_mod_eight wide sAt
  have dMod := SizeT.toNat_mod_eight wide dAt
  have most : (maxui (sAt % 8) (dAt % 8)).toNat = max (sAt.toNat % 8) (dAt.toNat % 8) := by
    rw [toNat_maxui, sMod, dMod]
  have left : (8 - maxui (sAt % 8) (dAt % 8)).toNat =
      8 - max (sAt.toNat % 8) (dAt.toNat % 8) := by
    rw [BitVec.toNat_sub_of_le (BitVec.le_def.mpr (by omega)), most, eight]
  have sizeNat : (minui (8 - maxui (sAt % 8) (dAt % 8)) (last - sAt)).toNat =
      min (8 - max (sAt.toNat % 8) (dAt.toNat % 8)) (last - sAt).toNat := by
    rw [toNat_minui, left]
  have sizeWord := Runtime.SizeT.ofNat_of_toNat _ sizeNat
  have masks := mask_eq (min (8 - max (sAt.toNat % 8) (dAt.toNat % 8)) (last - sAt).toNat)
    (by omega) (dAt.toNat % 8) (by omega)
  have byteShift (value : BitVec w) : (value % 8).setWidth 8 = BitVec.ofNat 8 (value.toNat % 8) := by
    rw [← SizeT.toNat_mod_eight wide, BitVec.ofNat_toNat]
  have shiftNat (value : BitVec w) : (BitVec.ofNat 8 (value.toNat % 8)).toNat = value.toNat % 8 := by
    rw [BitVec.toNat_ofNat]
    omega
  have taken (byte : Byte) : (byte >>> (sAt % 8).setWidth 8) <<< (dAt % 8).setWidth 8 =
      (byte >>> (sAt.toNat % 8)) <<< (dAt.toNat % 8) := by
    rw [byteShift, byteShift, BitVec.shiftLeft_eq', BitVec.ushiftRight_eq', shiftNat, shiftNat]
  have stored : (copyTurn src last { memory := memory, sAt := sAt, dAt := dAt }).memory =
      (Runtime.SizeT.copyTurn src last { dst := memory, dstOff := dAt, srcOff := sAt }).dst := by
    simp only [copyTurn, Runtime.SizeT.copyTurn, loadByte, storeByte, xor_ones, resize_eq, sizeNat,
      dMod, masks, SizeT.toNat_div_eight wide, taken]
  constructor
  · exact stored
  · simp only [copyTurn, Runtime.SizeT.copyTurn, sizeWord]
  · simp only [copyTurn, Runtime.SizeT.copyTurn, sizeWord]

private theorem memmove_succ (dst src : Bytes) (dstIndex srcIndex count : ℕ) :
    Function.update (memmove dst dstIndex src srcIndex count) (dstIndex + count)
        (src (srcIndex + count)) =
      memmove dst dstIndex src srcIndex (count + 1) := by
  funext index
  by_cases here : index = dstIndex + count
  · have moved : index - dstIndex = count := by omega
    rw [here, Function.update_self, memmove, if_pos (by omega), ← here, moved]
  · rw [Function.update_of_ne here, memmove, memmove]
    by_cases inside : dstIndex ≤ index ∧ index < dstIndex + count
    · rw [if_pos inside, if_pos (by omega)]
    · rw [if_neg inside, if_neg (by omega)]

private theorem memset_succ (dst : Bytes) (dstIndex count : ℕ) (value : Byte) :
    Function.update (memset dst dstIndex value count) (dstIndex + count) value =
      memset dst dstIndex value (count + 1) := by
  funext index
  by_cases here : index = dstIndex + count
  · rw [here, Function.update_self, memset, if_pos (by omega)]
  · rw [Function.update_of_ne here, memset, memset]
    by_cases inside : dstIndex ≤ index ∧ index < dstIndex + count
    · rw [if_pos inside, if_pos (by omega)]
    · rw [if_neg inside, if_neg (by omega)]

private theorem toInt_div_eight (wide : 8 ≤ w) (value : BitVec w) :
    (value / 8).toInt = ((value.toNat / 8 : ℕ) : ℤ) := by
  have inWord := value.isLt
  have quotient := SizeT.toNat_div_eight wide value
  rw [BitVec.toInt_eq_toNat_of_lt (by omega), quotient]

private theorem forLoop_nat {σ : Type*} (first stop : ℕ) (body : ℤ → σ → σ) (state : σ) :
    forLoop (first : ℤ) (stop : ℤ) body state =
      countingLoop (fun turn => body ((first + turn : ℕ) : ℤ)) (stop - first) state := by
  have turns : ((stop : ℤ) - (first : ℤ)).toNat = stop - first := by omega
  rw [forLoop, turns]
  apply countingLoop_congr
  intro index _ state
  rw [Int.natCast_add]

private theorem toNat_ofInt_small (value : ℕ) (small : value < 2 ^ w) :
    (BitVec.ofInt w (value : ℤ)).toNat = value := by
  rw [BitVec.ofInt_natCast, BitVec.toNat_ofNat, Nat.mod_eq_of_lt small]

private theorem byteLoop_eq_memmove (wide : 8 ≤ w) (dst : Bytes) (dstOff length : BitVec w)
    (src : Bytes) (srcOff : BitVec w) :
    forLoop 0 (length / 8).toInt (fun induction memory =>
        storeByte memory (dstOff / 8 + BitVec.ofInt w induction)
          (loadByte src (srcOff / 8 + BitVec.ofInt w induction))) dst =
      memmove dst (dstOff.toNat / 8) src (srcOff.toNat / 8) (length.toNat / 8) := by
  have ⟨unit, positive, whole⟩ := Runtime.SizeT.two_pow_wide wide
  have := dstOff.isLt
  have := srcOff.isLt
  have := length.isLt
  have counted := forLoop_nat 0 (length.toNat / 8) (fun induction memory =>
    storeByte memory (dstOff / 8 + BitVec.ofInt w induction)
      (loadByte src (srcOff / 8 + BitVec.ofInt w induction))) dst
  rw [Nat.sub_zero] at counted
  rw [toInt_div_eight wide]
  refine counted.trans ?_
  apply @countingLoop_keeps _ _ fun (turns : ℕ) (memory : Bytes) =>
    memory = memmove dst (dstOff.toNat / 8) src (srcOff.toNat / 8) turns
  · intro index inside memory before
    have position : (BitVec.ofInt w ((0 + index : ℕ) : ℤ)).toNat = index := by
      rw [Nat.zero_add, toNat_ofInt_small index (by omega)]
    have target : (dstOff / 8 + BitVec.ofInt w ((0 + index : ℕ) : ℤ)).toNat =
        dstOff.toNat / 8 + index := by
      rw [BitVec.toNat_add, position, SizeT.toNat_div_eight wide, Nat.mod_eq_of_lt (by omega)]
    have origin : (srcOff / 8 + BitVec.ofInt w ((0 + index : ℕ) : ℤ)).toNat =
        srcOff.toNat / 8 + index := by
      rw [BitVec.toNat_add, position, SizeT.toNat_div_eight wide, Nat.mod_eq_of_lt (by omega)]
    rw [storeByte, loadByte, target, origin, before, memmove_succ]
  · funext index
    rw [memmove, if_neg (by omega)]

private theorem copyWhole_eq (wide : 8 ≤ w) (dst : Bytes) (dstOff length : BitVec w) (src : Bytes)
    (srcOff : BitVec w) :
    copyWhole dst dstOff length src srcOff =
      copyAligned dst dstOff.toNat length.toNat src srcOff.toNat := by
  have ⟨unit, positive, whole⟩ := Runtime.SizeT.two_pow_wide wide
  have := dstOff.isLt
  have := srcOff.isLt
  have := length.isLt
  have spareNat := SizeT.toNat_mod_eight wide length
  simp only [copyWhole, copyAligned]
  rw [byteLoop_eq_memmove wide]
  by_cases spare : length.toNat % 8 = 0
  · have none : length % 8 = 0 := by
      apply BitVec.eq_of_toNat_eq
      rw [spareNat, spare]
      exact BitVec.toNat_zero.symm
    rw [if_pos spare, if_neg (not_not_intro none)]
  · have some : length % 8 ≠ 0 := by
      intro none
      rw [none] at spareNat
      exact spare (spareNat.symm.trans BitVec.toNat_zero)
    have mask := mask_eq (length.toNat % 8) (by omega) 0 (by omega)
    have unshifted (value : BitVec 32) : value <<< BitVec.ofNat 32 0 = value :=
      BitVec.shiftLeft_zero value
    rw [unshifted] at mask
    have lastSrc : (srcOff / 8 + length / 8).toNat = srcOff.toNat / 8 + length.toNat / 8 := by
      rw [BitVec.toNat_add, SizeT.toNat_div_eight wide, SizeT.toNat_div_eight wide,
        Nat.mod_eq_of_lt (by omega)]
    have lastDst : (dstOff / 8 + length / 8).toNat = dstOff.toNat / 8 + length.toNat / 8 := by
      rw [BitVec.toNat_add, SizeT.toNat_div_eight wide, SizeT.toNat_div_eight wide,
        Nat.mod_eq_of_lt (by omega)]
    rw [if_neg spare, if_pos some]
    simp only [storeByte, loadByte, lastSrc, lastDst, xor_ones, resize_eq, spareNat, mask]

theorem copyBits_eq_header (wide : 8 ≤ w) (dst : Bytes) (dstOff length : BitVec w) (src : Bytes)
    (srcOff : BitVec w) :
    copyBits dst dstOff length src srcOff =
      Runtime.SizeT.copyBits dst dstOff length src srcOff := by
  have zeroMod (value : BitVec w) : value % 8 = 0 ↔ value.toNat % 8 = 0 := by
    rw [← SizeT.toNat_mod_eight wide, ← BitVec.toNat_inj]
    exact Iff.rfl
  rw [copyBits, Runtime.SizeT.copyBits]
  by_cases aligned : srcOff.toNat % 8 = 0 ∧ dstOff.toNat % 8 = 0
  · rw [if_pos aligned, if_pos ⟨(zeroMod _).mpr aligned.1, (zeroMod _).mpr aligned.2⟩,
      copyWhole_eq wide]
  · have emittedUnaligned : ¬(srcOff % 8 = 0 ∧ dstOff % 8 = 0) := fun both =>
      aligned ⟨(zeroMod _).mp both.1, (zeroMod _).mp both.2⟩
    rw [if_neg aligned, if_neg emittedUnaligned, Runtime.SizeT.copyLoop]
    apply Same.memory
    apply whileLoop_related
    · intro emitted header same
      rw [same.source]
    · intro emitted header same _
      exact copyTurn_same wide src _ same
    · exact ⟨rfl, rfl, rfl⟩

private theorem clearLoop_eq_memset (wide : 8 ≤ w) (output : Bytes) (first stop : BitVec w) :
    forLoop (first / 8).toInt (stop / 8).toInt (fun induction memory =>
        storeByte memory (BitVec.ofInt w induction) 0) output =
      memset output (first.toNat / 8) 0 (stop.toNat / 8 - first.toNat / 8) := by
  have := stop.isLt
  rw [toInt_div_eight wide, toInt_div_eight wide, forLoop_nat]
  apply @countingLoop_keeps _ _ fun (turns : ℕ) (memory : Bytes) =>
    memory = memset output (first.toNat / 8) 0 turns
  · intro index inside memory before
    have position : (BitVec.ofInt w ((first.toNat / 8 + index : ℕ) : ℤ)).toNat =
        first.toNat / 8 + index := toNat_ofInt_small _ (by omega)
    rw [storeByte, position, before, memset_succ]
  · funext index
    rw [memset, if_neg (by omega)]

private theorem untilByte_cases (wide : 8 ≤ w) (length : BitVec w) :
    (length.toNat + 7 < 2 ^ w ∧ (length + 7).toNat = length.toNat + 7) ∨
      (2 ^ w ≤ length.toNat + 7 ∧ (length + 7).toNat < 7) := by
  have seven : (7 : BitVec w).toNat = 7 := SizeT.toNat_small wide (by decide)
  have ⟨unit, positive, whole⟩ := Runtime.SizeT.two_pow_wide wide
  have := length.isLt
  rw [BitVec.toNat_add, seven]
  by_cases wraps : length.toNat + 7 < 2 ^ w
  · exact Or.inl ⟨wraps, Nat.mod_eq_of_lt wraps⟩
  · right
    rw [Nat.mod_eq_sub_mod (by omega), Nat.mod_eq_of_lt (by omega)]
    constructor
    · omega
    · omega

private theorem getBits_cleared (wide : 8 ≤ w) (output buffer : Bytes)
    (size offset length : BitVec w) :
    getBits output buffer size offset length =
      Runtime.SizeT.copyBits
        (memset output ((Runtime.SizeT.saturateFragmentBits size offset length).toNat / 8) 0
          ((length + 7).toNat / 8 -
            (Runtime.SizeT.saturateFragmentBits size offset length).toNat / 8))
        0 (Runtime.SizeT.saturateFragmentBits size offset length) buffer offset := by
  rw [getBits, copyBits_eq_header wide, clearLoop_eq_memset wide, saturate_eq]

theorem getBits_eq_iff (wide : 8 ≤ w) (size offset length : BitVec w) :
    (∀ output buffer, getBits output buffer size offset length =
        Runtime.SizeT.getBits output buffer size offset length) ↔
      length.toNat + 7 < 2 ^ w ∨
        (Runtime.SizeT.saturateFragmentBits size offset length).toNat < 8 := by
  have ⟨unit, positive, whole⟩ := Runtime.SizeT.two_pow_wide wide
  have saturated := Runtime.SizeT.toNat_saturateFragmentBits size offset length
  have counted := Runtime.SizeT.counted_saturated size offset length
  generalize satIs : Runtime.SizeT.saturateFragmentBits size offset length = sat at *
  have := sat.isLt
  have fromByte : (BitVec.ofNat w (sat.toNat / 8)).toNat = sat.toNat / 8 := by
    rw [BitVec.toNat_ofNat, Nat.mod_eq_of_lt (by omega)]
  have untilByte := SizeT.toNat_div_eight wide (length + 7)
  constructor
  · intro same
    by_contra apart
    rcases untilByte_cases wide length with ⟨fits, _⟩ | ⟨_, short⟩
    · exact apart (Or.inl fits)
    · -- the header clears from byte `sat / 8` on, the emitted loop is empty
      have readable : 8 ≤ sat.toNat := by omega
      have start : (0 : BitVec w).toNat = 0 := BitVec.toNat_zero
      have header : ((length + 7) / 8 - BitVec.ofNat w (sat.toNat / 8)).toNat ≠ 0 := by
        rw [BitVec.toNat_sub, fromByte, untilByte, Nat.mod_eq_of_lt (by omega)]
        omega
      have sides := congrFun (same (fun _ => 255) fun _ => 0) (sat.toNat / 8)
      have moved := Runtime.SizeT.moves_of_safe wide (Or.inr counted)
      have bits := congrArg (fun byte : Byte => byte.getLsbD 7) sides
      rw [← Runtime.bitAt_mul_add _ _ (by decide), ← Runtime.bitAt_mul_add _ _ (by decide),
        getBits_cleared wide, Runtime.SizeT.getBits, satIs] at bits
      rw [moved, moved, start, if_neg (by omega), if_neg (by omega),
        Runtime.bitAt_mul_add _ _ (by decide), Runtime.bitAt_mul_add _ _ (by decide),
        memset, memset, if_neg (by omega), if_pos (by omega)] at bits
      exact absurd bits (by decide)
  · intro safe output buffer
    have ordered : sat.toNat / 8 ≤ (length + 7).toNat / 8 := by
      rcases untilByte_cases wide length with ⟨_, sum⟩ | ⟨wraps, _⟩
      · omega
      · omega
    have counts : ((length + 7) / 8 - BitVec.ofNat w (sat.toNat / 8)).toNat =
        (length + 7).toNat / 8 - sat.toNat / 8 := by
      rw [BitVec.toNat_sub_of_le (BitVec.le_def.mpr (by omega)), fromByte, untilByte]
    rw [getBits_cleared wide, Runtime.SizeT.getBits, satIs, counts]

private theorem disassembleLE_eq (value : BitVec 64) :
    disassembleLE scratch value 8 = Runtime.SizeT.bytesOf value := by
  have stored (count : ℕ) (few : count ≤ 8) : ∀ index,
      disassembleLE scratch value count index =
        if index < count then Runtime.SizeT.bytesOf value index else 0 := by
    induction count with
    | zero =>
        intro index
        rw [if_neg (Nat.not_lt_zero index)]
        rfl
    | succ count ih =>
        intro index
        have place : (BitVec.ofNat 64 count).toNat = count := by
          rw [BitVec.toNat_ofNat, Nat.mod_eq_of_lt (by omega)]
        have amount : (BitVec.ofNat 64 (count * 8)).toNat = 8 * count := by
          rw [BitVec.toNat_ofNat, Nat.mod_eq_of_lt (by omega), Nat.mul_comm]
        rw [disassembleLE, countingLoop]
        show storeByte (disassembleLE scratch value count) _ _ index = _
        rw [storeByte, place, BitVec.ushiftRight_eq', amount]
        by_cases here : index = count
        · rw [here, Function.update_self, if_pos (Nat.lt_succ_self count)]
          rfl
        · rw [Function.update_of_ne here, ih (by omega)]
          by_cases before : index < count
          · rw [if_pos before, if_pos (by omega)]
          · rw [if_neg before, if_neg (by omega)]
  funext index
  rw [stored 8 (Nat.le_refl 8)]
  by_cases inside : index < 8
  · rw [if_pos inside]
  · rw [if_neg inside, Runtime.SizeT.bytesOf, BitVec.ushiftRight_eq_zero (by omega)]
    rfl

private theorem assembleLE_eq {bits : ℕ} (buffer : Bytes) {count : ℕ} (inside : 8 * count ≤ bits)
    (narrow : bits ≤ 64) :
    assembleLE bits buffer count = Runtime.SizeT.littleEndian bits buffer count := by
  induction count with
  | zero => rfl
  | succ count ih =>
      have place : (BitVec.ofNat 64 count).toNat = count := by
        rw [BitVec.toNat_ofNat, Nat.mod_eq_of_lt (by omega)]
      have grows : bits < 2 ^ bits := Nat.lt_two_pow_self
      have amount : (BitVec.ofNat bits (count * 8)).toNat = 8 * count := by
        rw [BitVec.toNat_ofNat, Nat.mod_eq_of_lt (by omega), Nat.mul_comm]
      rw [Runtime.SizeT.littleEndian, ← ih (by omega)]
      show assembleLE bits buffer count ||| (loadByte buffer (BitVec.ofNat 64 count)).setWidth bits <<<
        BitVec.ofNat bits (count * 8) = _
      rw [loadByte, place, BitVec.shiftLeft_eq', amount]

theorem setInteger_eq_header (wide : 8 ≤ w) (buffer : Bytes) (size offset : BitVec w)
    (value : BitVec 64) (length : BitVec 8) :
    setInteger buffer size offset value length =
      Runtime.SizeT.setUxx buffer size offset value length := by
  rw [setInteger, Runtime.SizeT.setUxx, tooSmall, widen]
  by_cases short : size * 8 < offset + length.setWidth w
  · rw [if_pos short, if_pos (decide_eq_true short)]
    rfl
  · rw [if_neg short, if_neg (by simpa using short)]
    dsimp only
    rw [copyBits_eq_header wide, disassembleLE_eq, minui_eq]

theorem getUnsigned_eq_header (wide : 8 ≤ w) {bits : ℕ} (narrow : bits ≤ 64) (buffer : Bytes)
    (size offset : BitVec w) (length : BitVec 8) :
    getUnsigned bits buffer size offset length =
      Runtime.SizeT.getUnsigned bits buffer size offset length := by
  rw [getUnsigned, Runtime.SizeT.getUnsigned, assembleLE_eq _ (by omega) narrow, copyBits_eq_header wide, saturate_eq, minui_eq, widen]
  rfl

private theorem getUnsigned_clear (wide : 8 ≤ w) {bits : ℕ} (narrow : bits ≤ 64) (buffer : Bytes)
    (size offset : BitVec w) (length : BitVec 8) {bit : ℕ} (beyond : min length.toNat bits ≤ bit) :
    (Runtime.SizeT.getUnsigned bits buffer size offset length).getLsbD bit = false := by
  have ⟨unit, positive, whole⟩ := Runtime.SizeT.two_pow_wide wide
  rw [Runtime.SizeT.getUnsigned, Runtime.SizeT.getLsbD_littleEndian, Bool.and_eq_false_iff,
    Bool.and_eq_false_iff]
  refine Or.inr (Or.inr ?_)
  have requested : (Runtime.SizeT.chooseMin (length.setWidth w) (BitVec.ofNat w bits)).toNat =
      min length.toNat bits := by
    have := length.isLt
    rw [Runtime.SizeT.toNat_chooseMin, SizeT.toNat_small wide (by omega), BitVec.toNat_setWidth,
      Nat.mod_eq_of_lt (by omega)]
  have taken := Runtime.SizeT.toNat_saturateFragmentBits size offset
    (Runtime.SizeT.chooseMin (length.setWidth w) (BitVec.ofNat w bits))
  have start : (0 : BitVec w).toNat = 0 := BitVec.toNat_zero
  have moved := Runtime.SizeT.moves_of_safe wide
    (Or.inr (Runtime.SizeT.counted_saturated size offset
      (Runtime.SizeT.chooseMin (length.setWidth w) (BitVec.ofNat w bits)))) (fun _ => 0) buffer bit
  dsimp only at moved
  rw [moved, taken, requested, start, if_neg (by omega), bitAt]
  exact BitVec.getLsbD_zero

private theorem getLsbD_shifted {bits sat : ℕ} (value : BitVec bits) (some : 0 < sat)
    (fits : sat ≤ bits) {bit : ℕ} (inside : bit < bits) :
    ((value <<< (bits - sat)).sshiftRight (bits - sat)).getLsbD bit =
      if bit < sat then value.getLsbD bit else value.getLsbD (sat - 1) := by
  rw [BitVec.getLsbD_sshiftRight, decide_eq_false (Nat.not_le.mpr inside), Bool.not_false,
    Bool.true_and]
  by_cases own : bit < sat
  · have back : bits - sat + bit - (bits - sat) = bit := by omega
    have top : bits - sat + bit < bits := by omega
    have above : ¬bits - sat + bit < bits - sat := by omega
    rw [if_pos top, if_pos own, BitVec.getLsbD_shiftLeft, back, decide_eq_true top,
      decide_eq_false above]
    rfl
  · have last : bits - 1 - (bits - sat) = sat - 1 := by omega
    have top : bits - 1 < bits := by omega
    have above : ¬bits - 1 < bits - sat := by omega
    rw [if_neg (by omega), if_neg own, BitVec.msb_eq_getLsbD_last, BitVec.getLsbD_shiftLeft, last,
      decide_eq_true top, decide_eq_false above]
    rfl

private theorem getLsbD_extended {bits sat : ℕ} (value : BitVec bits) (fits : sat ≤ bits)
    (clear : ∀ bit, sat ≤ bit → value.getLsbD bit = false) {bit : ℕ}
    (inside : bit < bits) :
    (if sat < bits ∧ value.getLsbD (sat - 1) = true then
        value ||| ~~~((BitVec.ofNat bits 1 <<< sat) - 1) else value).getLsbD bit =
      if bit < sat then value.getLsbD bit else value.getLsbD (sat - 1) := by
  by_cases spread : sat < bits ∧ value.getLsbD (sat - 1) = true
  · rw [if_pos spread, BitVec.getLsbD_or, Runtime.getLsbD_highMask spread.1.le inside, spread.2]
    by_cases own : bit < sat
    · rw [if_pos own, decide_eq_false (Nat.not_le.mpr own), Bool.or_false]
    · rw [if_neg own, decide_eq_true (Nat.le_of_not_lt own), Bool.or_true]
  · rw [if_neg spread]
    by_cases own : bit < sat
    · rw [if_pos own]
    · have positive : value.getLsbD (sat - 1) = false := by
        apply Bool.eq_false_iff.mpr
        intro negative
        exact spread ⟨by omega, negative⟩
      rw [if_neg own, clear bit (by omega), positive]

theorem getSigned_eq_header (wide : 8 ≤ w) {bits : ℕ} (narrow : bits ≤ 64) (buffer : Bytes)
    (size offset : BitVec w) (length : BitVec 8) :
    getSigned bits buffer size offset length =
      Runtime.SizeT.getSigned bits buffer size offset length := by
  have cappedNat : (minui length (BitVec.ofNat 8 bits)).toNat = min length.toNat bits := by
    rw [toNat_minui, BitVec.toNat_ofNat, Nat.mod_eq_of_lt (by omega)]
  have capped := Runtime.SizeT.ofNat_of_toNat _ cappedNat
  have grows : bits < 2 ^ bits := Nat.lt_two_pow_self
  have wideNat : (widen (minui length (BitVec.ofNat 8 bits)) bits).toNat = min length.toNat bits := by
    rw [widen, BitVec.toNat_setWidth, cappedNat, Nat.mod_eq_of_lt (by omega)]
  have fullNat : (BitVec.ofNat bits bits).toNat = bits := by
    rw [BitVec.toNat_ofNat, Nat.mod_eq_of_lt grows]
  have slackNat : (BitVec.ofNat bits bits - widen (minui length (BitVec.ofNat 8 bits)) bits).toNat =
      bits - min length.toNat bits := by
    rw [BitVec.toNat_sub_of_le (BitVec.le_def.mpr (by omega)), wideNat, fullNat]
  have clear := fun bit => @getUnsigned_clear _ wide _ narrow buffer size offset
    (minui length (BitVec.ofNat 8 bits)) bit
  rw [cappedNat] at clear
  simp only [getSigned, Runtime.SizeT.getSigned]
  rw [capped, getUnsigned_eq_header wide narrow, BitVec.shiftLeft_eq', BitVec.sshiftRight_eq',
    slackNat]
  generalize Runtime.SizeT.getUnsigned bits buffer size offset _ = value at clear ⊢
  generalize satIs : min length.toNat bits = sat at *
  have fits : sat ≤ bits := by omega
  by_cases some : 0 < sat
  · have nonzero : ¬widen (minui length (BitVec.ofNat 8 bits)) bits = 0 := by
      intro zero
      have none : (0 : BitVec bits).toNat = 0 := BitVec.toNat_zero
      rw [zero, none] at wideNat
      omega
    rw [if_neg nonzero, decide_eq_true some, Bool.true_and, Runtime.SizeT.neg_not_sub_one, ite_self]
    apply BitVec.eq_of_getLsbD_eq
    intro bit inside
    rw [getLsbD_shifted value some fits inside,
      getLsbD_extended value fits (fun bit above => clear bit (by omega)) inside]
  · have zero : widen (minui length (BitVec.ofNat 8 bits)) bits = 0 := by
      have none : (0 : BitVec bits).toNat = 0 := BitVec.toNat_zero
      apply BitVec.eq_of_toNat_eq
      rw [wideNat, none]
      omega
    rw [if_pos zero, decide_eq_false some]
    simp

/-- Both transfers are one function, and move the run asked for exactly while both offsets stand on
a byte or neither end wraps; the readers and writers of integers are one function each; and the two
`get_bits` are one exactly while the bytes asked for are counted or less than one is readable. -/
theorem primitives_agree_iff (wide : 8 ≤ w) :
    (∀ (dst : Bytes) (dstOff length : BitVec w) (src : Bytes) (srcOff : BitVec w),
      copyBits dst dstOff length src srcOff =
        Runtime.SizeT.copyBits dst dstOff length src srcOff) ∧
    (∀ dstOff length srcOff : BitVec w,
      Runtime.SizeT.Moves (fun dst src => Runtime.SizeT.copyBits dst dstOff length src srcOff)
          dstOff.toNat length.toNat srcOff.toNat ↔
        Runtime.SizeT.ByteAligned dstOff srcOff ∨ Runtime.SizeT.Counted dstOff length srcOff) ∧
    (∀ size offset length : BitVec w,
      (∀ output buffer, getBits output buffer size offset length =
          Runtime.SizeT.getBits output buffer size offset length) ↔
        length.toNat + 7 < 2 ^ w ∨
          (Runtime.SizeT.saturateFragmentBits size offset length).toNat < 8) ∧
    (∀ (buffer : Bytes) (size offset : BitVec w) (value : BitVec 64) (length : BitVec 8),
      setInteger buffer size offset value length =
          Runtime.SizeT.setUxx buffer size offset value length ∧
        setInteger buffer size offset value length =
          Runtime.SizeT.setIxx buffer size offset value length) ∧
    ∀ bits ∈ [8, 16, 32, 64],
      ∀ (buffer : Bytes) (size offset : BitVec w) (length : BitVec 8),
        getUnsigned bits buffer size offset length =
            Runtime.SizeT.getUnsigned bits buffer size offset length ∧
          getSigned bits buffer size offset length =
            Runtime.SizeT.getSigned bits buffer size offset length := by
  refine ⟨copyBits_eq_header wide, Runtime.SizeT.moves_iff wide, getBits_eq_iff wide, ?_, ?_⟩
  · intro buffer size offset value length
    have written := setInteger_eq_header wide buffer size offset value length
    exact ⟨written, written⟩
  · intro bits held buffer size offset length
    have narrow : bits ≤ 64 := by
      simp only [List.mem_cons, List.not_mem_nil, or_false] at held
      omega
    exact ⟨getUnsigned_eq_header wide narrow buffer size offset length,
      getSigned_eq_header wide narrow buffer size offset length⟩

/-- Sixteen bits from the last bit that a 32-bit `size_t` counts. -/
theorem primitives_agree_iff_wrapped :
    Runtime.SizeT.Moves (fun dst src => Runtime.SizeT.copyBits dst 0 16 src 0xFFFFFFFF#32)
        (0#32).toNat (16#32).toNat (0xFFFFFFFF#32).toNat ↔
      Runtime.SizeT.ByteAligned 0 0xFFFFFFFF#32 ∨ Runtime.SizeT.Counted 0 16 0xFFFFFFFF#32 :=
  (primitives_agree_iff (by decide)).2.1 0 16 0xFFFFFFFF#32

/-- On a 32-bit target, sixteen bits from bit `2 ^ 32 - 1` on are not copied at all; and a read of
`2 ^ 32 - 1` bits from a one-byte buffer leaves a byte that the header clears. -/
theorem wrapped_run_not_copied :
    ¬Runtime.SizeT.Moves (fun dst src => Runtime.SizeT.copyBits dst 0#32 16#32 src 0xFFFFFFFF#32)
        0 16 0xFFFFFFFF ∧
      getBits (fun _ => 255) (fun _ => 0) 1#32 0#32 0xFFFFFFFF#32 1 = 255 ∧
      Runtime.SizeT.getBits (fun _ => 255) (fun _ => 0) 1#32 0#32 0xFFFFFFFF#32 1 = 0 := by
  refine ⟨?_, by decide, by decide⟩
  intro moves
  have first := moves (fun _ => 0) (fun _ => 255) 0
  revert first
  decide

end LlvmDsdl.Transforms.EmitDSDLRuntime
