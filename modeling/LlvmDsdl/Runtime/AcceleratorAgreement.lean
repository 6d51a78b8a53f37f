import LlvmDsdl.Runtime.AcceleratorCopies

/-!
Contract: the CPython accelerator against the pure-Python runtime it replaces.

Owns: for each entry point, exactly the calls on which both raise or both succeed
with one result and leave one buffer.
-/

namespace LlvmDsdl.Runtime.Accelerator

open LlvmDsdl.Library.Loop
open LlvmDsdl.Library.BitRun
open LlvmDsdl.Runtime.Buffer

/-! ### extract_bits -/

private theorem outSize_cases (lenBits : Word) :
    (lenBits.toNat + 7 < 2 ^ 64 ∧ ((lenBits + 7) / 8).toNat = (lenBits.toNat + 7) / 8) ∨
      (2 ^ 64 ≤ lenBits.toNat + 7 ∧ ((lenBits + 7) / 8).toNat = 0) := by
  have lenWord := lenBits.isLt
  have seven : (7 : Word).toNat = 7 := rfl
  rw [SizeT.toNat_div_eight (by decide), BitVec.toNat_add, seven]
  omega

private theorem extracted_bits (src : Held) (srcOff lenBits : Word)
    (counted : lenBits.toNat + 7 < 2 ^ 64) :
    ∃ out, extractBits src srcOff lenBits = some (.ok out) ∧
      out.length = (lenBits.toNat + 7) / 8 ∧
      ∀ position < 8 * out.length, bitOf out position =
        (decide (position < lenBits.toNat) && bitOf src.bytes (srcOff.toNat + position)) := by
  have srcBits := toNat_sizeBits src
  have outSize : ((lenBits + 7) / 8).toNat = (lenBits.toNat + 7) / 8 := by
    rcases outSize_cases lenBits with ⟨_, size⟩ | ⟨wraps, _⟩
    · exact size
    · omega
  have saturated := SizeT.toNat_saturateFragmentBits src.size srcOff lenBits
  have safe := SizeT.counted_saturated src.size srcOff lenBits
  have short := copySpan_le 0 (SizeT.saturateFragmentBits src.size srcOff lenBits) srcOff
  rw [srcBits] at saturated
  generalize satIs : SizeT.saturateFragmentBits src.size srcOff lenBits = sat at *
  have satWord := sat.isLt
  have start : (0 : Word).toNat = 0 := rfl
  have fromByte : (BitVec.ofNat 64 (sat.toNat / 8)).toNat = sat.toNat / 8 := by
    rw [BitVec.toNat_ofNat, Nat.mod_eq_of_lt (by omega)]
  have cleared : ((lenBits + 7) / 8 - BitVec.ofNat 64 (sat.toNat / 8)).toNat =
      (lenBits.toNat + 7) / 8 - sat.toNat / 8 := by
    rw [BitVec.toNat_sub_of_le (BitVec.le_def.mpr (by omega)), fromByte, outSize]
  have within : sat.toNat / 8 + ((lenBits + 7) / 8 - BitVec.ofNat 64 (sat.toNat / 8)).toNat ≤
        ((lenBits + 7) / 8).toNat ∧
      InBounds ((lenBits + 7) / 8).toNat 0 sat src.bytes.length srcOff := by
    refine ⟨by omega, ?_⟩
    by_cases nothing : copySpan 0 sat srcOff = 0
    · exact Or.inl nothing
    · exact Or.inr ⟨by omega, by omega⟩
  have call : extractBits src srcOff lenBits = some (.ok
      (readBack (List.replicate ((lenBits + 7) / 8).toNat 0)
        (SizeT.getBits (contents (List.replicate ((lenBits + 7) / 8).toNat 0)) (contents src.bytes)
          src.size srcOff lenBits))) := by
    rw [extractBits, satIs]
    exact if_pos within
  refine ⟨_, call, ?_, ?_⟩
  · rw [length_readBack, List.length_replicate, outSize]
  · intro position inside
    rw [length_readBack] at inside
    have zero : bitAt (contents (List.replicate ((lenBits + 7) / 8).toNat 0)) position = false := by
      rw [bitAt, contents, List.getD_eq_getElem?_getD, List.getElem?_replicate]
      split_ifs
      · exact BitVec.getLsbD_zero
      · exact BitVec.getLsbD_zero
    rw [bitOf_readBack _ _ inside, SizeT.getBits, satIs]
    have moved := SizeT.moves_of_safe (by decide) (Or.inr safe)
      (memset (contents (List.replicate ((lenBits + 7) / 8).toNat 0)) (sat.toNat / 8) 0
        ((lenBits + 7) / 8 - BitVec.ofNat 64 (sat.toNat / 8)).toNat) (contents src.bytes) position
    refine moved.trans ?_
    rw [bitAt_memset_zero, zero, ite_self, start, Nat.sub_zero]
    by_cases present : position < sat.toNat
    · have asked : position < lenBits.toNat := by omega
      rw [if_pos (by omega), decide_eq_true asked, Bool.true_and, bitOf]
    · rw [if_neg (by omega)]
      by_cases asked : position < lenBits.toNat
      · rw [bitOf_beyond src.bytes (by omega), Bool.and_false]
      · rw [decide_eq_false asked, Bool.false_and]

private theorem extractBits_of_wrapped (src : Held) (srcOff lenBits : Word)
    (wraps : 2 ^ 64 ≤ lenBits.toNat + 7) :
    extractBits src srcOff lenBits =
      if 8 * src.bytes.length ≤ srcOff.toNat then some (.ok []) else none := by
  have counted := src.counted
  have none : ((lenBits + 7) / 8).toNat = 0 := by
    rcases outSize_cases lenBits with ⟨counted, _⟩ | ⟨_, none⟩
    · omega
    · exact none
  have saturated := SizeT.toNat_saturateFragmentBits src.size srcOff lenBits
  rw [toNat_sizeBits src] at saturated
  have short := copySpan_le 0 (SizeT.saturateFragmentBits src.size srcOff lenBits) srcOff
  rw [extractBits, none]
  dsimp only
  generalize SizeT.saturateFragmentBits src.size srcOff lenBits = sat at saturated short ⊢
  have start : (0 : Word).toNat = 0 := rfl
  by_cases past : 8 * src.bytes.length ≤ srcOff.toNat
  · have nothing : sat.toNat = 0 := by omega
    have zero : (lenBits + 7) / 8 = 0 := BitVec.eq_of_toNat_eq none
    have within : sat.toNat / 8 + ((lenBits + 7) / 8 - BitVec.ofNat 64 (sat.toNat / 8)).toNat ≤ 0 ∧
        InBounds 0 0 sat src.bytes.length srcOff := by
      refine ⟨?_, Or.inl (by omega)⟩
      rw [nothing, zero]
      decide
    rw [if_pos past, if_pos within]
    rfl
  · have span : copySpan 0 sat srcOff = sat.toNat := by
      rw [copySpan]
      split_ifs
      · rfl
      · rfl
      · omega
    have beyond : ¬(sat.toNat / 8 +
        ((lenBits + 7) / 8 - BitVec.ofNat 64 (sat.toNat / 8)).toNat ≤ 0 ∧
          InBounds 0 0 sat src.bytes.length srcOff) := by
      rw [InBounds, span, start]
      omega
    rw [if_neg past, if_neg beyond]

/-- When the two extractions agree: the size does not wrap; of a negative length, which the pure
runtime takes as none, nothing is asked or nothing is there. -/
def ExtractCondition (srcBytes srcOff : ℕ) (lenBits : ℤ) : Prop :=
  if 0 ≤ lenBits then lenBits + 7 < 2 ^ 64
  else
    lengthWord lenBits = 0 ∨ (2 ^ 64 ≤ lengthWord lenBits + 7 ∧ 8 * srcBytes ≤ srcOff)

theorem extractBits_agrees_iff (src : Held) (srcOff : Word) (lenBits : ℤ) :
    (∃ result, extractBits src srcOff (asUnsignedLongLongMask lenBits) = some result ∧
      result.toOption = (Python.extractBits src.bytes srcOff.toNat lenBits).toOption) ↔
      ExtractCondition src.bytes.length srcOff.toNat lenBits := by
  have word := toNat_mask_length lenBits
  rcases Python.extractBits_spec src.bytes srcOff.toNat lenBits with
    ⟨out, extracted, length, bits⟩
  have sizes := Python.length_extractBits_output lenBits
  rw [← length] at sizes
  have accelerated {other : Buffer}
      (call : extractBits src srcOff (asUnsignedLongLongMask lenBits) = some (.ok other)) :
      (∃ result, extractBits src srcOff (asUnsignedLongLongMask lenBits) = some result ∧
        result.toOption = (Python.extractBits src.bytes srcOff.toNat lenBits).toOption) ↔
        other = out := by
    rw [extracted]
    constructor
    · rintro ⟨result, called, same⟩
      rw [call] at called
      rw [← Option.some.inj called] at same
      exact Option.some.inj same
    · intro same
      exact ⟨_, call, by rw [same]⟩
  rw [ExtractCondition, ← word]
  rw [lengthWord] at word
  by_cases wraps : 2 ^ 64 ≤ (asUnsignedLongLongMask lenBits).toNat + 7
  · have call := extractBits_of_wrapped src srcOff _ wraps
    by_cases past : 8 * src.bytes.length ≤ srcOff.toNat
    · rw [if_pos past] at call
      rw [accelerated call]
      by_cases counted : 0 ≤ lenBits
      · rw [if_pos counted]
        constructor
        · intro same
          rw [← same, List.length_nil] at sizes
          omega
        · intro small
          omega
      · rw [if_neg counted]
        refine iff_of_true ?_ (Or.inr ⟨wraps, past⟩)
        have none : out.length = 0 := by omega
        exact (List.length_eq_zero_iff.mp none).symm
    · rw [if_neg past] at call
      constructor
      · rintro ⟨result, called, _⟩
        rw [call] at called
        exact absurd called (by simp)
      · intro condition
        split_ifs at condition with counted
        · omega
        · omega
  · rcases extracted_bits src srcOff (asUnsignedLongLongMask lenBits) (by omega) with
      ⟨other, call, otherLength, otherBits⟩
    rw [accelerated call]
    by_cases counted : 0 ≤ lenBits
    · rw [if_pos counted]
      constructor
      · intro same
        rw [← same] at sizes
        omega
      · intro small
        have count : (asUnsignedLongLongMask lenBits).toNat = lenBits.toNat := by omega
        apply ext_bits (by omega)
        intro position inside
        rw [otherBits position inside, bits position (by omega), count]
    · rw [if_neg counted]
      constructor
      · intro same
        rw [← same] at sizes
        omega
      · intro none
        have empty : other.length = out.length := by omega
        exact ext_bits empty fun position inside => by omega

/-! ### Python integers -/

theorem bitOfInt_eq (value : ℤ) (index : ℕ) :
    Python.bitOfInt value index = decide (value / ((2 ^ index : ℕ) : ℤ) % 2 = 1) := by
  rw [Python.bitOfInt, Int.shiftRight_eq_div_pow]
  rfl

theorem bitOfInt_natCast (value index : ℕ) :
    Python.bitOfInt (value : ℤ) index = value.testBit index := by
  rw [bitOfInt_eq, Nat.testBit_eq_decide_div_mod_eq]
  congr 1
  apply propext
  omega

theorem bitOfInt_emod (value : ℤ) {index width : ℕ} (inside : index < width) :
    Python.bitOfInt (value % 2 ^ width) index = Python.bitOfInt value index := by
  have positive : ((2 ^ index : ℕ) : ℤ) ≠ 0 := by positivity
  have power : (2 : ℤ) ^ width = ((2 ^ index : ℕ) : ℤ) * (2 * 2 ^ (width - index - 1)) := by
    have split : width = index + (1 + (width - index - 1)) := by omega
    calc (2 : ℤ) ^ width = 2 ^ (index + (1 + (width - index - 1))) := by rw [← split]
      _ = ((2 ^ index : ℕ) : ℤ) * (2 * 2 ^ (width - index - 1)) := by
        rw [pow_add, pow_add, pow_one]
        push_cast
        rfl
  have whole : value = value % 2 ^ width +
      ((2 ^ index : ℕ) : ℤ) * (2 * 2 ^ (width - index - 1) * (value / 2 ^ width)) := by
    rw [← mul_assoc, ← power]
    exact (Int.emod_add_mul_ediv value (2 ^ width)).symm
  have quotient : value / ((2 ^ index : ℕ) : ℤ) = value % 2 ^ width / ((2 ^ index : ℕ) : ℤ) +
      2 * (2 ^ (width - index - 1) * (value / 2 ^ width)) := by
    conv_lhs => rw [whole]
    rw [Int.add_mul_ediv_left _ _ positive, mul_assoc]
  rw [bitOfInt_eq, bitOfInt_eq, quotient]
  generalize 2 ^ (width - index - 1) * (value / 2 ^ width) = multiple
  congr 1
  apply propext
  omega

theorem getLsbD_ofInt (value : ℤ) {index : ℕ} (inside : index < 64) :
    (BitVec.ofInt 64 value).getLsbD index = Python.bitOfInt value index := by
  have range := Int.emod_nonneg value (b := 2 ^ 64) (by decide)
  rw [← bitOfInt_emod value inside, BitVec.getLsbD, BitVec.toNat_ofInt, ← bitOfInt_natCast]
  congr 1
  exact Int.toNat_of_nonneg range

theorem maskBits_eq {count : ℕ} (some : 0 < count) :
    Python.maskBits (count : ℤ) = 2 ^ count - 1 := by
  rw [Python.maskBits, if_neg (by omega), Int.toNat_natCast, Int.shiftLeft_eq, one_mul]

private theorem toNat_mask {lenBits : BitVec 8} (narrow : lenBits.toNat ≤ 64) :
    (if lenBits = 64 then BitVec.allOnes 64 else (1#64 <<< lenBits.toNat) - 1#64).toNat =
      2 ^ lenBits.toNat - 1 := by
  by_cases full : lenBits = 64
  · rw [if_pos full, full]
    decide
  · have less : lenBits.toNat < 64 := by
      apply Nat.lt_of_le_of_ne narrow
      intro same
      exact full (BitVec.eq_of_toNat_eq same)
    have bound : 2 ^ lenBits.toNat < 2 ^ 64 := Nat.pow_lt_pow_right (by decide) less
    have positive : 0 < 2 ^ lenBits.toNat := Nat.two_pow_pos _
    have one : (1#64).toNat = 1 := rfl
    have power : (1#64 <<< lenBits.toNat).toNat = 2 ^ lenBits.toNat := by
      rw [BitVec.toNat_shiftLeft, one, Nat.shiftLeft_eq, Nat.one_mul, Nat.mod_eq_of_lt bound]
    rw [if_neg full, BitVec.toNat_sub_of_le (BitVec.le_def.mpr (by omega)), power, one]

private theorem toNat_ofInt_of_range {value : ℤ} (low : 0 ≤ value) (high : value < 2 ^ 64) :
    ((BitVec.ofInt 64 value).toNat : ℤ) = value := by
  rw [BitVec.toNat_ofInt, Int.toNat_of_nonneg (Int.emod_nonneg _ (by decide))]
  exact Int.emod_eq_of_lt low high

private theorem ofInt_eq_of_toNat {word : Word} {value : ℤ} (same : (word.toNat : ℤ) = value) :
    word = BitVec.ofInt 64 value := by
  rw [← same, BitVec.ofInt_natCast, BitVec.ofNat_toNat, BitVec.setWidth_eq]

/-- The word of an unsigned write holds the value the pure runtime stores. -/
theorem encodeUnsigned_bits {lenBits : BitVec 8} (value : ℤ) (saturating : Bool)
    (some : 0 < lenBits.toNat) (narrow : lenBits.toNat ≤ 64) {index : ℕ}
    (inside : index < lenBits.toNat) :
    (encodeUnsigned lenBits value saturating).getLsbD index =
      Python.bitOfInt (Python.encodeUnsigned lenBits.toNat value saturating) index := by
  have inWord : index < 64 := by omega
  have maskNat := toNat_mask narrow
  have positive : 0 < 2 ^ lenBits.toNat := Nat.two_pow_pos _
  have bound : 2 ^ lenBits.toNat ≤ 2 ^ 64 := Nat.pow_le_pow_right (by decide) narrow
  have maxIs : Python.maskBits (lenBits.toNat : ℤ) = ((2 ^ lenBits.toNat : ℕ) : ℤ) - 1 := by
    rw [maskBits_eq some]
    push_cast
    rfl
  rw [encodeUnsigned, Python.encodeUnsigned]
  dsimp only
  generalize maskIs : (if lenBits = 64 then BitVec.allOnes 64 else (1#64 <<< lenBits.toNat) - 1#64) =
    mask at maskNat ⊢
  cases saturating with
  | false =>
      have set : mask.getLsbD index = true := by
        rw [BitVec.getLsbD, maskNat, Nat.testBit_two_pow_sub_one, decide_eq_true inside]
      have modulus : Python.maskBits (lenBits.toNat : ℤ) + 1 = 2 ^ lenBits.toNat := by
        rw [maskBits_eq some]
        omega
      rw [if_neg Bool.false_ne_true, if_neg Bool.false_ne_true, BitVec.getLsbD_and, set,
        Bool.and_true, asUnsignedLongLongMask, getLsbD_ofInt value inWord, modulus,
        bitOfInt_emod value inside]
  | true =>
      rw [if_pos rfl, if_pos rfl, ← getLsbD_ofInt _ inWord]
      congr 1
      have maskWord : mask = BitVec.ofInt 64 (Python.maskBits lenBits.toNat) := by
        apply ofInt_eq_of_toNat
        omega
      rcases Int.lt_or_le int64Max value with above | most
      · have far : asLongLongAndOverflow value = (-1, 1) := if_pos above
        rw [int64Max] at above
        have unsigned : ¬((1 : ℤ) < 0 ∨ ((1 : ℤ) = 0 ∧ (-1 : Word).slt 0 = true)) := by decide
        have past : (0 : ℤ) < 1 := by decide
        rw [far]
        dsimp only
        rw [if_neg unsigned, if_pos past, if_pos past, if_neg (show ¬value < 0 by omega)]
        by_cases held : 0 ≤ value ∧ value < 2 ^ 64
        · have wide : asUnsignedLongLong value = Option.some (BitVec.ofInt 64 value) := if_pos held
          have wideNat := toNat_ofInt_of_range held.1 held.2
          rw [wide]
          dsimp only
          by_cases excess : Python.maskBits (lenBits.toNat : ℤ) < value
          · have larger : ¬BitVec.ofInt 64 value ≤ mask := by
              rw [BitVec.le_def]
              omega
            rw [if_pos excess, if_neg larger, maskWord]
          · have fits : BitVec.ofInt 64 value ≤ mask := by
              rw [BitVec.le_def]
              omega
            rw [if_neg excess, if_pos fits]
        · have wide : asUnsignedLongLong value = none := if_neg held
          rw [wide, if_pos (by omega), maskWord]
      · rcases Int.lt_or_le value int64Min with below | least
        · have far : asLongLongAndOverflow value = (-1, -1) := by
            rw [asLongLongAndOverflow, if_neg (Int.not_lt.mpr most), if_pos below]
          rw [int64Min] at below
          rw [far, if_pos (show value < 0 by omega)]
          dsimp only
          rw [if_pos (Or.inl (by decide))]
          rfl
        · have near : asLongLongAndOverflow value = (BitVec.ofInt 64 value, 0) := by
            rw [asLongLongAndOverflow, if_neg (Int.not_lt.mpr most),
              if_neg (Int.not_lt.mpr least)]
          rw [int64Max] at most
          rw [int64Min] at least
          have signed : (BitVec.ofInt 64 value).toInt = value :=
            BitVec.toInt_ofInt_eq_self (by decide) (by omega) (by omega)
          have zero : (0 : Word).toInt = 0 := rfl
          have sign : (BitVec.ofInt 64 value).slt 0 = true ↔ value < 0 := by
            rw [BitVec.slt_iff_toInt_lt, signed, zero]
          have here : ¬(0 : ℤ) < 0 := by decide
          rw [near]
          dsimp only
          by_cases negative : value < 0
          · rw [if_pos negative, if_pos (Or.inr ⟨rfl, sign.mpr negative⟩)]
            rfl
          · have unsigned : ¬((0 : ℤ) < 0 ∨
                ((0 : ℤ) = 0 ∧ (BitVec.ofInt 64 value).slt 0 = true)) := by
              rintro (past | ⟨_, below⟩)
              · exact here past
              · exact negative (sign.mp below)
            have valueNat := @toNat_ofInt_of_range value (by omega) (by omega)
            rw [if_neg negative, if_neg unsigned, if_neg here]
            by_cases excess : Python.maskBits (lenBits.toNat : ℤ) < value
            · have larger : mask < BitVec.ofInt 64 value := by
                rw [BitVec.lt_def]
                omega
              rw [if_pos excess, if_pos larger, maskWord]
            · have fits : ¬mask < BitVec.ofInt 64 value := by
                rw [BitVec.lt_def]
                omega
              rw [if_neg excess, if_neg fits]

theorem encodePlain_bits (value : ℤ) {count index : ℕ} (inside : index < count) :
    Python.bitOfInt (Python.encodeUnsigned count value false) index =
      Python.bitOfInt value index := by
  have modulus : Python.maskBits (count : ℤ) + 1 = 2 ^ count := by
    rw [maskBits_eq (by omega)]
    omega
  rw [Python.encodeUnsigned, if_neg Bool.false_ne_true, modulus, bitOfInt_emod value inside]

private theorem shiftedOne_eq {count : ℕ} (narrow : count < 64) :
    1#64 <<< count = BitVec.ofInt 64 (2 ^ count) := by
  have bound : 2 ^ count < 2 ^ 64 := Nat.pow_lt_pow_right (by decide) narrow
  have one : (1#64).toNat = 1 := rfl
  apply ofInt_eq_of_toNat
  rw [BitVec.toNat_shiftLeft, one, Nat.shiftLeft_eq, Nat.one_mul, Nat.mod_eq_of_lt bound]
  push_cast
  rfl

private theorem minValue_eq {lenBits : BitVec 8} (some : 0 < lenBits.toNat)
    (narrow : lenBits.toNat ≤ 64) :
    (if lenBits = 64 then BitVec.ofInt 64 int64Min else -(1#64 <<< (lenBits.toNat - 1))) =
      BitVec.ofInt 64 (-2 ^ (lenBits.toNat - 1)) := by
  by_cases full : lenBits = 64
  · rw [if_pos full, full]
    rfl
  · rw [if_neg full, shiftedOne_eq (by omega), ← BitVec.ofInt_neg]

private theorem maxValue_eq {lenBits : BitVec 8} (some : 0 < lenBits.toNat)
    (narrow : lenBits.toNat ≤ 64) :
    (if lenBits = 64 then BitVec.ofInt 64 int64Max
      else (1#64 <<< (lenBits.toNat - 1)) - 1#64) =
      BitVec.ofInt 64 (2 ^ (lenBits.toNat - 1) - 1) := by
  by_cases full : lenBits = 64
  · rw [if_pos full, full]
    rfl
  · have last : -1#64 = BitVec.ofInt 64 (-1) := by decide
    rw [if_neg full, shiftedOne_eq (by omega), BitVec.sub_eq_add_neg, last, ← BitVec.ofInt_add]
    rfl

/-- The word of a signed write holds the value the pure runtime stores. -/
theorem encodeSigned_bits {lenBits : BitVec 8} (value : ℤ) (saturating : Bool)
    (some : 0 < lenBits.toNat) (narrow : lenBits.toNat ≤ 64) :
    ∃ word, encodeSigned lenBits value saturating = Option.some word ∧
      ∀ index < lenBits.toNat, word.getLsbD index =
        Python.bitOfInt (Python.encodeUnsigned lenBits.toNat
          (Python.clampSigned lenBits.toNat value saturating) false) index := by
  have whole : encodeSigned lenBits value saturating =
      Option.some (BitVec.ofInt 64 (Python.clampSigned lenBits.toNat value saturating)) := by
    rw [encodeSigned, Python.clampSigned]
    cases saturating with
    | false =>
        rw [if_neg Bool.false_ne_true, if_neg Bool.false_ne_true]
        dsimp only
        rw [SizeT.neg_not_sub_one, ite_self, asUnsignedLongLongMask]
    | true =>
        have nonzero : ¬lenBits = 0 := by
          intro zero
          rw [zero] at some
          exact absurd some (by decide)
        have exponent : ((lenBits.toNat : ℤ) - 1).toNat = lenBits.toNat - 1 := by omega
        rw [if_pos rfl, if_pos rfl, if_neg nonzero]
        dsimp only
        rw [minValue_eq some narrow, maxValue_eq some narrow, exponent, Int.shiftLeft_eq, one_mul]
        have bound : (2 : ℤ) ^ (lenBits.toNat - 1) ≤ 2 ^ 63 :=
          pow_le_pow_right₀ (by decide) (by omega)
        have positive : (0 : ℤ) < 2 ^ (lenBits.toNat - 1) := by positivity
        generalize (2 : ℤ) ^ (lenBits.toNat - 1) = half at bound positive ⊢
        congr 1
        have lowInt : (BitVec.ofInt 64 (-half)).toInt = -half :=
          BitVec.toInt_ofInt_eq_self (by decide) (by omega) (by omega)
        have highInt : (BitVec.ofInt 64 (half - 1)).toInt = half - 1 :=
          BitVec.toInt_ofInt_eq_self (by decide) (by omega) (by omega)
        rcases Int.lt_or_le int64Max value with above | most
        · have far : asLongLongAndOverflow value = (-1, 1) := if_pos above
          have here : ¬(1 : ℤ) < 0 := by decide
          have past : (0 : ℤ) < 1 := by decide
          rw [int64Max] at above
          rw [far]
          dsimp only
          rw [if_neg here, if_pos past, if_neg (show ¬value < -half by omega),
            if_pos (show half - 1 < value by omega)]
        · rcases Int.lt_or_le value int64Min with below | least
          · have far : asLongLongAndOverflow value = (-1, -1) := by
              rw [asLongLongAndOverflow, if_neg (Int.not_lt.mpr most), if_pos below]
            have before : (-1 : ℤ) < 0 := by decide
            rw [int64Min] at below
            rw [far]
            dsimp only
            rw [if_pos before, if_pos (show value < -half by omega)]
          · have near : asLongLongAndOverflow value = (BitVec.ofInt 64 value, 0) := by
              rw [asLongLongAndOverflow, if_neg (Int.not_lt.mpr most),
                if_neg (Int.not_lt.mpr least)]
            have here : ¬(0 : ℤ) < 0 := by decide
            rw [int64Max] at most
            rw [int64Min] at least
            have signed : (BitVec.ofInt 64 value).toInt = value :=
              BitVec.toInt_ofInt_eq_self (by decide) (by omega) (by omega)
            rw [near]
            dsimp only
            rw [if_neg here, if_neg here]
            by_cases low : value < -half
            · have less := BitVec.slt_iff_toInt_lt.mpr (show (BitVec.ofInt 64 value).toInt <
                (BitVec.ofInt 64 (-half)).toInt by omega)
              rw [if_pos low, if_pos less]
            · have least : ¬(BitVec.ofInt 64 value).slt (BitVec.ofInt 64 (-half)) = true := by
                rw [BitVec.slt_iff_toInt_lt]
                omega
              rw [if_neg low, if_neg least]
              by_cases high : half - 1 < value
              · have more := BitVec.slt_iff_toInt_lt.mpr (show (BitVec.ofInt 64 (half - 1)).toInt <
                  (BitVec.ofInt 64 value).toInt by omega)
                rw [if_pos high, if_pos more]
              · have most : ¬(BitVec.ofInt 64 (half - 1)).slt (BitVec.ofInt 64 value) = true := by
                  rw [BitVec.slt_iff_toInt_lt]
                  omega
                rw [if_neg high, if_neg most]
  refine ⟨_, whole, ?_⟩
  intro index inside
  rw [getLsbD_ofInt _ (by omega), encodePlain_bits _ inside]

/-! ### Writes -/

/-- When two writes agree, for the bits that a write of a length stores: the run fits; or the
accelerator's sum is past the buffer too, and the bits that the pure loop stores before it raises
are there already. Of a negative length the pure runtime writes nothing. -/
def WriteCondition (dst : Buffer) (off : ℕ) (lenBits : ℤ) (bits : ℤ → ℕ → Bool) : Prop :=
  let count := lenBits.toNat
  let word := lengthWord lenBits
  if lenBits < 0 ∧ word ≠ 0 then
    off + word ≤ 8 * dst.length ∧ Already dst off word (bits word)
  else if count = 0 then off ≤ 8 * dst.length
  else
    off + count ≤ 8 * dst.length ∨
      (8 * dst.length < (off + count) % 2 ^ 64 ∧ Already dst off count (bits lenBits))

private theorem toNat_width (lenBits : BitVec 8) : (lenBits.setWidth 64).toNat = lenBits.toNat := by
  have := lenBits.isLt
  rw [BitVec.toNat_setWidth, Nat.mod_eq_of_lt (by omega)]

private theorem setField_cases (dst : Held) (off word : Word) {lenBits : BitVec 8}
    (narrow : lenBits.toNat ≤ 64) (failed : String) :
    (8 * dst.bytes.length < (off.toNat + lenBits.toNat) % 2 ^ 64 ∧
        setField dst off word lenBits failed = some (dst.bytes, .error failed)) ∨
      (off.toNat + lenBits.toNat ≤ 8 * dst.bytes.length ∧ ∃ stored,
        Written dst.bytes off.toNat lenBits.toNat word.getLsbD stored ∧
          setField dst off word lenBits failed = some (stored, .ok 0)) ∨
      ((off.toNat + lenBits.toNat) % 2 ^ 64 ≤ 8 * dst.bytes.length ∧
        ¬off.toNat + lenBits.toNat ≤ 8 * dst.bytes.length ∧
          setField dst off word lenBits failed = none) := by
  have dstCounted := dst.counted
  have offWord := off.isLt
  have width := toNat_width lenBits
  have check : dst.size * 8 < off + lenBits.setWidth 64 ↔
      8 * dst.bytes.length < (off.toNat + lenBits.toNat) % 2 ^ 64 := by
    rw [BitVec.lt_def, toNat_sizeBits, BitVec.toNat_add, width]
  by_cases refused : dst.size * 8 < off + lenBits.setWidth 64
  · have raises : SizeT.bufferTooSmall.slt 0 = true := by decide
    refine Or.inl ⟨check.mp refused, ?_⟩
    rw [setField, SizeT.setUxx, if_pos refused]
    exact if_pos raises
  have within : (off.toNat + lenBits.toNat) % 2 ^ 64 ≤ 8 * dst.bytes.length :=
    Nat.not_lt.mp fun past => refused (check.mpr past)
  have taken : SizeT.chooseMin (lenBits.setWidth 64) 64 = lenBits.setWidth 64 := by
    have full : (64 : Word).toNat = 64 := rfl
    apply BitVec.eq_of_toNat_eq
    rw [SizeT.toNat_chooseMin, width, full]
    omega
  have start : (0 : Word).toNat = 0 := rfl
  have span : copySpan off (lenBits.setWidth 64) 0 = lenBits.toNat := by
    rw [copySpan, width, start]
    split_ifs
    · rfl
    · rfl
    · omega
  have call : setField dst off word lenBits failed =
      if InBounds dst.bytes.length off (lenBits.setWidth 64) 8 0 then
        some (readBack dst.bytes (SizeT.copyBits (contents dst.bytes) off (lenBits.setWidth 64)
          (SizeT.bytesOf word) 0), .ok 0)
      else none := by
    have succeeds : ¬(0 : BitVec 8).slt 0 = true := by decide
    rw [setField, SizeT.setUxx, if_neg refused, taken]
    exact if_neg succeeds
  by_cases fits : off.toNat + lenBits.toNat ≤ 8 * dst.bytes.length
  · have inBounds : InBounds dst.bytes.length off (lenBits.setWidth 64) 8 0 := by
      rw [InBounds, span, start]
      omega
    have safe : SizeT.Counted off (lenBits.setWidth 64) 0 := by
      constructor
      · omega
      · omega
    rw [if_pos inBounds] at call
    refine Or.inr (Or.inl ⟨fits, _, ?_, call⟩)
    apply readBack_written
    intro position
    have moved := SizeT.moves_of_safe (by decide) (Or.inr safe) (contents dst.bytes)
      (SizeT.bytesOf word) position
    rw [width, start, Nat.zero_add] at moved
    exact moved.trans (by rw [← bitAt_bytesOf word]; rfl)
  · have beyond : ¬InBounds dst.bytes.length off (lenBits.setWidth 64) 8 0 := by
      rw [InBounds, span, start]
      omega
    rw [if_neg beyond] at call
    exact Or.inr (Or.inr ⟨within, fits, call⟩)

private theorem setField_agrees_iff (dst : Held) (off word : Word) {lenBits : ℤ}
    (narrow : lengthWord lenBits ≤ 64) {width : BitVec 8} (masked : width.toNat = lengthWord lenBits)
    (failed : String) {bits : ℤ → ℕ → Bool}
    (same : ∀ index < lengthWord lenBits, word.getLsbD index = bits (lengthWord lenBits) index)
    {pure : Outcome ℤ} {message : String}
    (written : Written dst.bytes off.toNat lenBits.toNat (bits lenBits) pure.1)
    (ending : pure.2 =
      if lenBits.toNat = 0 ∨ off.toNat + lenBits.toNat ≤ 8 * dst.bytes.length then .ok 0
      else .error message) :
    Agrees (setField dst off word width failed) pure ↔
      WriteCondition dst.bytes off.toNat lenBits bits := by
  have dstCounted := dst.counted
  have offWord := off.isLt
  have unchanged := written.eq_self_iff
  have ways := @setField_cases dst off word width (by omega) failed
  rw [masked] at ways
  rw [WriteCondition]
  by_cases none : lenBits.toNat = 0
  · have kept : pure.1 = dst.bytes := by
      rw [unchanged, none]
      intro position _ after before
      omega
    have whole : Agrees (setField dst off word width failed) pure ↔
        off.toNat + lengthWord lenBits ≤ 8 * dst.bytes.length ∧
          Already dst.bytes off.toNat (lengthWord lenBits) (bits (lengthWord lenBits)) := by
      rw [if_pos (Or.inl none)] at ending
      rcases ways with ⟨refused, call⟩ | ⟨fits, stored, field, call⟩ | ⟨_, leaves, call⟩
      · rw [call, agrees_error_iff, ending]
        exact ⟨fun agrees => absurd agrees.2 (by simp [Except.toOption]), fun fits => by omega⟩
      · rw [call, agrees_ok_iff, ending, kept, eq_comm, (field.congr same).eq_self_iff]
        exact ⟨fun agrees => ⟨fits, agrees.1⟩, fun already => ⟨already.2, rfl⟩⟩
      · rw [call]
        exact ⟨fun agrees => absurd agrees not_agrees_none, fun fits => absurd fits.1 leaves⟩
    rw [whole]
    by_cases negative : lenBits < 0 ∧ lengthWord lenBits ≠ 0
    · rw [if_pos negative]
    · have zero : lengthWord lenBits = 0 := by
        rw [lengthWord] at negative ⊢
        omega
      rw [if_neg negative, if_pos none, zero, Nat.add_zero]
      refine ⟨fun both => both.1, fun inside => ⟨inside, ?_⟩⟩
      intro position _ after before
      omega
  · have counted : 0 ≤ lenBits := by omega
    have sums := add_lengthWord_mod counted off.toNat
    rw [if_neg (by omega), if_neg none]
    by_cases fits : off.toNat + lenBits.toNat ≤ 8 * dst.bytes.length
    · have count : lengthWord lenBits = lenBits.toNat := by
        rw [lengthWord]
        omega
      have asked : ((lenBits.toNat : ℕ) : ℤ) = lenBits := Int.toNat_of_nonneg counted
      rw [if_pos (Or.inr fits)] at ending
      rw [count] at ways same
      rw [asked] at same
      refine iff_of_true ?_ (Or.inl fits)
      rcases ways with ⟨refused, _⟩ | ⟨_, stored, field, call⟩ | ⟨_, leaves, _⟩
      · omega
      · rw [call, agrees_ok_iff, ending]
        exact ⟨written.unique (field.congr same), rfl⟩
      · exact absurd fits leaves
    · rw [if_neg (by omega)] at ending
      have raises (stored : Buffer) : ¬Agrees (some (stored, .ok (0 : ℤ))) pure := by
        rw [agrees_ok_iff, ending]
        rintro ⟨_, raised⟩
        exact absurd raised (by simp [Except.toOption])
      rcases ways with ⟨refused, call⟩ | ⟨inside, stored, _, call⟩ | ⟨within, _, call⟩
      · rw [call, agrees_error_iff, ending, unchanged]
        constructor
        · intro agrees
          exact Or.inr ⟨by omega, agrees.1⟩
        · rintro (inside | ⟨_, already⟩)
          · exact absurd inside fits
          · exact ⟨already, rfl⟩
      · rw [call]
        exact ⟨fun agrees => absurd agrees (raises stored), fun condition => by omega⟩
      · rw [call]
        exact ⟨fun agrees => absurd agrees not_agrees_none, fun condition => by omega⟩

theorem pureWrite_spec (buf : Buffer) (off : ℕ) (lenBits value : ℤ) (saturating : Bool) :
    Written buf off lenBits.toNat
        (Python.bitOfInt (Python.encodeUnsigned lenBits value saturating))
        (Python.writeUnsigned buf off lenBits value saturating).1 ∧
      (Python.writeUnsigned buf off lenBits value saturating).2 =
        if lenBits.toNat = 0 ∨ off + lenBits.toNat ≤ 8 * buf.length then .ok 0
        else .error Python.tooSmall := by
  rw [Python.writeUnsigned]
  by_cases nothing : lenBits ≤ 0
  · have none : lenBits.toNat = 0 := by omega
    rw [if_pos nothing, none, if_pos (Or.inl rfl)]
    exact ⟨written_nothing _ _ _, rfl⟩
  · rw [if_neg nothing]
    have ending := storeBits_ending Python.tooSmall
      (Python.bitOfInt (Python.encodeUnsigned lenBits value saturating)) off lenBits.toNat buf
    refine ⟨storeBits_written _ _ _ _ _, ?_⟩
    dsimp only
    rw [Python.setBits, ending]
    split_ifs
    · rfl
    · rfl

private theorem toU8LenBits_eq {lenBits : Word} (narrow : lenBits.toNat ≤ 64) :
    toU8LenBits lenBits = .ok (lenBits.setWidth 8) ∧
      (lenBits.setWidth 8).toNat = lenBits.toNat := by
  have full : (64 : Word).toNat = 64 := rfl
  have accepted : ¬64 < lenBits := by
    rw [BitVec.lt_def, full]
    omega
  refine ⟨if_neg accepted, ?_⟩
  rw [BitVec.toNat_setWidth, Nat.mod_eq_of_lt (by omega)]

def unsignedBits (value : ℤ) (saturating : Bool) (lenBits : ℤ) : ℕ → Bool :=
  Python.bitOfInt (Python.encodeUnsigned lenBits value saturating)

def signedBits (value : ℤ) (saturating : Bool) (lenBits : ℤ) : ℕ → Bool :=
  Python.bitOfInt (Python.encodeUnsigned lenBits (Python.clampSigned lenBits value saturating) false)

theorem writeUnsigned_agrees_iff (dst : Held) (off : Word) {lenBits : ℤ}
    (narrow : lengthWord lenBits ≤ 64) (value : ℤ) (saturating : Bool) :
    Agrees (writeUnsigned dst off (asUnsignedLongLongMask lenBits) value saturating)
        (Python.writeUnsigned dst.bytes off.toNat lenBits value saturating) ↔
      WriteCondition dst.bytes off.toNat lenBits (unsignedBits value saturating) := by
  have word := toNat_mask_length lenBits
  have ⟨accepted, width⟩ := @toU8LenBits_eq (asUnsignedLongLongMask lenBits) (by omega)
  have ⟨written, ending⟩ := pureWrite_spec dst.bytes off.toNat lenBits value saturating
  rw [word] at width
  rw [writeUnsigned, accepted]
  apply setField_agrees_iff dst off _ narrow width _ _ written ending
  intro index inside
  rw [unsignedBits, ← width]
  exact encodeUnsigned_bits value saturating (by omega) (by omega) (by omega)

theorem writeSigned_agrees_iff (dst : Held) (off : Word) {lenBits : ℤ}
    (narrow : lengthWord lenBits ≤ 64) (value : ℤ) (saturating : Bool) :
    Agrees (writeSigned dst off (asUnsignedLongLongMask lenBits) value saturating)
        (Python.writeSigned dst.bytes off.toNat lenBits value saturating) ↔
      ¬(lengthWord lenBits = 0 ∧ saturating = true) ∧
        WriteCondition dst.bytes off.toNat lenBits (signedBits value saturating) := by
  have word := toNat_mask_length lenBits
  have ⟨accepted, width⟩ := @toU8LenBits_eq (asUnsignedLongLongMask lenBits) (by omega)
  rw [word] at width
  rw [writeSigned, accepted]
  dsimp only
  generalize (asUnsignedLongLongMask lenBits).setWidth 8 = count at width ⊢
  have pure : Python.writeSigned dst.bytes off.toNat lenBits value saturating =
      Python.writeUnsigned dst.bytes off.toNat lenBits
        (Python.clampSigned lenBits value saturating) false := by
    rw [Python.writeSigned]
    by_cases nothing : lenBits ≤ 0
    · rw [if_pos nothing, Python.writeUnsigned, if_pos nothing]
    · rw [if_neg nothing]
  have ⟨written, ending⟩ := pureWrite_spec dst.bytes off.toNat lenBits
    (Python.clampSigned lenBits value saturating) false
  rw [← pure] at written ending
  have encoded {word : Word} (same : ∀ index < lengthWord lenBits,
      word.getLsbD index = signedBits value saturating (lengthWord lenBits) index) :
      Agrees (setField dst off word count "write_signed failed: serialisation buffer too small")
          (Python.writeSigned dst.bytes off.toNat lenBits value saturating) ↔
        WriteCondition dst.bytes off.toNat lenBits (signedBits value saturating) :=
    setField_agrees_iff dst off word narrow width _ same written ending
  by_cases nothing : lengthWord lenBits = 0
  · have zero : count = 0 := BitVec.eq_of_toNat_eq (width.trans nothing)
    cases saturating with
    | false =>
        have word : encodeSigned count value false = some (asUnsignedLongLongMask value) := by
          rw [encodeSigned, if_neg Bool.false_ne_true]
          dsimp only
          rw [SizeT.neg_not_sub_one, ite_self]
        rw [word]
        dsimp only
        rw [encoded fun index inside => by omega]
        simp
    | true =>
        have undefined : encodeSigned count value true = none := by
          rw [encodeSigned, if_pos rfl, if_pos zero]
        rw [undefined]
        constructor
        · intro agrees
          exact absurd agrees not_agrees_none
        · intro ⟨defined, _⟩
          exact absurd ⟨nothing, rfl⟩ defined
  · rcases @encodeSigned_bits count value saturating (by omega) (by omega) with ⟨word, called, bits⟩
    rw [width] at bits
    rw [called]
    dsimp only
    rw [encoded bits]
    exact ⟨fun condition => ⟨fun both => nothing both.1, condition⟩, fun both => both.2⟩

/-! ### Reads -/

theorem littleEndian_eq (bytes : Bytes) (count : ℕ) :
    SizeT.littleEndian 64 bytes count = littleEndian bytes count := by
  induction count with
  | zero => rfl
  | succ count ih =>
      rw [SizeT.littleEndian, littleEndian, ih]

theorem zeroExtended_eq (src : Held) :
    zeroExtended (contents src.bytes) src.size.toNat = bitOf src.bytes := by
  have counted := src.counted
  have size : src.size.toNat = src.bytes.length := by
    rw [Held.size, BitVec.toNat_ofNat, Nat.mod_eq_of_lt (by omega)]
  funext position
  rw [zeroExtended, size]
  by_cases inside : position < 8 * src.bytes.length
  · rw [decide_eq_true inside, Bool.true_and, bitOf]
  · rw [decide_eq_false inside, Bool.false_and, bitOf_beyond src.bytes (by omega)]

theorem sizeT_getUnsigned_eq (src : Held) (off : Word) {lenBits : BitVec 8}
    (narrow : lenBits.toNat ≤ 64) :
    SizeT.getUnsigned 64 (contents src.bytes) src.size off lenBits =
      wordAt 64 (bitOf src.bytes) off.toNat lenBits.toNat := by
  have counted := src.counted
  have size : src.size.toNat = src.bytes.length := by
    rw [Held.size, BitVec.toNat_ofNat, Nat.mod_eq_of_lt (by omega)]
  have length : lenBits.setWidth 64 = BitVec.ofNat 64 lenBits.toNat := (BitVec.ofNat_toNat ..).symm
  have holds : Holds 64 lenBits.toNat := ⟨by decide, by decide, narrow⟩
  have word := getUnsigned_eq holds (contents src.bytes) off (by rw [size]; exact counted)
  rw [zeroExtended_eq] at word
  rw [← word, SizeT.getUnsigned, getUnsigned, littleEndian_eq,
    SizeT.copyBits_eq (by decide) _ _ (Or.inr (SizeT.counted_saturated _ _ _)), length]
  rfl

theorem sizeT_getSigned_eq (src : Held) (off : Word) {lenBits : BitVec 8}
    (narrow : lenBits.toNat ≤ 64) :
    SizeT.getSigned 64 (contents src.bytes) src.size off lenBits =
      signExtended (wordAt 64 (bitOf src.bytes) off.toNat lenBits.toNat) lenBits.toNat := by
  have sat : min lenBits.toNat 64 = lenBits.toNat := by omega
  have capped : BitVec.ofNat 8 lenBits.toNat = lenBits := SizeT.ofNat_of_toNat lenBits rfl
  have unsigned := sizeT_getUnsigned_eq src off narrow
  apply BitVec.eq_of_getLsbD_eq
  intro bit inWord
  rw [getLsbD_signExtended _ inWord, SizeT.getSigned, sat, capped, unsigned, SizeT.neg_not_sub_one, ite_self]
  generalize valueIs : wordAt 64 (bitOf src.bytes) off.toNat lenBits.toNat = value
  have above : ¬bit < lenBits.toNat → value.getLsbD bit = false := by
    intro outside
    rw [← valueIs, getLsbD_wordAt, decide_eq_false outside, Bool.false_and, Bool.and_false]
  by_cases spread : lenBits.toNat < 64 ∧
      (decide (0 < lenBits.toNat) && value.getLsbD (lenBits.toNat - 1)) = true
  · have mask : (~~~((BitVec.ofNat 64 1 <<< lenBits.toNat) - 1)).getLsbD bit =
        decide (lenBits.toNat ≤ bit) := getLsbD_highMask (by omega) inWord
    rw [if_pos spread, BitVec.getLsbD_or, mask, spread.2]
    by_cases inside : bit < lenBits.toNat
    · rw [if_pos inside, decide_eq_false (Nat.not_le.mpr inside), Bool.or_false]
    · rw [if_neg inside, decide_eq_true (Nat.le_of_not_lt inside), Bool.or_true]
  · rw [if_neg spread]
    by_cases inside : bit < lenBits.toNat
    · rw [if_pos inside]
    · have positive : (decide (0 < lenBits.toNat) && value.getLsbD (lenBits.toNat - 1)) = false := by
        apply Bool.eq_false_iff.mpr
        intro negative
        exact spread ⟨by omega, negative⟩
      rw [if_neg inside, above inside, positive]

theorem testBit_readUnsigned (buf : Buffer) (off count index : ℕ) :
    (Python.readUnsigned buf off count).testBit index =
      (decide (index < count) && bitOf buf (off + index)) := by
  have loop (turns : ℕ) :
      (countingLoop (fun index out =>
        if Python.getBit buf (off + index) then out ||| (1 <<< index) else out) turns 0).testBit
          index =
        (decide (index < turns) && bitOf buf (off + index)) := by
    induction turns with
    | zero => simp [countingLoop]
    | succ turns ih =>
        rw [countingLoop, Python.getBit_eq]
        by_cases last : index = turns
        · have before : ¬index < turns := by omega
          rw [decide_eq_false before, Bool.false_and] at ih
          have here : index < turns + 1 := by omega
          rw [decide_eq_true here, Bool.true_and, last]
          rw [last] at ih
          by_cases set : bitOf buf (off + turns) = true
          · rw [if_pos set, Nat.testBit_or, Nat.one_shiftLeft, Nat.testBit_two_pow_self,
              Bool.or_true, set]
          · rw [if_neg set, ih, Bool.eq_false_iff.mpr set]
        · have same : (decide (index < turns + 1)) = decide (index < turns) := by
            congr 1
            apply propext
            omega
          rw [same, ← ih]
          split_ifs
          · rw [Nat.testBit_or, Nat.one_shiftLeft, Nat.testBit_two_pow_of_ne (Ne.symm last),
              Bool.or_false]
          · rfl
  rw [Python.readUnsigned]
  by_cases nothing : (count : ℤ) ≤ 0
  · have none : ¬index < count := by omega
    rw [if_pos nothing, decide_eq_false none, Bool.false_and, Nat.zero_testBit]
  · rw [if_neg nothing, Int.toNat_natCast, loop]

private theorem toNat_wordAt (src : Held) (off : Word) {count : ℕ} (narrow : count ≤ 64) :
    (wordAt 64 (bitOf src.bytes) off.toNat count).toNat =
      Python.readUnsigned src.bytes off.toNat count := by
  apply Nat.eq_of_testBit_eq
  intro index
  rw [testBit_readUnsigned]
  show (wordAt 64 (bitOf src.bytes) off.toNat count).getLsbD index = _
  rw [getLsbD_wordAt]
  by_cases inside : index < count
  · have inWord : index < 64 := by omega
    rw [decide_eq_true inWord, Bool.true_and]
  · rw [decide_eq_false inside, Bool.false_and, Bool.and_false]

/-- The accelerated read of a masked length is the pure read of it. -/
theorem readUnsigned_word (src : Held) (off : Word) {lenBits : Word}
    (narrow : lenBits.toNat ≤ 64) :
    readUnsigned src off lenBits =
      .ok (Python.readUnsigned src.bytes off.toNat lenBits.toNat : ℤ) := by
  have ⟨accepted, width⟩ := toU8LenBits_eq narrow
  have inByte : (lenBits.setWidth 8).toNat ≤ 64 := by omega
  rw [readUnsigned, accepted]
  show Except.ok ((SizeT.getUnsigned 64 (contents src.bytes) src.size off
    (lenBits.setWidth 8)).toNat : ℤ) = _
  rw [sizeT_getUnsigned_eq src off inByte, toNat_wordAt src off inByte, width]

theorem readUnsigned_lt (buf : Buffer) (off count : ℕ) :
    Python.readUnsigned buf off count < 2 ^ count := by
  apply Nat.lt_pow_two_of_testBit
  intro index above
  rw [testBit_readUnsigned, decide_eq_false (Nat.not_lt.mpr above), Bool.false_and]

/-- A signed read is the unsigned one, less the modulus where its last bit is set. -/
theorem readSigned_eq (buf : Buffer) (off count : ℕ) :
    Python.readSigned buf off count =
      if 0 < count ∧ bitOf buf (off + (count - 1)) = true then
        (Python.readUnsigned buf off count : ℤ) - 2 ^ count
      else Python.readUnsigned buf off count := by
  rw [Python.readSigned]
  by_cases nothing : (count : ℤ) ≤ 0
  · rw [if_pos nothing, if_neg (by omega), Python.readUnsigned, if_pos nothing]
    rfl
  · have exponent : ((count : ℤ) - 1).toNat = count - 1 := by omega
    have sign : Python.readUnsigned buf off count &&& 1 <<< (count - 1) ≠ 0 ↔
        0 < count ∧ bitOf buf (off + (count - 1)) = true := by
      have positive : 0 < 2 ^ (count - 1) := Nat.two_pow_pos _
      have inside : count - 1 < count := by omega
      rw [Nat.one_shiftLeft, Nat.and_two_pow, testBit_readUnsigned, decide_eq_true inside,
        Bool.true_and]
      cases bitOf buf (off + (count - 1)) with
      | false => simp
      | true =>
          rw [Bool.toNat_true, Nat.one_mul]
          exact iff_of_true positive.ne' ⟨by omega, rfl⟩
    rw [if_neg nothing, exponent, Int.toNat_natCast, Int.shiftLeft_eq, one_mul]
    by_cases set : 0 < count ∧ bitOf buf (off + (count - 1)) = true
    · rw [if_pos (sign.mpr set), if_pos set]
    · rw [if_neg fun nonzero => set (sign.mp nonzero), if_neg set]

theorem readSigned_word (src : Held) (off : Word) {lenBits : Word}
    (narrow : lenBits.toNat ≤ 64) :
    readSigned src off lenBits =
      .ok (Python.readSigned src.bytes off.toNat lenBits.toNat) := by
  have ⟨accepted, width⟩ := toU8LenBits_eq narrow
  have inByte : (lenBits.setWidth 8).toNat ≤ 64 := by omega
  rw [readSigned, accepted]
  show Except.ok (SizeT.getSigned 64 (contents src.bytes) src.size off
    (lenBits.setWidth 8)).toInt = _
  rw [sizeT_getSigned_eq src off inByte, width, signExtended,
    BitVec.toInt_signExtend_of_le narrow, readSigned_eq]
  have raw := toNat_wordAt src off narrow
  have small := readUnsigned_lt src.bytes off.toNat lenBits.toNat
  generalize lenBits.toNat = count at narrow raw small ⊢
  have narrowed : ((wordAt 64 (bitOf src.bytes) off.toNat count).setWidth count).toNat =
      Python.readUnsigned src.bytes off.toNat count := by
    rw [BitVec.toNat_setWidth, raw, Nat.mod_eq_of_lt small]
  have sign : ((wordAt 64 (bitOf src.bytes) off.toNat count).setWidth count).msb = true ↔
      0 < count ∧ bitOf src.bytes (off.toNat + (count - 1)) = true := by
    rw [BitVec.msb_eq_getLsbD_last, BitVec.getLsbD_setWidth, getLsbD_wordAt]
    by_cases some : 0 < count
    · have inWord : count - 1 < 64 := by omega
      have inside : count - 1 < count := by omega
      rw [decide_eq_true inWord, decide_eq_true inside, Bool.true_and, Bool.true_and]
      exact ⟨fun set => ⟨some, set⟩, fun set => set.2⟩
    · have outside : ¬count - 1 < count := by omega
      rw [decide_eq_false outside, Bool.false_and]
      exact iff_of_false Bool.false_ne_true fun set => some set.1
  congr 1
  rw [BitVec.toInt_eq_msb_cond, narrowed]
  by_cases set : 0 < count ∧ bitOf src.bytes (off.toNat + (count - 1)) = true
  · rw [if_pos (sign.mpr set), if_pos set]
    push_cast
    rfl
  · rw [if_neg fun msb => set (sign.mp msb), if_neg set]

/-- When two reads agree: no bit is set that only one of them reads; and of a length that the mask
cuts, a signed read does not end on a set bit. -/
def ReadCondition (src : Buffer) (off : ℕ) (lenBits : ℤ) (signed : Bool) : Prop :=
  let count := lenBits.toNat
  let word := lengthWord lenBits
  ∀ index, (count ≤ index ∧ index < word) ∨
      (word < count ∧ word ≤ index + signed.toNat ∧ index < count) →
    bitOf src (off + index) = false

private theorem pureRead_toNat (buf : Buffer) (off : ℕ) (lenBits : ℤ) :
    Python.readUnsigned buf off lenBits = Python.readUnsigned buf off lenBits.toNat ∧
      Python.readSigned buf off lenBits = Python.readSigned buf off lenBits.toNat := by
  by_cases nothing : lenBits ≤ 0
  · have none : ((lenBits.toNat : ℕ) : ℤ) ≤ 0 := by omega
    rw [Python.readUnsigned, Python.readUnsigned, Python.readSigned, Python.readSigned,
      if_pos nothing, if_pos none, if_pos nothing, if_pos none]
    exact ⟨rfl, rfl⟩
  · rw [Int.toNat_of_nonneg (by omega)]
    exact ⟨rfl, rfl⟩

private theorem readUnsigned_eq_iff (buf : Buffer) (off count word : ℕ) :
    Python.readUnsigned buf off word = Python.readUnsigned buf off count ↔
      ∀ index, (count ≤ index ∧ index < word) ∨ (word ≤ index ∧ index < count) →
        bitOf buf (off + index) = false := by
  constructor
  · intro same index between
    have bit := congrArg (fun value => value.testBit index) same
    simp only [testBit_readUnsigned] at bit
    rcases between with ⟨past, inside⟩ | ⟨past, inside⟩
    · rw [decide_eq_true inside, decide_eq_false (Nat.not_lt.mpr past), Bool.true_and,
        Bool.false_and] at bit
      exact bit
    · rw [decide_eq_true inside, decide_eq_false (Nat.not_lt.mpr past), Bool.true_and,
        Bool.false_and] at bit
      exact bit.symm
  · intro clear
    apply Nat.eq_of_testBit_eq
    intro index
    rw [testBit_readUnsigned, testBit_readUnsigned]
    by_cases between : (count ≤ index ∧ index < word) ∨ (word ≤ index ∧ index < count)
    · rw [clear index between, Bool.and_false, Bool.and_false]
    · have both : decide (index < word) = decide (index < count) := by
        congr 1
        apply propext
        omega
      rw [both]

theorem readUnsigned_agrees_iff (src : Held) (off : Word) {lenBits : ℤ}
    (narrow : lengthWord lenBits ≤ 64) :
    readUnsigned src off (asUnsignedLongLongMask lenBits) =
        .ok (Python.readUnsigned src.bytes off.toNat lenBits : ℤ) ↔
      ReadCondition src.bytes off.toNat lenBits false := by
  have word := toNat_mask_length lenBits
  rw [readUnsigned_word src off (by omega), word, (pureRead_toNat src.bytes off.toNat lenBits).1,
    Except.ok.injEq, Nat.cast_inj, readUnsigned_eq_iff, ReadCondition]
  apply forall_congr'
  intro index
  rw [Bool.toNat_false, Nat.add_zero]
  apply imp_congr_left
  omega

theorem readSigned_agrees_iff (src : Held) (off : Word) {lenBits : ℤ}
    (narrow : lengthWord lenBits ≤ 64) :
    readSigned src off (asUnsignedLongLongMask lenBits) =
        .ok (Python.readSigned src.bytes off.toNat lenBits) ↔
      ReadCondition src.bytes off.toNat lenBits true := by
  have counted := src.counted
  have word := toNat_mask_length lenBits
  have masked : lengthWord lenBits = (lenBits % 2 ^ 64).toNat := rfl
  rw [readSigned_word src off (by omega), word, (pureRead_toNat src.bytes off.toNat lenBits).2,
    Except.ok.injEq, readSigned_eq, readSigned_eq, ReadCondition, Bool.toNat_true]
  have unsigned := readUnsigned_eq_iff src.bytes off.toNat lenBits.toNat (lengthWord lenBits)
  have small := readUnsigned_lt src.bytes off.toNat (lengthWord lenBits)
  generalize lengthWord lenBits = count at *
  -- a length the mask changes is negative, or runs past the buffer, so the pure value has no sign
  by_cases same : count = lenBits.toNat
  · rw [← same]
    refine iff_of_true rfl ?_
    intro index between
    omega
  · have plain : ¬(0 < lenBits.toNat ∧
        bitOf src.bytes (off.toNat + (lenBits.toNat - 1)) = true) := by
      rintro ⟨some, set⟩
      rw [bitOf_beyond src.bytes (by omega)] at set
      exact absurd set Bool.false_ne_true
    rw [if_neg plain]
    constructor
    · intro equal index between
      split_ifs at equal with set
      · have power : ((2 ^ count : ℕ) : ℤ) = 2 ^ count := by push_cast; rfl
        omega
      · by_cases last : count ≤ index ∨ index < count ∧ lenBits.toNat ≤ index
        · exact unsigned.mp (by omega) index (by omega)
        · have top : index = count - 1 := by omega
          rw [top]
          apply Bool.eq_false_iff.mpr
          intro high
          exact set ⟨by omega, high⟩
    · intro clear
      have zero : ¬(0 < count ∧ bitOf src.bytes (off.toNat + (count - 1)) = true) := by
        rintro ⟨some, set⟩
        rw [clear (count - 1) (by omega)] at set
        exact absurd set Bool.false_ne_true
      rw [if_neg zero, unsigned.mpr fun index between => clear index (by omega)]

/-! ### The entry points together -/

/-- When a call of the accelerator has the outcome of the pure runtime, entry point by entry point,
for any Python integers as lengths and values: a copy between separate buffers; an extraction; and,
of the lengths that are at most 64 as words, a write and a read. -/
theorem accelerator_agrees_iff (held src : Held) (off srcOff : Word) (lenBits value : ℤ)
    (saturating : Bool) :
    (Agrees (copyBits held off src srcOff (asUnsignedLongLongMask lenBits))
        (Python.copyBits held.bytes off.toNat src.bytes srcOff.toNat lenBits) ↔
      CopyCondition held.bytes off.toNat src.bytes srcOff.toNat lenBits) ∧
    ((∃ result, extractBits held off (asUnsignedLongLongMask lenBits) = some result ∧
        result.toOption = (Python.extractBits held.bytes off.toNat lenBits).toOption) ↔
      ExtractCondition held.bytes.length off.toNat lenBits) ∧
    (lengthWord lenBits ≤ 64 →
      (Agrees (writeUnsigned held off (asUnsignedLongLongMask lenBits) value saturating)
          (Python.writeUnsigned held.bytes off.toNat lenBits value saturating) ↔
        WriteCondition held.bytes off.toNat lenBits (unsignedBits value saturating)) ∧
      (Agrees (writeSigned held off (asUnsignedLongLongMask lenBits) value saturating)
          (Python.writeSigned held.bytes off.toNat lenBits value saturating) ↔
        ¬(lengthWord lenBits = 0 ∧ saturating = true) ∧
          WriteCondition held.bytes off.toNat lenBits (signedBits value saturating)) ∧
      (readUnsigned held off (asUnsignedLongLongMask lenBits) =
          .ok (Python.readUnsigned held.bytes off.toNat lenBits : ℤ) ↔
        ReadCondition held.bytes off.toNat lenBits false) ∧
      (readSigned held off (asUnsignedLongLongMask lenBits) =
          .ok (Python.readSigned held.bytes off.toNat lenBits) ↔
        ReadCondition held.bytes off.toNat lenBits true)) := by
  refine ⟨copyBits_agrees_iff held off src srcOff lenBits,
    extractBits_agrees_iff held off lenBits, ?_⟩
  intro narrow
  exact ⟨writeUnsigned_agrees_iff held off narrow value saturating,
    writeSigned_agrees_iff held off narrow value saturating,
    readUnsigned_agrees_iff held off narrow, readSigned_agrees_iff held off narrow⟩

private theorem one_counted : 8 * ([0xFF] : Buffer).length < 2 ^ 64 := by decide

private theorem none_counted : 8 * ([] : Buffer).length < 2 ^ 64 := by decide

def fullByte : Held := { bytes := [0xFF], counted := one_counted }

def noBytes : Held := { bytes := [], counted := none_counted }

/-- A signed read of four bits, and a saturating write of a value below their range. -/
theorem accelerator_agrees_iff_nibble :
    readSigned fullByte 4 4 = .ok (Python.readSigned [0xFF] 4 4) ∧
      Agrees (writeSigned fullByte 4 4 (-9) true) (Python.writeSigned [0xFF] 4 4 (-9) true) := by
  have word : lengthWord 4 = 4 := by decide
  have count : (4 : ℤ).toNat = 4 := rfl
  have ⟨_, write, _, read⟩ :=
    (accelerator_agrees_iff fullByte noBytes 4 0 4 (-9) true).2.2 (by decide)
  constructor
  · apply read.mpr
    intro index between
    rw [word, count] at between
    omega
  · apply write.mpr
    rw [WriteCondition, word, count]
    exact ⟨by decide, Or.inl (by decide)⟩

/-- The accelerator refuses a source that ends early, which the pure runtime extends with zeros; a
refused write leaves the byte that the pure runtime has already cleared; and a length of minus one
is none to the pure runtime, and as a word leaves the buffer. -/
theorem short_buffers_disagree :
    ¬Agrees (copyBits fullByte 0 noBytes 0 8) (Python.copyBits [0xFF] 0 [] 0 8) ∧
      ¬Agrees (writeUnsigned fullByte 0 16 0 false) (Python.writeUnsigned [0xFF] 0 16 0 false) ∧
      (extractBits fullByte 0 (asUnsignedLongLongMask (-1)) = none ∧
        Python.extractBits [0xFF] 0 (-1) = .ok []) := by
  have copyRefused : copyBits fullByte 0 noBytes 0 8 =
      some ([0xFF], .error "source range exceeds source buffer") := by decide
  have writeRefused : writeUnsigned fullByte 0 16 0 false =
      some ([0xFF], .error "write_unsigned failed: serialisation buffer too small") := by decide
  rw [copyRefused, writeRefused, agrees_error_iff, agrees_error_iff]
  refine ⟨?_, ?_, by decide⟩
  · intro same
    exact absurd same.2 (by decide)
  · intro same
    exact absurd same.1 (by decide)

end LlvmDsdl.Runtime.Accelerator
