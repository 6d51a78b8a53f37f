import LlvmDsdl.Transforms.AlignedAccess

/-!
Contract: the aligned access against the primitive it stands for.

Owns: what the load, the store and the primitive each move, byte by byte or bit by
bit; the address a 32-bit index reaches; and exactly when a lowered access is the
primitive for every value and all memory.
-/

namespace LlvmDsdl.Transforms.ConvertDSDLToLLVM

open LlvmDsdl.Runtime (Byte Bytes Word bitAt holderWidthFor memmove copyAligned)
open LlvmDsdl.Runtime.SizeT

variable {w n : ℕ}

/-! ### Coercions -/

/-- Both extensions and the truncation keep the bits that both types have. -/
theorem getLsbD_coerce (isSigned : Bool) (value : BitVec n) {target bit : ℕ} (held : bit < n)
    (inside : bit < target) : (coerce isSigned value target).getLsbD bit = value.getLsbD bit := by
  cases isSigned with
  | false => simp [coerce, inside]
  | true =>
      rw [coerce, if_pos rfl, BitVec.getLsbD_signExtend, if_pos held, decide_eq_true inside,
        Bool.true_and]

theorem coerce_of_le (isSigned : Bool) (value : BitVec n) {target : ℕ} (narrow : target ≤ n) :
    coerce isSigned value target = value.setWidth target := by
  cases isSigned with
  | false => rfl
  | true => exact BitVec.signExtend_eq_setWidth_of_le value narrow

theorem coerce_injective (isSigned : Bool) {target : ℕ} (wide : n ≤ target) :
    Function.Injective fun value : BitVec n => coerce isSigned value target := by
  intro left right same
  apply BitVec.eq_of_getLsbD_eq
  intro bit inside
  have there := congrArg (fun value : BitVec target => value.getLsbD bit) same
  dsimp only at there
  rw [getLsbD_coerce isSigned left inside (by omega),
    getLsbD_coerce isSigned right inside (by omega)] at there
  exact there

/-! ### Loads -/

theorem getLsbD_load (memory : Bytes) (address : BitVec w) {bits bit : ℕ} (whole : bits % 8 = 0)
    (inside : bit < bits) :
    (load memory address bits).getLsbD bit =
      (memory (address + BitVec.ofNat w (bit / 8)).toNat).getLsbD (bit % 8) := by
  have counted : bit < 8 * (bits / 8) := by omega
  rw [load, Runtime.SizeT.getLsbD_littleEndian, decide_eq_true inside, decide_eq_true counted]
  rfl

theorem getLsbD_getUnsigned (wide : 8 ≤ w) {holder : ℕ} (whole : holder % 8 = 0) (memory : Bytes)
    (size offset : BitVec w) (length : BitVec 8) {bit : ℕ} (inside : bit < holder) :
    (getUnsigned holder memory size offset length).getLsbD bit =
      (decide (bit < (saturateFragmentBits size offset
          (chooseMin (length.setWidth w) (BitVec.ofNat w holder))).toNat) &&
        bitAt memory (offset.toNat + bit)) := by
  have counted : bit < 8 * (holder / 8) := by omega
  have start : (0 : BitVec w).toNat = 0 := BitVec.toNat_zero
  rw [getUnsigned, Runtime.SizeT.getLsbD_littleEndian, decide_eq_true inside, decide_eq_true counted,
    copyBits_eq wide _ _ (Or.inr (counted_saturated _ _ _)), Runtime.bitAt_copyBits, start]
  simp only [Nat.zero_le, true_and, Nat.zero_add, Nat.sub_zero, Bool.true_and]
  split_ifs with taken
  · simp [taken]
  · simp [taken, bitAt]

/-! ### Stores -/

theorem store_within (memory : Bytes) (address : BitVec w) (value : BitVec n) {count : ℕ}
    (room : address.toNat + count ≤ 2 ^ w) (index : ℕ) :
    store memory address value count index =
      if address.toNat ≤ index ∧ index < address.toNat + count then
        (value >>> (8 * (index - address.toNat))).setWidth 8
      else memory index := by
  induction count with
  | zero => rw [store, if_neg (by omega)]
  | succ count ih =>
      have place : (address + BitVec.ofNat w count).toNat = address.toNat + count := by
        rw [BitVec.toNat_add, BitVec.toNat_ofNat, Nat.add_mod_mod, Nat.mod_eq_of_lt (by omega)]
      rw [store, place]
      by_cases here : index = address.toNat + count
      · have last : index - address.toNat = count := by omega
        rw [here, Function.update_self, if_pos (by omega), ← here, last]
      · rw [Function.update_of_ne here, ih (by omega)]
        by_cases before : address.toNat ≤ index ∧ index < address.toNat + count
        · rw [if_pos before, if_pos (by omega)]
        · rw [if_neg before, if_neg (by omega)]

/-- Over cleared memory a value of one byte shows at its own address alone. -/
theorem store_elsewhere (address : BitVec w) {value : BitVec n} (small : value.toNat < 256)
    (count : ℕ) {index : ℕ} (elsewhere : index ≠ address.toNat) :
    store (fun _ => 0) address value count index = 0 := by
  induction count with
  | zero => rfl
  | succ count ih =>
      rw [store]
      by_cases here : index = (address + BitVec.ofNat w count).toNat
      · have later : count ≠ 0 := by
          intro zero
          rw [zero] at here
          exact elsewhere (by simpa using here)
        have none : value >>> (8 * count) = 0#n := by
          apply BitVec.eq_of_toNat_eq
          have large : 2 ^ 8 ≤ 2 ^ (8 * count) := Nat.pow_le_pow_right (by decide) (by omega)
          rw [BitVec.toNat_ushiftRight, Nat.shiftRight_eq_div_pow, BitVec.toNat_zero]
          exact Nat.div_eq_of_lt (by omega)
        rw [here, Function.update_self, none]
        simp
      · rw [Function.update_of_ne here, ih]

theorem copyBits_whole (buf : Bytes) (offset length : BitVec w) (value : BitVec 64)
    (aligned : offset.toNat % 8 = 0) (whole : length.toNat % 8 = 0) (index : ℕ) :
    copyBits buf offset length (bytesOf value) 0 index =
      if offset.toNat / 8 ≤ index ∧ index < offset.toNat / 8 + length.toNat / 8 then
        (value >>> (8 * (index - offset.toNat / 8))).setWidth 8
      else buf index := by
  have start : (0 : BitVec w).toNat = 0 := BitVec.toNat_zero
  rw [copyBits, if_pos ⟨by rw [start], aligned⟩, copyAligned]
  dsimp only
  rw [if_pos whole, memmove, start, Nat.zero_div, Nat.zero_add, bytesOf]

/-! ### The address -/

/-- The 32-bit index reaches the byte that the bit offset names: extended by its sign it is no
negative number, and it is the byte offset as far as a bit offset in `size_t` counts. -/
def Addressed (w byteOffset : ℕ) : Prop :=
  (32 < w → byteOffset % 2 ^ 32 < 2 ^ 31) ∧
    byteOffset % 2 ^ 32 % 2 ^ w = byteOffset % 2 ^ (w - 3)

theorem eight_mul_two_pow (wide : 8 ≤ w) : 8 * 2 ^ (w - 3) = 2 ^ w := by
  have split : w = 3 + (w - 3) := by omega
  calc 8 * 2 ^ (w - 3) = 2 ^ 3 * 2 ^ (w - 3) := rfl
    _ = 2 ^ (3 + (w - 3)) := (Nat.pow_add 2 3 (w - 3)).symm
    _ = 2 ^ w := by rw [← split]

private theorem unit_of_wide (wide : 8 ≤ w) : 32 ≤ 2 ^ (w - 3) := by
  have exponent : 5 ≤ w - 3 := by omega
  exact Nat.pow_le_pow_right (show 0 < 2 by decide) exponent

theorem accessAddress_iff (wide : 8 ≤ w) (access : AlignedAccess) :
    (accessAddress w access).toNat = access.byteOffset % 2 ^ (w - 3) ↔
      Addressed w access.byteOffset := by
  have eighth := eight_mul_two_pow wide
  have extended : (accessAddress w access).toNat = access.byteOffset % 2 ^ 32 % 2 ^ w +
      if 2 ^ 31 ≤ access.byteOffset % 2 ^ 32 then 2 ^ w - 2 ^ 32 else 0 := by
    rw [accessAddress, BitVec.toNat_signExtend, BitVec.toNat_setWidth, BitVec.toNat_ofNat,
      BitVec.msb_eq_decide, BitVec.toNat_ofNat]
    simp
  rw [extended, Addressed]
  by_cases target : 32 < w
  · have larger : 2 ^ 33 ≤ 2 ^ w := Nat.pow_le_pow_right (by decide) target
    have short : access.byteOffset % 2 ^ 32 < 2 ^ 32 := Nat.mod_lt _ (by decide)
    have counted : access.byteOffset % 2 ^ (w - 3) < 2 ^ (w - 3) :=
      Nat.mod_lt _ (Nat.two_pow_pos _)
    by_cases negative : 2 ^ 31 ≤ access.byteOffset % 2 ^ 32
    · have kept : access.byteOffset % 2 ^ 32 % 2 ^ w = access.byteOffset % 2 ^ 32 :=
        Nat.mod_eq_of_lt (by omega)
      rw [if_pos negative, kept]
      constructor
      · intro same
        omega
      · intro addressed
        have positive := addressed.1 target
        omega
    · rw [if_neg negative, Nat.add_zero]
      constructor
      · intro same
        exact ⟨fun _ => by omega, same⟩
      · exact fun addressed => addressed.2
  · have smaller : 2 ^ w ≤ 2 ^ 32 := Nat.pow_le_pow_right (by decide) (by omega)
    have nothing : 2 ^ w - 2 ^ 32 = 0 := by omega
    rw [nothing, ite_self, Nat.add_zero]
    constructor
    · intro same
      exact ⟨fun large => absurd large target, same⟩
    · exact fun addressed => addressed.2

/-- On a 64-bit target the index reaches every byte offset it can hold, and no other. -/
theorem addressed_wide_iff {byteOffset : ℕ} (counted : byteOffset < 2 ^ 60) :
    Addressed 64 byteOffset ↔ byteOffset < 2 ^ 31 := by
  have kept : byteOffset % 2 ^ (64 - 3) = byteOffset := Nat.mod_eq_of_lt (by omega)
  rw [Addressed, kept]
  constructor
  · intro addressed
    have positive := addressed.1 (by decide)
    have same := addressed.2
    omega
  · intro small
    refine ⟨fun _ => by omega, by omega⟩

/-! ### What is inlined -/

/-- What a selected access says of its scalar and its offset. -/
structure Selected (scalar : Scalar) (bitOffset : Word) (access : AlignedAccess) : Prop where
  shape : access = ⟨bitOffset.toNat / 8, scalar.width / 8⟩
  aligned : bitOffset.toNat % 8 = 0
  below : bitOffset.toNat < 2 ^ 63
  register : scalar.width = 8 ∨ scalar.width = 16 ∨ scalar.width = 32 ∨ scalar.width = 64
  holds : scalar.width ≤ scalar.valueType.bits
  whole : scalar.valueType.isFloat = true →
    scalar.width = scalar.valueType.bits ∧ scalar.width ≠ 16

theorem selected_of_alignedAccess {littleEndian : Bool} {scalar : Scalar} {bitOffset : Word}
    {access : AlignedAccess} (found : alignedAccess littleEndian bitOffset scalar = some access) :
    Selected scalar bitOffset access := by
  rw [alignedAccess] at found
  by_cases refused : littleEndian = false ∨ bitOffset.slt 0 = true ∨ bitOffset.toNat % 8 ≠ 0
  · rw [if_pos refused] at found
    cases found
  rw [if_neg refused] at found
  rw [not_or, not_or, not_not] at refused
  have below : bitOffset.toNat < 2 ^ 63 := by
    have positive : ¬bitOffset.slt 0#64 = true := refused.2.1
    rw [BitVec.slt_zero_eq_msb, BitVec.msb_eq_decide, decide_eq_true_eq] at positive
    omega
  by_cases odd : scalar.width ≠ 8 ∧ scalar.width ≠ 16 ∧ scalar.width ≠ 32 ∧ scalar.width ≠ 64
  · rw [if_pos odd] at found
    cases found
  rw [if_neg odd] at found
  have register : scalar.width = 8 ∨ scalar.width = 16 ∨ scalar.width = 32 ∨ scalar.width = 64 := by
    omega
  cases type : scalar.valueType with
  | integer bits =>
      rw [type] at found
      by_cases narrower : bits < scalar.width
      · simp [narrower] at found
      · simp only [narrower, if_false, Option.some.injEq] at found
        have holds : scalar.width ≤ scalar.valueType.bits := by
          rw [type]
          exact Nat.le_of_not_lt narrower
        refine ⟨found.symm, refused.2.2, below, register, holds, ?_⟩
        rw [type]
        intro float
        cases float
  | f32 =>
      rw [type] at found
      by_cases single : scalar.width = 32
      · simp only [single, if_true, Option.some.injEq] at found
        have same : scalar.width = scalar.valueType.bits := by
          rw [type]
          exact single
        exact ⟨by rw [← found, single], refused.2.2, below, register, same.le,
          fun _ => ⟨same, by omega⟩⟩
      · simp [single] at found
  | f64 =>
      rw [type] at found
      by_cases double : scalar.width = 64
      · simp only [double, if_true, Option.some.injEq] at found
        have same : scalar.width = scalar.valueType.bits := by
          rw [type]
          exact double
        exact ⟨by rw [← found, double], refused.2.2, below, register, same.le,
          fun _ => ⟨same, by omega⟩⟩
      · simp [double] at found

section Primitives

variable {scalar : Scalar} {bitOffset : Word} {access : AlignedAccess}

theorem Selected.parts (selected : Selected scalar bitOffset access) :
    scalar.width % 8 = 0 ∧ 8 ≤ scalar.width ∧ scalar.width ≤ 64 ∧
      holderWidthFor scalar.width = scalar.width := by
  rcases selected.register with width | width | width | width <;> rw [width] <;> decide

theorem setPrimitive_selected (narrow : w ≤ 64) (selected : Selected scalar bitOffset access)
    (buf : Bytes) (size : Word) (value : BitVec scalar.valueType.bits) :
    ∃ word : BitVec 64, (∀ bit < scalar.width, word.getLsbD bit = value.getLsbD bit) ∧
      setPrimitive w scalar buf size bitOffset value =
        setUxx buf (size.setWidth w) (bitOffset.setWidth w) word
          (BitVec.ofNat 8 scalar.width) := by
  have ⟨_, large, inWord, _⟩ := selected.parts
  have holds := selected.holds
  have notBit : ¬(scalar.width = 1 ∧ scalar.isSigned = false) := by omega
  rw [setPrimitive, coerce_of_le scalar.isSigned size narrow,
    coerce_of_le scalar.isSigned bitOffset narrow]
  cases float : scalar.valueType.isFloat with
  | true =>
      have ⟨_, notHalf⟩ := selected.whole float
      refine ⟨value.setWidth 64, ?_, ?_⟩
      · intro bit inside
        rw [BitVec.getLsbD_setWidth, decide_eq_true (by omega), Bool.true_and]
      · rw [if_pos rfl, if_neg notHalf]
  | false =>
      refine ⟨coerce scalar.isSigned value 64, ?_, ?_⟩
      · intro bit inside
        exact getLsbD_coerce _ value (by omega) (by omega)
      · rw [if_neg Bool.false_ne_true, if_neg notBit]
        cases scalar.isSigned <;> rfl

theorem getSigned_whole {holder : ℕ} (inWord : holder ≤ 64) (buf : Bytes)
    (size offset : BitVec w) :
    getSigned holder buf size offset (BitVec.ofNat 8 holder) =
      getUnsigned holder buf size offset (BitVec.ofNat 8 holder) := by
  have counted : (BitVec.ofNat 8 holder).toNat = holder := by
    rw [BitVec.toNat_ofNat, Nat.mod_eq_of_lt (by omega)]
  have full : ¬(holder < holder ∧
      (decide (0 < holder) && (getUnsigned holder buf size offset
        (BitVec.ofNat 8 holder)).getLsbD (holder - 1)) = true) := by
    intro spread
    exact absurd spread.1 (Nat.lt_irrefl holder)
  rw [getSigned, counted, Nat.min_self]
  rw [if_neg full, neg_not_sub_one, ite_self]

/-- The primitive reads an integer of the wire's width and extends it. -/
theorem getPrimitive_selected (narrow : w ≤ 64) (selected : Selected scalar bitOffset access)
    (buf : Bytes) (size : Word) :
    getPrimitive w scalar buf size bitOffset =
      coerce scalar.isSigned
        (getUnsigned scalar.width buf (size.setWidth w) (bitOffset.setWidth w)
          (BitVec.ofNat 8 scalar.width))
        scalar.valueType.bits := by
  have ⟨_, large, inWord, held⟩ := selected.parts
  have notBit : ¬(scalar.width = 1 ∧ scalar.isSigned = false) := by omega
  rw [getPrimitive, coerce_of_le scalar.isSigned size narrow,
    coerce_of_le scalar.isSigned bitOffset narrow]
  cases float : scalar.valueType.isFloat with
  | true =>
      have ⟨same, notHalf⟩ := selected.whole float
      rw [if_pos rfl, if_neg notHalf, coerce_of_le _ _ same.ge]
  | false =>
      rw [if_neg Bool.false_ne_true, if_neg notBit, held, getSigned_whole inWord]
      cases scalar.isSigned <;> rfl

end Primitives

/-! ### The lowered access against the primitive -/

/-- The access is made in place: it is selected, and the size holds it. -/
def Inlined (scalar : Scalar) (bitOffset size : Word) : Prop :=
  ∃ access, alignedAccess true bitOffset scalar = some access ∧ accessFits size access = true

instance (w byteOffset : ℕ) : Decidable (Addressed w byteOffset) :=
  inferInstanceAs (Decidable (_ ∧ _))

/-- The bits of the buffer, counted in `size_t`, hold the end of the field as the writer sums it. -/
def WriteRoom (w : ℕ) (size bitOffset : Word) (width : ℕ) : Prop :=
  (bitOffset.toNat + width) % 2 ^ w ≤ 8 * size.toNat % 2 ^ w

/-- The bits of the buffer, counted in `size_t`, hold the whole field. -/
def ReadRoom (w : ℕ) (size bitOffset : Word) (width : ℕ) : Prop :=
  bitOffset.toNat % 2 ^ w + width ≤ 8 * size.toNat % 2 ^ w

instance (w width : ℕ) (size bitOffset : Word) : Decidable (WriteRoom w size bitOffset width) :=
  inferInstanceAs (Decidable (_ ≤ _))

instance (w width : ℕ) (size bitOffset : Word) : Decidable (ReadRoom w size bitOffset width) :=
  inferInstanceAs (Decidable (_ ≤ _))

section Agreement

variable {scalar : Scalar} {bitOffset size : Word} {access : AlignedAccess}

private theorem toNat_sizeBits (wide : 8 ≤ w) (size : Word) :
    (size.setWidth w * 8).toNat = 8 * size.toNat % 2 ^ w := by
  have eight : (8 : BitVec w).toNat = 8 := toNat_small wide (by decide)
  rw [BitVec.toNat_mul, eight, BitVec.toNat_setWidth, Nat.mod_mul_mod, Nat.mul_comm]

private theorem toNat_width (wide : 8 ≤ w) {width : ℕ} (inWord : width ≤ 64) :
    ((BitVec.ofNat 8 width).setWidth w).toNat = width := by
  have ⟨unit, positive, whole⟩ := two_pow_wide wide
  rw [BitVec.toNat_setWidth, BitVec.toNat_ofNat, Nat.mod_eq_of_lt (show width < 2 ^ 8 by omega),
    Nat.mod_eq_of_lt (by omega)]

theorem Selected.offset (wide : 8 ≤ w) (selected : Selected scalar bitOffset access) :
    (bitOffset.setWidth w).toNat = 8 * (access.byteOffset % 2 ^ (w - 3)) := by
  have aligned := selected.aligned
  have bytes : bitOffset.toNat = 8 * (bitOffset.toNat / 8) := by omega
  have first : access.byteOffset = bitOffset.toNat / 8 := by rw [selected.shape]
  rw [first, BitVec.toNat_setWidth, ← eight_mul_two_pow wide]
  conv_lhs => rw [bytes]
  exact Nat.mul_mod_mul_left ..

theorem writeBits_of_inlined (found : alignedAccess true bitOffset scalar = some access)
    (fits : accessFits size access = true) (buf : Bytes)
    (value : BitVec scalar.valueType.bits) :
    writeBits w true scalar buf size bitOffset value =
      (store buf (accessAddress w access) (value.setWidth scalar.width) access.bytes, 0) := by
  rw [writeBits, found]
  exact if_pos fits

theorem writeBits_of_not_inlined (apart : ¬Inlined scalar bitOffset size) (buf : Bytes)
    (value : BitVec scalar.valueType.bits) :
    writeBits w true scalar buf size bitOffset value =
      setPrimitive w scalar buf size bitOffset value := by
  rw [writeBits]
  cases found : alignedAccess true bitOffset scalar with
  | none => rfl
  | some access => exact if_neg fun fits => apart ⟨access, found, fits⟩

theorem readBits_of_inlined (found : alignedAccess true bitOffset scalar = some access)
    (fits : accessFits size access = true) (buf : Bytes) :
    readBits w true scalar buf size bitOffset =
      coerce scalar.isSigned (load buf (accessAddress w access) scalar.width) _ := by
  rw [readBits, found]
  exact if_pos fits

theorem readBits_of_not_inlined (apart : ¬Inlined scalar bitOffset size) (buf : Bytes) :
    readBits w true scalar buf size bitOffset = getPrimitive w scalar buf size bitOffset := by
  rw [readBits]
  cases found : alignedAccess true bitOffset scalar with
  | none => rfl
  | some access => exact if_neg fun fits => apart ⟨access, found, fits⟩

/-- The writer of the runtime accepts the field exactly where there is room. -/
theorem setUxx_selected (wide : 8 ≤ w) (selected : Selected scalar bitOffset access) (buf : Bytes) (word : BitVec 64) :
    (WriteRoom w size bitOffset scalar.width →
      setUxx buf (size.setWidth w) (bitOffset.setWidth w) word (BitVec.ofNat 8 scalar.width) =
        (fun index =>
          if access.byteOffset % 2 ^ (w - 3) ≤ index ∧
              index < access.byteOffset % 2 ^ (w - 3) + access.bytes then
            (word >>> (8 * (index - access.byteOffset % 2 ^ (w - 3)))).setWidth 8
          else buf index, 0)) ∧
    (¬WriteRoom w size bitOffset scalar.width →
      (setUxx buf (size.setWidth w) (bitOffset.setWidth w) word
        (BitVec.ofNat 8 scalar.width)).2 = bufferTooSmall) := by
  have ⟨whole, large, inWord, _⟩ := selected.parts
  have width := toNat_width wide inWord
  have start := selected.offset wide
  have refused : size.setWidth w * 8 <
      bitOffset.setWidth w + (BitVec.ofNat 8 scalar.width).setWidth w ↔
      ¬WriteRoom w size bitOffset scalar.width := by
    rw [BitVec.lt_def, toNat_sizeBits wide, BitVec.toNat_add, width,
      BitVec.toNat_setWidth, Nat.mod_add_mod, WriteRoom]
    omega
  constructor
  · intro room
    have accepted := fun short => (refused.mp short) room
    have most : (chooseMin ((BitVec.ofNat 8 scalar.width).setWidth w) 64).toNat =
        scalar.width := by
      have sixtyFour : (64 : BitVec w).toNat = 64 := toNat_small wide (by decide)
      rw [toNat_chooseMin, width, sixtyFour]
      omega
    have place : (bitOffset.setWidth w).toNat / 8 = access.byteOffset % 2 ^ (w - 3) := by
      omega
    have bytes : access.bytes = scalar.width / 8 := by
      rw [selected.shape]
    rw [setUxx, if_neg accepted]
    refine Prod.ext ?_ rfl
    funext index
    show copyBits buf _ _ (bytesOf word) 0 index = _
    rw [copyBits_whole buf _ _ word (by omega) (by rw [most]; exact whole), most, place, bytes]
  · intro cramped
    rw [setUxx, if_pos (refused.mpr cramped)]

private theorem toNat_readable (wide : 8 ≤ w)
    (selected : Selected scalar bitOffset access) :
    (saturateFragmentBits (size.setWidth w) (bitOffset.setWidth w)
      (chooseMin ((BitVec.ofNat 8 scalar.width).setWidth w) (BitVec.ofNat w scalar.width))).toNat =
      min scalar.width (8 * size.toNat % 2 ^ w - bitOffset.toNat % 2 ^ w) := by
  have ⟨_, _, inWord, _⟩ := selected.parts
  have holder : (BitVec.ofNat w scalar.width).toNat = scalar.width :=
    toNat_small wide (by omega)
  rw [toNat_saturateFragmentBits, toNat_chooseMin, toNat_width wide inWord, holder,
    toNat_sizeBits wide, BitVec.toNat_setWidth, Nat.min_self]

/-- Every value is stored as the primitive writes it exactly where the index reaches the field and
the primitive finds room. -/
theorem writeBits_iff_of_inlined (wide : 8 ≤ w) (narrow : w ≤ 64)
    (found : alignedAccess true bitOffset scalar = some access)
    (fits : accessFits size access = true) :
    (∀ (buf : Bytes) (value : BitVec scalar.valueType.bits),
      writeBits w true scalar buf size bitOffset value =
        setPrimitive w scalar buf size bitOffset value) ↔
      Addressed w (bitOffset.toNat / 8) ∧ WriteRoom w size bitOffset scalar.width := by
  have selected := selected_of_alignedAccess found
  have ⟨whole, large, inWord, _⟩ := selected.parts
  have first : access.byteOffset = bitOffset.toNat / 8 := by rw [selected.shape]
  have count : access.bytes = scalar.width / 8 := by rw [selected.shape]
  have eighth := eight_mul_two_pow wide
  have counted : access.byteOffset % 2 ^ (w - 3) < 2 ^ (w - 3) := Nat.mod_lt _ (Nat.two_pow_pos _)
  rw [← first, ← accessAddress_iff wide]
  constructor
  · intro same
    -- one byte of ones over cleared memory shows where each of the two stores it
    have here := same (fun _ => 0) (BitVec.ofNat _ 255)
    obtain ⟨word, bits, primitive⟩ :=
      setPrimitive_selected narrow selected (fun _ => 0) size (BitVec.ofNat _ 255)
    have ⟨accepted, refused⟩ := @setUxx_selected _ _ _ size _ wide selected (fun _ => 0) word
    rw [writeBits_of_inlined found fits, primitive] at here
    have room : WriteRoom w size bitOffset scalar.width := by
      by_contra cramped
      have codes := congrArg Prod.snd here
      rw [refused cramped] at codes
      have distinct : (0 : BitVec 8) ≠ bufferTooSmall := by decide
      exact distinct codes
    refine ⟨?_, room⟩
    by_contra apart
    have bytes := congrFun (congrArg Prod.fst here) (access.byteOffset % 2 ^ (w - 3))
    have small : ((BitVec.ofNat scalar.valueType.bits 255).setWidth scalar.width).toNat < 256 := by
      rw [BitVec.toNat_setWidth, BitVec.toNat_ofNat]
      exact lt_of_le_of_lt ((Nat.mod_le _ _).trans (Nat.mod_le _ _)) (by decide)
    have set : word.getLsbD 0 = true := by
      have holds := selected.holds
      rw [bits 0 (by omega), BitVec.getLsbD_ofNat, decide_eq_true (by omega), Bool.true_and]
      decide
    rw [accepted room] at bytes
    dsimp only at bytes
    rw [store_elsewhere _ small _ (Ne.symm apart), if_pos (by omega), Nat.sub_self, Nat.mul_zero,
      BitVec.ushiftRight_zero] at bytes
    have low : (0 : Byte).getLsbD 0 = (word.setWidth 8).getLsbD 0 := by rw [bytes]
    rw [BitVec.getLsbD_setWidth, set] at low
    exact absurd low (by decide)
  · rintro ⟨reached, room⟩ buf value
    obtain ⟨word, bits, primitive⟩ := setPrimitive_selected narrow selected buf size value
    rw [writeBits_of_inlined found fits, primitive,
      (setUxx_selected wide selected buf word).1 room]
    refine Prod.ext ?_ rfl
    funext index
    have unit := unit_of_wide wide
    dsimp only
    rw [store_within _ _ _ (by omega), reached]
    by_cases inside : access.byteOffset % 2 ^ (w - 3) ≤ index ∧
        index < access.byteOffset % 2 ^ (w - 3) + access.bytes
    · rw [if_pos inside, if_pos inside]
      apply BitVec.eq_of_getLsbD_eq
      intro bit inByte
      have held : 8 * (index - access.byteOffset % 2 ^ (w - 3)) + bit < scalar.width := by omega
      rw [BitVec.getLsbD_setWidth, BitVec.getLsbD_setWidth, BitVec.getLsbD_ushiftRight,
        BitVec.getLsbD_ushiftRight, BitVec.getLsbD_setWidth, bits _ held, decide_eq_true held,
        Bool.true_and]
    · rw [if_neg inside, if_neg inside]

/-- All memory is loaded as the primitive reads it exactly where the index reaches the field and
the primitive reads all of it. -/
theorem readBits_iff_of_inlined (wide : 8 ≤ w) (narrow : w ≤ 64)
    (found : alignedAccess true bitOffset scalar = some access)
    (fits : accessFits size access = true) :
    (∀ buf : Bytes,
      readBits w true scalar buf size bitOffset = getPrimitive w scalar buf size bitOffset) ↔
      Addressed w (bitOffset.toNat / 8) ∧ ReadRoom w size bitOffset scalar.width := by
  have selected := selected_of_alignedAccess found
  have ⟨whole, large, inWord, _⟩ := selected.parts
  have first : access.byteOffset = bitOffset.toNat / 8 := by rw [selected.shape]
  have eighth := eight_mul_two_pow wide
  have counted : access.byteOffset % 2 ^ (w - 3) < 2 ^ (w - 3) := Nat.mod_lt _ (Nat.two_pow_pos _)
  have start := selected.offset wide
  have readable := @toNat_readable _ _ _ size _ wide selected
  have loaded : (∀ buf : Bytes,
      readBits w true scalar buf size bitOffset = getPrimitive w scalar buf size bitOffset) ↔
      ∀ (buf : Bytes), ∀ bit < scalar.width,
        (buf (accessAddress w access + BitVec.ofNat w (bit / 8)).toNat).getLsbD (bit % 8) =
          (decide (bit < min scalar.width (8 * size.toNat % 2 ^ w - bitOffset.toNat % 2 ^ w)) &&
            bitAt buf (8 * (access.byteOffset % 2 ^ (w - 3)) + bit)) := by
    apply forall_congr'
    intro buf
    rw [readBits_of_inlined found fits, getPrimitive_selected narrow selected,
      (coerce_injective scalar.isSigned selected.holds).eq_iff]
    constructor
    · intro same bit inside
      have there := congrArg (fun value : BitVec scalar.width => value.getLsbD bit) same
      rw [getLsbD_load buf _ whole inside, getLsbD_getUnsigned wide whole _ _ _ _ inside, readable,
        start] at there
      exact there
    · intro same
      apply BitVec.eq_of_getLsbD_eq
      intro bit inside
      rw [getLsbD_load buf _ whole inside, getLsbD_getUnsigned wide whole _ _ _ _ inside, readable,
        start]
      exact same bit inside
  rw [loaded, ← first, ← accessAddress_iff wide]
  constructor
  · intro same
    -- memory of ones shows how many bits the primitive takes
    have last := same (fun _ => 255) (scalar.width - 1) (by omega)
    have ones : ∀ bit < 8, (255 : Byte).getLsbD bit = true := by decide
    rw [ones _ (by omega)] at last
    have taken := of_decide_eq_true (Bool.and_eq_true_iff.mp last.symm).1
    have room : ReadRoom w size bitOffset scalar.width := by
      rw [ReadRoom]
      omega
    refine ⟨?_, room⟩
    -- memory with one bit set shows where each of the two looks for it
    by_contra apart
    have single := same (fun index => if index = access.byteOffset % 2 ^ (w - 3) then 1 else 0) 0
      (by omega)
    have origin : accessAddress w access + BitVec.ofNat w (0 / 8) = accessAddress w access := by
      simp
    have place : bitAt (fun index => if index = access.byteOffset % 2 ^ (w - 3) then 1 else 0)
        (8 * (access.byteOffset % 2 ^ (w - 3)) + 0) = true := by
      rw [Runtime.bitAt_mul_add _ _ (by decide), if_pos rfl]
      decide
    rw [origin, if_neg apart, place, decide_eq_true (by omega), Bool.and_true] at single
    exact absurd single (by decide)
  · rintro ⟨reached, room⟩ buf bit inside
    have unit := unit_of_wide wide
    rw [ReadRoom] at room
    have taken : bit < min scalar.width (8 * size.toNat % 2 ^ w - bitOffset.toNat % 2 ^ w) := by
      omega
    have place : (accessAddress w access + BitVec.ofNat w (bit / 8)).toNat =
        access.byteOffset % 2 ^ (w - 3) + bit / 8 := by
      rw [BitVec.toNat_add, BitVec.toNat_ofNat, Nat.add_mod_mod, reached,
        Nat.mod_eq_of_lt (by omega)]
    have quotient : (8 * (access.byteOffset % 2 ^ (w - 3)) + bit) / 8 =
        access.byteOffset % 2 ^ (w - 3) + bit / 8 := by omega
    have remainder : (8 * (access.byteOffset % 2 ^ (w - 3)) + bit) % 8 = bit % 8 := by omega
    rw [decide_eq_true taken, Bool.true_and, place, bitAt, quotient, remainder]

/-- A lowered access, on a target whose `size_t` has `w` bits, is the runtime's primitive for every
value and all memory exactly where it is not made in place, or the 32-bit index reaches the field
and the primitive counts all of the field into the buffer. -/
theorem lowering_iff_primitive (wide : 8 ≤ w) (narrow : w ≤ 64) (scalar : Scalar)
    (bitOffset size : Word) :
    ((∀ (buf : Bytes) (value : BitVec scalar.valueType.bits),
        writeBits w true scalar buf size bitOffset value =
          setPrimitive w scalar buf size bitOffset value) ↔
      (Inlined scalar bitOffset size →
        Addressed w (bitOffset.toNat / 8) ∧ WriteRoom w size bitOffset scalar.width)) ∧
    ((∀ buf : Bytes,
        readBits w true scalar buf size bitOffset = getPrimitive w scalar buf size bitOffset) ↔
      (Inlined scalar bitOffset size →
        Addressed w (bitOffset.toNat / 8) ∧ ReadRoom w size bitOffset scalar.width)) := by
  by_cases inlined : Inlined scalar bitOffset size
  · obtain ⟨access, found, fits⟩ := inlined
    have here : Inlined scalar bitOffset size := ⟨access, found, fits⟩
    rw [writeBits_iff_of_inlined wide narrow found fits,
      readBits_iff_of_inlined wide narrow found fits]
    exact ⟨⟨fun holds _ => holds, fun holds => holds here⟩,
      ⟨fun holds _ => holds, fun holds => holds here⟩⟩
  · constructor
    · constructor
      · exact fun _ here => absurd here inlined
      · exact fun _ buf value => writeBits_of_not_inlined inlined buf value
    · constructor
      · exact fun _ here => absurd here inlined
      · exact fun _ buf => readBits_of_not_inlined inlined buf

end Agreement

/-- A `uint8` in the plan's `i64`. -/
def octet : Scalar :=
  { valueType := .integer 64, width := 8, isSigned := false, carried := trivial }

/-- The second byte of four, on a 64-bit target. -/
theorem lowering_iff_primitive_octet :
    readBits 64 true octet (fun _ => 0xA5) 4 8 = getPrimitive 64 octet (fun _ => 0xA5) 4 8 :=
  (lowering_iff_primitive (by decide) (by decide) octet 8 4).2.mpr
    (fun _ => ⟨(addressed_wide_iff (by decide)).mpr (by decide), by decide⟩) _

/-- Memory that holds one nonzero byte, `2 ^ 31` bytes into the buffer. -/
def farByte : Bytes := fun index => if index = 2 ^ 31 then 0xA5 else 0

/-- The first byte whose offset is no `int32_t`, on a 64-bit target: the primitive reads it, and
the lowered read looks `2 ^ 31` bytes before the buffer. A write misses it in the same way. -/
theorem far_byte_missed :
    alignedAccess true 0x400000000 octet = some ⟨2 ^ 31, 1⟩ ∧
      accessFits 0x80000001 ⟨2 ^ 31, 1⟩ = true ∧
      accessAddress 64 ⟨2 ^ 31, 1⟩ = -0x80000000#64 ∧
      getPrimitive 64 octet farByte 0x80000001 0x400000000 = 0xA5#64 ∧
      readBits 64 true octet farByte 0x80000001 0x400000000 = 0#64 ∧
      (setPrimitive 64 octet farByte 0x80000001 0x400000000 0#64).1 (2 ^ 31) = 0 ∧
      (writeBits 64 true octet farByte 0x80000001 0x400000000 0#64).1 (2 ^ 31) = 0xA5 := by
  refine ⟨by decide, by decide, by decide, ?_, ?_, by decide, by decide⟩
  · exact BitVec.eq_of_toNat_eq (by decide)
  · exact BitVec.eq_of_toNat_eq (by decide)

end LlvmDsdl.Transforms.ConvertDSDLToLLVM
