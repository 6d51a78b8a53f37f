import LlvmDsdl.Runtime.TypeScriptRuntime
import LlvmDsdl.Transforms.Helpers

/-!
Contract: an integer field in the targets whose integers have no width.

Owns: the `i64` value a scalar helper returns, as the unbounded integers Python and
TypeScript compute it; the store of an integer field by the serialiser of either
target, on any of its runtimes; when a saturated store leaves the nearest value of
the field; and where the spelled helper parts from the plan's words.

A `number` and a `bigint` compare by the integers they hold.
-/

namespace LlvmDsdl.CodeGen

open LlvmDsdl.Runtime
open LlvmDsdl.Runtime.Buffer
open LlvmDsdl.Runtime.Accelerator
open LlvmDsdl.Transforms

inductive Comparison where
  | eq
  | ne
  | ltS
  | leS
  | gtS
  | geS
  | ltU
  | leU
  | gtU
  | geU
deriving DecidableEq, Repr

def Comparison.isUnsigned : Comparison → Bool
  | .ltU | .leU | .gtU | .geU => true
  | .eq | .ne | .ltS | .leS | .gtS | .geS => false

def Comparison.onIntegers (comparison : Comparison) (left right : ℤ) : Bool :=
  match comparison with
  | .eq => left == right
  | .ne => left != right
  | .ltS | .ltU => decide (left < right)
  | .leS | .leU => decide (left ≤ right)
  | .gtS | .gtU => decide (right < left)
  | .geS | .geU => decide (right ≤ left)

/-- An `i64` of a scalar helper's body. -/
inductive HelperValue where
  | argument
  | constant (word : Word)
  | andI (left right : HelperValue)
  | orI (left right : HelperValue)
  | select (comparison : Comparison) (left right ifTrue ifFalse : HelperValue)

/-- The text of the value starts with a minus sign. Only a constant is spelled in place. -/
def HelperValue.startsWithMinus : HelperValue → Bool
  | .constant word => decide (word.toInt < 0)
  | .argument | .andI _ _ | .orI _ _ | .select _ _ _ _ _ => false

/-- The value as its spelling computes it. A constant is the integer its two's complement stands
for, and an unsigned comparison beside a negative literal reads both sides modulo `2 ^ 64`. -/
def HelperValue.onIntegers : HelperValue → ℤ → ℤ
  | .argument, value => value
  | .constant word, _ => word.toInt
  | .andI left right, value => Int.land (left.onIntegers value) (right.onIntegers value)
  | .orI left right, value => Int.lor (left.onIntegers value) (right.onIntegers value)
  | .select comparison left right ifTrue ifFalse, value =>
      let a := left.onIntegers value
      let b := right.onIntegers value
      let holds :=
        if comparison.isUnsigned && (left.startsWithMinus || right.startsWithMinus) then
          comparison.onIntegers (a % 2 ^ 64) (b % 2 ^ 64)
        else comparison.onIntegers a b
      if holds then ifTrue.onIntegers value else ifFalse.onIntegers value

/-- The ops the lowering emits for a shape. -/
def scalarHelperValue (body : HelperBody) : HelperValue :=
  let maskConst := HelperValue.constant (lowMask body.bits)
  match body.kind with
  | .identity => .argument
  | .mask => .andI .argument maskConst
  | .saturateUnsigned => .select .gtU .argument maskConst maskConst .argument
  | .saturateSigned =>
      let minConst := HelperValue.constant body.minValue
      let maxConst := HelperValue.constant body.maxValue
      let clampedLow := HelperValue.select .ltS .argument minConst minConst .argument
      .select .gtS .argument maxConst maxConst clampedLow
  | .signExtend =>
      let signConst := HelperValue.constant (1#64 <<< (body.bits - 1))
      let extendConst := HelperValue.constant (~~~lowMask body.bits)
      let masked := HelperValue.andI .argument maskConst
      let signPart := HelperValue.andI masked signConst
      .select .ne signPart (.constant 0) (.orI masked extendConst) masked

structure IntegerField where
  isSigned : Bool
  castMode : CastMode
  bitLength : ℕ
  positive : 1 ≤ bitLength
  narrow : bitLength ≤ 64

/-- What the serialise helper of the field returns for a loaded value. -/
def IntegerField.normalised (field : IntegerField) (value : ℤ) : ℤ :=
  let kind := if field.isSigned then HelperScalarKind.signed else HelperScalarKind.unsigned
  let body :=
    helperBodyForScalar kind field.bitLength (field.castMode == .saturated) .serialize
  (scalarHelperValue body).onIntegers value

/-- The field's bits as the Python serialiser stores them with the pure runtime: the member read
with `int`, normalised, and written without the runtime's own saturation. -/
def IntegerField.pythonStore (field : IntegerField) (buf : Buffer) (offset : ℕ) (access : ℤ) :
    Runtime.Outcome ℤ :=
  let value := field.normalised access
  if field.isSigned then Python.writeSigned buf offset field.bitLength value false
  else Python.writeUnsigned buf offset field.bitLength value false

def IntegerField.acceleratedStore (field : IntegerField) (held : Accelerator.Held) (offset : Word)
    (access : ℤ) : Option (Runtime.Outcome ℤ) :=
  let value := field.normalised access
  let width : Word := BitVec.ofNat 64 field.bitLength
  if field.isSigned then Accelerator.writeSigned held offset width value false
  else Accelerator.writeUnsigned held offset width value false

/-- The member as a `bigint`: a field of more than 53 bits is kept as one. -/
def IntegerField.loadedValue (field : IntegerField) (access : TypeScript.Integer) :
    TypeScript.Integer :=
  if 53 < field.bitLength then access else .bigint (TypeScript.toBigIntValue access)

/-- The field's bits as the TypeScript serialiser stores them, with either runtime. -/
def IntegerField.typeScriptStore (field : IntegerField) (buf : Buffer) (offset : ℕ)
    (access : TypeScript.Integer) : Runtime.Outcome ℤ :=
  let loaded := TypeScript.toBigIntValue (field.loadedValue access)
  let value := TypeScript.Integer.bigint (field.normalised loaded)
  if field.isSigned then TypeScript.writeSigned buf offset field.bitLength value false
  else TypeScript.writeUnsigned buf offset field.bitLength value false

def IntegerField.lowest (field : IntegerField) : ℤ :=
  if field.isSigned then -2 ^ (field.bitLength - 1) else 0

def IntegerField.highest (field : IntegerField) : ℤ :=
  if field.isSigned then 2 ^ (field.bitLength - 1) - 1 else 2 ^ field.bitLength - 1

def IntegerField.nearest (field : IntegerField) (value : ℤ) : ℤ :=
  max field.lowest (min value field.highest)

/-- A store that succeeds and leaves the bits of `value` in the field, and every other bit. -/
structure Stores (field : IntegerField) (buf : Buffer) (offset : ℕ) (value : ℤ)
    (outcome : Runtime.Outcome ℤ) : Prop where
  succeeded : outcome.2 = .ok 0
  written : Written buf offset field.bitLength (Python.bitOfInt value) outcome.1

/-- The helper clamps below the range of a signed field and above that of either, of fewer than 64
bits; elsewhere an integer outside the range is stored as its residue, which is the bound only
for a whole number of moduli past it. -/
def IntegerField.Clamped (field : IntegerField) (value : ℤ) : Prop :=
  (value < field.lowest →
    (field.isSigned = true ∧ field.bitLength < 64) ∨
      (2 : ℤ) ^ field.bitLength ∣ value - field.lowest) ∧
  (field.highest < value →
    field.bitLength < 64 ∨ (2 : ℤ) ^ field.bitLength ∣ value - field.highest)

section Helper

variable {field : IntegerField}

private theorem toInt_lowMask {bits : ℕ} (smaller : bits < 64) :
    (lowMask bits).toInt = 2 ^ bits - 1 := by
  have value := toNat_lowMask smaller
  have bound : 2 ^ bits ≤ 2 ^ 63 := Nat.pow_le_pow_right (by decide) (by omega)
  have positive : 0 < 2 ^ bits := Nat.two_pow_pos bits
  rw [BitVec.toInt_eq_toNat_of_lt (by omega), value, Nat.cast_sub positive]
  push_cast
  rfl

theorem normalised_unsigned (saturated : field.castMode = .saturated)
    (unsigned : field.isSigned = false) (smaller : field.bitLength < 64) (value : ℤ) :
    field.normalised value = min value field.highest := by
  have mask := toInt_lowMask smaller
  have plain : (HelperValue.argument.startsWithMinus ||
      (HelperValue.constant (lowMask field.bitLength)).startsWithMinus) = false := by
    have notNegative : ¬(lowMask field.bitLength).toInt < 0 := by
      have positive : (0 : ℤ) < 2 ^ field.bitLength := by positivity
      omega
    exact decide_eq_false notNegative
  simp only [IntegerField.normalised, helperBodyForScalar, scalarHelperValue,
    HelperValue.onIntegers, Comparison.onIntegers, plain, saturated, unsigned, smaller, mask,
    IntegerField.highest, decide_true, decide_eq_true_eq, beq_self_eq_true, Bool.and_self,
    Bool.and_false, Bool.false_eq_true, if_true, if_false]
  split_ifs <;> omega

theorem normalised_signed (saturated : field.castMode = .saturated)
    (signed : field.isSigned = true) (smaller : field.bitLength < 64) (value : ℤ) :
    field.normalised value = field.nearest value := by
  have least := toInt_minValue field.positive smaller
  have greatest := toInt_maxValue field.positive smaller
  have some : 0 < field.bitLength := field.positive
  have positive : (0 : ℤ) < 2 ^ (field.bitLength - 1) := by positivity
  simp only [IntegerField.normalised, helperBodyForScalar, scalarHelperValue,
    HelperValue.onIntegers, Comparison.onIntegers, Comparison.isUnsigned, saturated, signed,
    smaller, some, least, greatest, IntegerField.nearest, IntegerField.lowest,
    IntegerField.highest, decide_true, decide_eq_true_eq, beq_self_eq_true, Bool.and_self,
    Bool.false_and, Bool.false_eq_true, if_true, if_false]
  split_ifs <;> omega

theorem normalised_full (full : field.bitLength = 64) (value : ℤ) :
    field.normalised value = value := by
  obtain ⟨isSigned, castMode, bitLength, positive, narrow⟩ := field
  dsimp only at full
  subst full
  cases isSigned <;> cases castMode <;> rfl

theorem lowest_le_highest (field : IntegerField) : field.lowest ≤ field.highest := by
  have half : (0 : ℤ) < 2 ^ (field.bitLength - 1) := by positivity
  have whole : (0 : ℤ) < 2 ^ field.bitLength := by positivity
  rw [IntegerField.lowest, IntegerField.highest]
  split_ifs <;> omega

/-- What the helper returns has the residue of the nearest value just where it clamps. -/
theorem clamped_iff (saturated : field.castMode = .saturated) (value : ℤ) :
    (2 : ℤ) ^ field.bitLength ∣ field.normalised value - field.nearest value ↔
      field.Clamped value := by
  have ordered := lowest_le_highest field
  rcases Nat.lt_or_eq_of_le field.narrow with smaller | full
  · cases signed : field.isSigned with
    | true =>
        have same := normalised_signed saturated signed smaller value
        simp [same, IntegerField.Clamped, signed, smaller]
    | false =>
        have same := normalised_unsigned saturated signed smaller value
        by_cases below : value < field.lowest
        · have returned : field.normalised value = value := by omega
          have bound : field.nearest value = field.lowest := by
            rw [IntegerField.nearest]
            omega
          have notAbove : ¬field.highest < value := by omega
          simp [returned, bound, IntegerField.Clamped, signed, below, notAbove]
        · have bound : field.nearest value = field.normalised value := by
            rw [IntegerField.nearest]
            omega
          simp [bound, IntegerField.Clamped, below, smaller]
  · have wide : ¬field.bitLength < 64 := by omega
    rw [normalised_full full]
    by_cases below : value < field.lowest
    · have bound : field.nearest value = field.lowest := by
        rw [IntegerField.nearest]
        omega
      have notAbove : ¬field.highest < value := by omega
      simp [bound, IntegerField.Clamped, below, notAbove, wide]
    · by_cases above : field.highest < value
      · have bound : field.nearest value = field.highest := by
          rw [IntegerField.nearest]
          omega
        simp [bound, IntegerField.Clamped, below, above, wide]
      · have bound : field.nearest value = value := by
          rw [IntegerField.nearest]
          omega
        simp [bound, IntegerField.Clamped, below, above]

end Helper

/-- The bits of two integers below a width are the same just where their residues are. -/
theorem sameBits_iff (left right : ℤ) (width : ℕ) :
    (∀ index < width, Python.bitOfInt left index = Python.bitOfInt right index) ↔
      (2 : ℤ) ^ width ∣ left - right := by
  have modulus : (0 : ℤ) < 2 ^ width := by positivity
  rw [dvd_sub_comm, ← Int.modEq_iff_dvd, Int.ModEq]
  constructor
  · intro same
    have asNat (value : ℤ) : ∃ residue : ℕ, value % 2 ^ width = residue ∧ residue < 2 ^ width := by
      refine ⟨(value % 2 ^ width).toNat, ?_, ?_⟩
      · exact (Int.toNat_of_nonneg (Int.emod_nonneg _ modulus.ne')).symm
      · have below := Int.emod_lt_of_pos value modulus
        have nonnegative := Int.emod_nonneg value modulus.ne'
        zify
        rw [Int.toNat_of_nonneg nonnegative]
        exact below
    obtain ⟨leftResidue, leftIs, leftSmall⟩ := asNat left
    obtain ⟨rightResidue, rightIs, rightSmall⟩ := asNat right
    rw [leftIs, rightIs]
    congr 1
    apply Nat.eq_of_testBit_eq
    intro index
    by_cases inside : index < width
    · have there := same index inside
      rw [← bitOfInt_emod left inside, ← bitOfInt_emod right inside, leftIs, rightIs,
        bitOfInt_natCast, bitOfInt_natCast] at there
      exact there
    · have outside : 2 ^ width ≤ 2 ^ index := Nat.pow_le_pow_right (by decide) (by omega)
      rw [Nat.testBit_lt_two_pow (by omega), Nat.testBit_lt_two_pow (by omega)]
  · intro same index inside
    rw [← bitOfInt_emod left inside, ← bitOfInt_emod right inside, same]

section Store

variable {field : IntegerField} {buf : Buffer} {offset : ℕ}

/-- A store of one integer is a store of another just where their residues are the same. -/
theorem Stores.iff_dvd {stored : ℤ} {outcome : Runtime.Outcome ℤ}
    (fits : offset + field.bitLength ≤ 8 * buf.length)
    (stores : Stores field buf offset stored outcome) (value : ℤ) :
    Stores field buf offset value outcome ↔ (2 : ℤ) ^ field.bitLength ∣ stored - value := by
  rw [← sameBits_iff]
  constructor
  · intro other index inside
    have first := stores.written.bit (offset + index) (by omega)
    have second := other.written.bit (offset + index) (by omega)
    have place : offset + index - offset = index := by omega
    rw [if_pos (by omega), place] at first second
    exact first.symm.trans second
  · intro same
    exact ⟨stores.succeeded, stores.written.congr same⟩

/-- A writer's own saturation is off, so both leave the bits of the value they are given. -/
theorem pythonStore_stores (fits : offset + field.bitLength ≤ 8 * buf.length) (access : ℤ) :
    Stores field buf offset (field.normalised access) (field.pythonStore buf offset access) := by
  have wide : ¬(field.bitLength : ℤ) ≤ 0 := by
    have positive := field.positive
    omega
  have unsigned : field.pythonStore buf offset access =
      Python.writeUnsigned buf offset field.bitLength (field.normalised access) false := by
    rw [IntegerField.pythonStore]
    split_ifs
    · rw [Python.writeSigned, if_neg wide, Python.clampSigned, if_neg Bool.false_ne_true]
    · rfl
  obtain ⟨written, ending⟩ :=
    pureWrite_spec buf offset field.bitLength (field.normalised access) false
  rw [unsigned]
  refine ⟨ending.trans (if_pos (Or.inr fits)), ?_⟩
  exact written.congr fun index inside => encodePlain_bits _ inside

theorem typeScriptStore_eq (access : TypeScript.Integer) :
    field.typeScriptStore buf offset access =
      field.pythonStore buf offset (TypeScript.toBigIntValue access) := by
  have loaded : TypeScript.toBigIntValue (field.loadedValue access) =
      TypeScript.toBigIntValue access := by
    rw [IntegerField.loadedValue]
    split_ifs <;> rfl
  rw [IntegerField.typeScriptStore, IntegerField.pythonStore, loaded,
    TypeScript.writeSigned_eq_python, TypeScript.writeUnsigned_eq_python]
  rfl

theorem acceleratedStore_stores {held : Accelerator.Held} {start : Word}
    (fits : start.toNat + field.bitLength ≤ 8 * held.bytes.length) (access : ℤ) :
    ∃ outcome, field.acceleratedStore held start access = some outcome ∧
      Stores field held.bytes start.toNat (field.normalised access) outcome := by
  have masked : asUnsignedLongLongMask (field.bitLength : ℤ) = BitVec.ofNat 64 field.bitLength :=
    BitVec.ofInt_natCast 64 field.bitLength
  have width : lengthWord (field.bitLength : ℤ) = field.bitLength := by
    have narrow := field.narrow
    rw [lengthWord]
    omega
  have narrow : lengthWord (field.bitLength : ℤ) ≤ 64 := width.trans_le field.narrow
  have positive := field.positive
  have within (bits : ℤ → ℕ → Bool) :
      Accelerator.WriteCondition held.bytes start.toNat field.bitLength bits := by
    rw [Accelerator.WriteCondition, if_neg (by omega), if_neg (by omega)]
    exact Or.inl fits
  have agrees : Accelerator.Agrees (field.acceleratedStore held start access)
      (field.pythonStore held.bytes start.toNat access) := by
    rw [IntegerField.acceleratedStore, IntegerField.pythonStore, ← masked]
    split_ifs
    · refine (writeSigned_agrees_iff held start narrow _ false).mpr ⟨?_, within _⟩
      exact fun empty => Bool.false_ne_true empty.2
    · exact (writeUnsigned_agrees_iff held start narrow _ false).mpr (within _)
  obtain ⟨outcome, call, left, right⟩ := agrees
  have pure := pythonStore_stores fits access
  refine ⟨outcome, call, ?_, ?_⟩
  · rw [pure.succeeded] at right
    cases ending : outcome.2 with
    | error message =>
        rw [ending] at right
        cases right
    | ok result =>
        rw [ending] at right
        exact congrArg Except.ok (Option.some.inj right)
  · rw [left]
    exact pure.written

end Store

/-- A saturated store leaves the nearest value, in either target and on any runtime, just where the
helper clamps: a negative integer in an unsigned field, and any integer beyond a full word, is
masked instead. -/
theorem saturatedStore_iff (field : IntegerField) (saturated : field.castMode = .saturated)
    (value : ℤ) :
    (∀ (buf : Buffer) (offset : ℕ), offset + field.bitLength ≤ 8 * buf.length →
      (Stores field buf offset (field.nearest value) (field.pythonStore buf offset value) ↔
        field.Clamped value) ∧
      ∀ access : TypeScript.Integer, TypeScript.toBigIntValue access = value →
        (Stores field buf offset (field.nearest value)
            (field.typeScriptStore buf offset access) ↔
          field.Clamped value)) ∧
    ∀ (held : Accelerator.Held) (start : Word),
      start.toNat + field.bitLength ≤ 8 * held.bytes.length →
        ((∃ outcome, field.acceleratedStore held start value = some outcome ∧
            Stores field held.bytes start.toNat (field.nearest value) outcome) ↔
          field.Clamped value) := by
  rw [← clamped_iff saturated value]
  refine ⟨?_, ?_⟩
  · intro buf offset fits
    have python := (pythonStore_stores fits value).iff_dvd fits (field.nearest value)
    refine ⟨python, ?_⟩
    intro access same
    rw [typeScriptStore_eq, same]
    exact python
  · intro held start fits
    obtain ⟨outcome, call, stores⟩ := acceleratedStore_stores fits value
    have accelerated := stores.iff_dvd fits (field.nearest value)
    rw [← accelerated]
    constructor
    · rintro ⟨other, otherCall, nearest⟩
      rw [call] at otherCall
      rw [Option.some.inj otherCall]
      exact nearest
    · exact fun nearest => ⟨outcome, call, nearest⟩

/-- For a saturated field the helper's spelling on integers returns what the plan's helper does on
words, but for a negative value in an unsigned field: the plan clamps the word to the highest value
and the spelling leaves the integer as it is. -/
theorem normalised_words_iff (field : IntegerField) (saturated : field.castMode = .saturated)
    (word : Word) :
    let kind := if field.isSigned then HelperScalarKind.signed else HelperScalarKind.unsigned
    let onWords :=
      lowerScalarHelperBody (helperBodyForScalar kind field.bitLength true .serialize) word
    let agree := field.isSigned = true ∨ field.bitLength = 64 ∨ 0 ≤ word.toInt
    (field.normalised word.toInt = onWords.toInt ↔ agree) ∧
      (¬agree → onWords.toInt = field.highest ∧ field.normalised word.toInt = word.toInt) := by
  have positive : 0 < field.bitLength := field.positive
  rcases Nat.lt_or_eq_of_le field.narrow with smaller | full
  · cases signed : field.isSigned with
    | true =>
        have least := toInt_minValue positive smaller
        have greatest := toInt_maxValue positive smaller
        have half : (0 : ℤ) < 2 ^ (field.bitLength - 1) := by positivity
        simp only [normalised_signed saturated signed smaller, IntegerField.nearest, signed,
          IntegerField.lowest, IntegerField.highest, helperBodyForScalar, smaller, positive,
          lowerScalarHelperBody, BitVec.slt, least, greatest, decide_true, decide_eq_true_eq,
          Bool.and_true, beq_self_eq_true, if_true, true_or, iff_true, not_true_eq_false,
          false_implies, and_true]
        split_ifs <;> omega
    | false =>
        have mask := toInt_lowMask smaller
        have some : (0 : ℤ) < 2 ^ field.bitLength := by positivity
        have reading := BitVec.toInt_eq_toNat_cond word
        have maskReading := BitVec.toInt_eq_toNat_cond (lowMask field.bitLength)
        simp only [normalised_unsigned saturated signed smaller, IntegerField.highest, signed,
          helperBodyForScalar, smaller, lowerScalarHelperBody, BitVec.lt_def, decide_true,
          Bool.and_true, beq_self_eq_true, Bool.false_eq_true, if_true, if_false, false_or]
        split_ifs at reading maskReading ⊢ <;> omega
  · have returned := normalised_full full word.toInt
    cases field.isSigned <;> simp [returned, full, helperBodyForScalar, lowerScalarHelperBody]

/-- `saturated uint8`. -/
def octet : IntegerField :=
  { isSigned := false, castMode := .saturated, bitLength := 8, positive := by decide
    narrow := by decide }

/-- Minus one in a `saturated uint8`: 255 on words, and minus one as Python and TypeScript spell it. -/
theorem normalised_words_iff_negative :
    (lowerScalarHelperBody (helperBodyForScalar .unsigned 8 true .serialize) (-1#64)).toInt = 255 ∧
      octet.normalised (-1#64).toInt = -1 := by
  have ⟨_, values⟩ := normalised_words_iff octet rfl (-1#64)
  have parts := values (by decide)
  exact ⟨parts.1.trans (by decide), parts.2.trans (by decide)⟩

/-- An integer above the field is clamped. -/
theorem saturatedStore_iff_above :
    octet.Clamped 300 ∧ Stores octet [0] 0 (octet.nearest 300) (octet.pythonStore [0] 0 300) := by
  have clamped : octet.Clamped 300 := by
    constructor
    · intro below
      exact absurd below (by decide)
    · intro above
      exact Or.inl (by decide)
  have stored := ((saturatedStore_iff octet rfl 300).1 [0] 0 (by decide)).1
  exact ⟨clamped, stored.mpr clamped⟩

/-- Minus one in a `saturated uint8`: the nearest value is 0, and both targets write 255. -/
theorem negative_not_clamped :
    octet.nearest (-1) = 0 ∧
      octet.pythonStore [0] 0 (-1) = ([0xFF], .ok 0) ∧
      octet.typeScriptStore [0] 0 (.bigint (-1)) = ([0xFF], .ok 0) ∧
      ¬Stores octet [0] 0 (octet.nearest (-1)) (octet.pythonStore [0] 0 (-1)) ∧
      ¬Stores octet [0] 0 (octet.nearest (-1)) (octet.typeScriptStore [0] 0 (.bigint (-1))) := by
  have nearest : octet.nearest (-1) = 0 := by decide
  have python : octet.pythonStore [0] 0 (-1) = ([0xFF], .ok 0) := by decide
  have typeScript : octet.typeScriptStore [0] 0 (.bigint (-1)) = ([0xFF], .ok 0) := by decide
  have differs : ¬Stores octet [0] 0 0 (([0xFF], .ok 0) : Runtime.Outcome ℤ) := by
    intro stores
    exact absurd (stores.written.bit 0 (by decide)) (by decide)
  rw [nearest, python, typeScript]
  exact ⟨rfl, rfl, rfl, differs, differs⟩

end LlvmDsdl.CodeGen
