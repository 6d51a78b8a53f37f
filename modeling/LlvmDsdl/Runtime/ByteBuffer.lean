import LlvmDsdl.Runtime.CopyBits

/-!
Contract: byte buffers of the scripting runtimes, bit by bit.

Owns: a buffer as its bytes, with the bits read as zero past its end; storing one
bit; storing a run of bits, which ends at the first bit outside the buffer; moving
whole bytes; and `Written`, which says what a buffer holds after any of these.
-/

namespace LlvmDsdl.Runtime

abbrev Buffer := List Byte

/-- What a call leaves: the destination afterwards, and its result or the message it raised. -/
abbrev Outcome (α : Type) := Buffer × Except String α

/-- Both raise or both succeed with one result, and the destination is the same afterwards. -/
def SameOutcome {α : Type} (left right : Outcome α) : Prop :=
  left.1 = right.1 ∧ left.2.toOption = right.2.toOption

namespace Buffer

def contents (buffer : Buffer) : Bytes := fun index => buffer.getD index 0

def bitOf (buffer : Buffer) (position : ℕ) : Bool := bitAt (contents buffer) position

theorem bitOf_beyond (buffer : Buffer) {position : ℕ} (beyond : 8 * buffer.length ≤ position) :
    bitOf buffer position = false := by
  have outside : buffer.length ≤ position / 8 := by omega
  rw [bitOf, bitAt, contents, List.getD_eq_default _ _ outside]
  exact BitVec.getLsbD_zero

theorem ext_bits {left right : Buffer} (lengths : left.length = right.length)
    (bits : ∀ position < 8 * left.length, bitOf left position = bitOf right position) :
    left = right := by
  apply List.ext_getElem lengths
  intro index inLeft inRight
  apply BitVec.eq_of_getLsbD_eq
  intro bit inByte
  have same := bits (8 * index + bit) (by omega)
  rw [bitOf, bitOf, bitAt_mul_add _ _ inByte, bitAt_mul_add _ _ inByte, contents, contents,
    List.getD_eq_getElem _ _ inLeft, List.getD_eq_getElem _ _ inRight] at same
  exact same

/-- The run of `count` bits from `start` on, as far as it lies inside the buffer, holds `bits`; the
rest is as it was. -/
structure Written (buffer : Buffer) (start count : ℕ) (bits : ℕ → Bool) (result : Buffer) : Prop where
  length : result.length = buffer.length
  bit : ∀ position < 8 * buffer.length, bitOf result position =
    if start ≤ position ∧ position < start + count then bits (position - start)
    else bitOf buffer position

/-- Every bit of the run that lies inside the buffer is there already. -/
def Already (buffer : Buffer) (start count : ℕ) (bits : ℕ → Bool) : Prop :=
  ∀ position < 8 * buffer.length, start ≤ position → position < start + count →
    bitOf buffer position = bits (position - start)

theorem Written.unique {buffer result other : Buffer} {start count : ℕ} {bits : ℕ → Bool}
    (left : Written buffer start count bits result)
    (right : Written buffer start count bits other) : result = other := by
  apply ext_bits (left.length.trans right.length.symm)
  intro position inside
  rw [left.length] at inside
  rw [left.bit position inside, right.bit position inside]

theorem Written.congr {buffer result : Buffer} {start count : ℕ} {bits other : ℕ → Bool}
    (written : Written buffer start count bits result)
    (same : ∀ index < count, bits index = other index) :
    Written buffer start count other result := by
  refine ⟨written.length, ?_⟩
  intro position inside
  rw [written.bit position inside]
  by_cases inRun : start ≤ position ∧ position < start + count
  · rw [if_pos inRun, if_pos inRun, same _ (by omega)]
  · rw [if_neg inRun, if_neg inRun]

/-- A write changes nothing exactly where its bits are there already. -/
theorem Written.eq_self_iff {buffer result : Buffer} {start count : ℕ} {bits : ℕ → Bool}
    (written : Written buffer start count bits result) :
    result = buffer ↔ Already buffer start count bits := by
  constructor
  · intro same position inside after before
    have bit := written.bit position inside
    rw [same, if_pos ⟨after, before⟩] at bit
    exact bit
  · intro already
    apply ext_bits written.length
    intro position inside
    rw [written.length] at inside
    rw [written.bit position inside]
    by_cases inRun : start ≤ position ∧ position < start + count
    · rw [if_pos inRun, already position inside inRun.1 inRun.2]
    · rw [if_neg inRun]

theorem written_nothing (buffer : Buffer) (start : ℕ) (bits : ℕ → Bool) :
    Written buffer start 0 bits buffer := by
  refine ⟨rfl, ?_⟩
  intro position _
  rw [if_neg (by omega)]

/-- `byte`, with its bit `index` set to `value`. -/
def withBit (byte : Byte) (index : ℕ) (value : Bool) : Byte :=
  if value then byte ||| (1#8 <<< index) else byte &&& ~~~(1#8 <<< index)

theorem getLsbD_withBit (byte : Byte) {index bit : ℕ} (value : Bool) (inside : index < 8)
    (inByte : bit < 8) :
    (withBit byte index value).getLsbD bit = if bit = index then value else byte.getLsbD bit := by
  have mask : (1#8 <<< index).getLsbD bit = decide (bit = index) := by
    have all : ∀ i < 8, ∀ b < 8, (1#8 <<< i).getLsbD b = decide (b = i) := by decide
    exact all index inside bit inByte
  cases value with
  | false =>
      rw [withBit, if_neg Bool.false_ne_true, BitVec.getLsbD_and, BitVec.getLsbD_not, mask]
      by_cases here : bit = index
      · simp [here]
      · simp [here, inByte]
  | true =>
      rw [withBit, if_pos rfl, BitVec.getLsbD_or, mask]
      by_cases here : bit = index
      · simp [here]
      · simp [here]

theorem bitOf_set (buffer : Buffer) {position : ℕ} (value : Bool)
    (inside : position < 8 * buffer.length) (other : ℕ) :
    bitOf (buffer.set (position / 8) (withBit (contents buffer (position / 8)) (position % 8) value))
        other =
      if other = position then value else bitOf buffer other := by
  have inBuffer : position / 8 < buffer.length := by omega
  have stored : contents (buffer.set (position / 8)
      (withBit (contents buffer (position / 8)) (position % 8) value)) =
      Function.update (contents buffer) (position / 8)
        (withBit (contents buffer (position / 8)) (position % 8) value) := by
    funext index
    by_cases here : index = position / 8
    · rw [here, Function.update_self, contents, List.getD_eq_getElem _ _ (by simpa using inBuffer),
        List.getElem_set_self]
    · rw [Function.update_of_ne here, contents, contents, List.getD_eq_getElem?_getD,
        List.getElem?_set_ne (Ne.symm here), ← List.getD_eq_getElem?_getD, contents]
  rw [bitOf, stored, bitAt_update, bitOf]
  by_cases here : other / 8 = position / 8
  · rw [if_pos here, getLsbD_withBit _ _ (by omega) (by omega)]
    by_cases same : other = position
    · rw [if_pos same, if_pos (by omega)]
    · rw [if_neg same, if_neg (by omega), bitAt, here]
  · have apart : other ≠ position := by
      intro same
      exact here (by rw [same])
    rw [if_neg here, if_neg apart]

/-- Stores one bit, or raises where the buffer has ended. -/
def storeBit (tooSmall : String) (buffer : Buffer) (offBits : ℕ) (value : Bool) :
    Except String Buffer :=
  let byteIndex := offBits / 8
  let bitIndex := offBits % 8
  if byteIndex < buffer.length then
    .ok (buffer.set byteIndex (withBit (contents buffer byteIndex) bitIndex value))
  else .error tooSmall

/-- Stores `remaining` bits from bit `index` of the run on; a bit outside the buffer ends it, and
what was stored stays. -/
def storeBits (tooSmall : String) (bits : ℕ → Bool) (start : ℕ) :
    ℕ → ℕ → Buffer → Outcome Unit
  | 0, _, buffer => (buffer, .ok ())
  | remaining + 1, index, buffer =>
      match storeBit tooSmall buffer (start + index) (bits index) with
      | .ok next => storeBits tooSmall bits start remaining (index + 1) next
      | .error message => (buffer, .error message)

private theorem storeBits_from (tooSmall : String) (bits : ℕ → Bool) (start remaining index : ℕ)
    (buffer : Buffer) :
    Written buffer (start + index) remaining (fun offset => bits (index + offset))
        (storeBits tooSmall bits start remaining index buffer).1 ∧
      (storeBits tooSmall bits start remaining index buffer).2 =
        if remaining = 0 ∨ start + index + remaining ≤ 8 * buffer.length then .ok ()
        else .error tooSmall := by
  induction remaining generalizing index buffer with
  | zero => exact ⟨written_nothing _ _ _, rfl⟩
  | succ remaining ih =>
      by_cases inside : (start + index) / 8 < buffer.length
      · have inBits : start + index < 8 * buffer.length := by omega
        have stored := bitOf_set buffer (bits index) inBits
        have next : storeBit tooSmall buffer (start + index) (bits index) =
            .ok (buffer.set ((start + index) / 8)
              (withBit (contents buffer ((start + index) / 8)) ((start + index) % 8)
                (bits index))) := if_pos inside
        rw [storeBits, next]
        dsimp only
        generalize nextIs : buffer.set ((start + index) / 8) _ = after at stored
        have kept : after.length = buffer.length := by
          rw [← nextIs, List.length_set]
        have ⟨written, ending⟩ := ih (index + 1) after
        constructor
        · refine ⟨written.length.trans kept, ?_⟩
          intro position inBuffer
          rw [written.bit position (by omega), stored]
          by_cases later : start + (index + 1) ≤ position ∧
              position < start + (index + 1) + remaining
          · have place : index + 1 + (position - (start + (index + 1))) =
                index + (position - (start + index)) := by omega
            rw [if_pos later, if_pos (by omega), place]
          · rw [if_neg later]
            by_cases here : position = start + index
            · have none : index + (position - (start + index)) = index := by omega
              rw [if_pos here, if_pos (by omega), none]
            · rw [if_neg here, if_neg (by omega)]
        · rw [ending, kept]
          by_cases fits : start + index + (remaining + 1) ≤ 8 * buffer.length
          · rw [if_pos (by omega), if_pos (by omega)]
          · rw [if_neg (by omega), if_neg (by omega)]
      · have refused : storeBit tooSmall buffer (start + index) (bits index) = .error tooSmall :=
          if_neg inside
        rw [storeBits, refused]
        dsimp only
        constructor
        · refine ⟨rfl, ?_⟩
          intro position inBuffer
          rw [if_neg (by omega)]
        · rw [if_neg (by omega)]

/-- A run of bits, one after another: what fits is stored, and what does not raises. -/
theorem storeBits_written (tooSmall : String) (bits : ℕ → Bool) (start count : ℕ)
    (buffer : Buffer) :
    Written buffer start count bits (storeBits tooSmall bits start count 0 buffer).1 := by
  have written := (storeBits_from tooSmall bits start count 0 buffer).1
  rw [Nat.add_zero] at written
  exact written.congr fun index _ => by rw [Nat.zero_add]

theorem storeBits_ending (tooSmall : String) (bits : ℕ → Bool) (start count : ℕ)
    (buffer : Buffer) :
    (storeBits tooSmall bits start count 0 buffer).2 =
      if count = 0 ∨ start + count ≤ 8 * buffer.length then .ok () else .error tooSmall :=
  (storeBits_from tooSmall bits start count 0 buffer).2

/-- `buffer`, with the bytes of `piece` in place of those from `first` on. -/
def splice (buffer : Buffer) (first : ℕ) (piece : Buffer) : Buffer :=
  buffer.take first ++ piece ++ buffer.drop (first + piece.length)

theorem splice_written {buffer : Buffer} {first : ℕ} {piece : Buffer}
    (fits : first + piece.length ≤ buffer.length) :
    Written buffer (8 * first) (8 * piece.length) (bitOf piece) (splice buffer first piece) := by
  have before : (buffer.take first).length = first := by
    rw [List.length_take]
    omega
  refine ⟨?_, ?_⟩
  · rw [splice, List.length_append, List.length_append, before, List.length_drop]
    omega
  · intro position inside
    rw [bitOf, bitAt, contents, splice]
    by_cases inRun : 8 * first ≤ position ∧ position < 8 * first + 8 * piece.length
    · have quotient : (position - 8 * first) / 8 = position / 8 - first := by omega
      have remainder : (position - 8 * first) % 8 = position % 8 := by omega
      rw [if_pos inRun, List.getD_append _ _ _ _ (by rw [List.length_append, before]; omega),
        List.getD_append_right _ _ _ _ (by omega), before, bitOf, bitAt, contents, quotient,
        remainder]
    · rw [if_neg inRun, bitOf, bitAt, contents]
      by_cases early : position / 8 < first
      · rw [List.append_assoc, List.getD_append _ _ _ _ (by omega), List.getD_eq_getElem?_getD,
          List.getElem?_take_of_lt early, ← List.getD_eq_getElem?_getD]
      · have place : first + piece.length + (position / 8 - (first + piece.length)) =
            position / 8 := by omega
        rw [List.getD_append_right _ _ _ _ (by rw [List.length_append, before]; omega),
          List.length_append, before, List.getD_eq_getElem?_getD, List.getElem?_drop, place,
          ← List.getD_eq_getElem?_getD]

theorem bitOf_take_drop (buffer : Buffer) (first count : ℕ) {position : ℕ}
    (inside : position < 8 * count) :
    bitOf ((buffer.drop first).take count) position = bitOf buffer (8 * first + position) := by
  have quotient : (8 * first + position) / 8 = first + position / 8 := by omega
  have remainder : (8 * first + position) % 8 = position % 8 := by omega
  rw [bitOf, bitOf, bitAt, bitAt, quotient, remainder, contents, contents,
    List.getD_eq_getElem?_getD, List.getD_eq_getElem?_getD,
    List.getElem?_take_of_lt (by omega), List.getElem?_drop]

end Buffer

end LlvmDsdl.Runtime
