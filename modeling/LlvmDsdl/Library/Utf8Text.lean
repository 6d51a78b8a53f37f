import Mathlib

/-!
Contract: texts of characters as texts of their UTF-8 bytes.

Owns: the bytes of a text, a byte the character of its code; the code units in
terms of bit operations, the ASCII bytes among them and how a text is cut at one.
-/

namespace LlvmDsdl.Library.Utf8Text

def byteOf (byte : UInt8) : Char :=
  Char.ofNat byte.toNat

def encodeChar (c : Char) : List Char :=
  (String.utf8EncodeChar c).map byteOf

/-- The UTF-8 bytes of a text. -/
def encode (text : List Char) : List Char :=
  text.flatMap encodeChar

/-- One of the characters whose only byte is themselves. -/
def IsAscii (c : Char) : Prop := c.toNat < 128

instance (c : Char) : Decidable (IsAscii c) :=
  inferInstanceAs (Decidable (_ < _))

@[simp] theorem encode_nil : encode [] = [] := rfl

@[simp] theorem encode_cons (c : Char) (text : List Char) :
    encode (c :: text) = encodeChar c ++ encode text := rfl

def codePointBytes (codePoint : ℕ) : List ℕ :=
  if codePoint ≤ 0x7F then [codePoint]
  else if codePoint ≤ 0x7FF then [0xC0 ||| codePoint >>> 6, 0x80 ||| codePoint &&& 0x3F]
  else if codePoint ≤ 0xFFFF then
    [0xE0 ||| codePoint >>> 12, 0x80 ||| codePoint >>> 6 &&& 0x3F, 0x80 ||| codePoint &&& 0x3F]
  else
    [0xF0 ||| codePoint >>> 18, 0x80 ||| codePoint >>> 12 &&& 0x3F,
      0x80 ||| codePoint >>> 6 &&& 0x3F, 0x80 ||| codePoint &&& 0x3F]

theorem or_low {high low width : ℕ} (small : low < 2 ^ width) (aligned : 2 ^ width ∣ high) :
    high ||| low = high + low := by
  obtain ⟨count, rfl⟩ := aligned
  exact (Nat.two_pow_add_eq_or_of_lt small count).symm

theorem and_low (value : ℕ) : value &&& 0x3F = value % 64 :=
  Nat.and_two_pow_sub_one_eq_mod value 6

theorem toNat_lt (c : Char) : c.toNat < 0x110000 := by
  rcases c.valid with low | high
  · exact Nat.lt_trans low (by decide)
  · exact high.2

theorem encodeChar_eq (c : Char) : encodeChar c = (codePointBytes c.toNat).map Char.ofNat := by
  have bound := toNat_lt c
  have code : c.val.toNat = c.toNat := rfl
  rw [codePointBytes, encodeChar, String.utf8EncodeChar, code]
  simp only [and_low, Nat.shiftRight_eq_div_pow]
  have continuation (value : ℕ) :
      Char.ofNat (0x80 ||| value % 64) = byteOf (UInt8.ofNat (value % 0x40 + 0x80)) := by
    have bits : value % 64 < 2 ^ 6 := Nat.mod_lt _ (by decide)
    rw [or_low bits (by decide), byteOf, UInt8.toNat_ofNat']
    congr 1
    omega
  split
  · rw [List.map_cons, List.map_nil, List.map_cons, List.map_nil, byteOf, UInt8.toNat_ofNat',
      Nat.mod_eq_of_lt (by omega)]
  · split
    · have first : c.toNat / 2 ^ 6 < 2 ^ 5 := by omega
      simp only [List.map_cons, List.map_nil]
      rw [continuation, or_low first (by decide), byteOf, UInt8.toNat_ofNat']
      congr 2
      omega
    · split
      · have first : c.toNat / 2 ^ 12 < 2 ^ 4 := by omega
        simp only [List.map_cons, List.map_nil]
        rw [continuation, continuation, or_low first (by decide), byteOf, UInt8.toNat_ofNat']
        congr 2
        omega
      · have first : c.toNat / 2 ^ 18 < 2 ^ 3 := by omega
        simp only [List.map_cons, List.map_nil]
        rw [continuation, continuation, continuation, or_low first (by decide), byteOf,
          UInt8.toNat_ofNat']
        congr 2
        omega

variable {c : Char} {text before after : List Char}

theorem encodeChar_ascii (ascii : IsAscii c) : encodeChar c = [c] := by
  have small : c.toNat < 128 := ascii
  rw [encodeChar_eq, codePointBytes, if_pos (by omega), List.map_singleton, Char.ofNat_toNat]

theorem encode_append (text more : List Char) :
    encode (text ++ more) = encode text ++ encode more :=
  List.flatMap_append

theorem encode_ascii (ascii : ∀ c ∈ text, IsAscii c) : encode text = text := by
  induction text with
  | nil => rfl
  | cons c text ih =>
      rw [encode_cons, encodeChar_ascii (ascii c List.mem_cons_self),
        ih fun c member => ascii c (List.mem_cons_of_mem _ member)]
      rfl

theorem not_ascii_of_mem (notAscii : ¬IsAscii c) {byte : Char} (member : byte ∈ encodeChar c) :
    ¬IsAscii byte := by
  have large : 128 ≤ c.toNat := Nat.le_of_not_lt notAscii
  have bound := toNat_lt c
  have lead {high low : ℕ} (least : 128 ≤ high) (top : high < 2 ^ 8) (below : low < 2 ^ 8) :
      ¬IsAscii (Char.ofNat (high ||| low)) := by
    have grows : high ≤ high ||| low := Nat.left_le_or
    have fits := Nat.or_lt_two_pow top below
    have valid : (high ||| low).isValidChar := Or.inl (by omega)
    rw [IsAscii, Char.ofNat, dif_pos valid]
    show ¬(high ||| low) < 128
    omega
  have masked (value : ℕ) : value &&& 0x3F < 2 ^ 8 := by
    rw [and_low]
    omega
  rw [encodeChar_eq, codePointBytes] at member
  simp only [Nat.shiftRight_eq_div_pow] at member
  split at member
  · omega
  · split at member
    · simp only [List.map_cons, List.map_nil, List.mem_cons, List.not_mem_nil, or_false] at member
      rcases member with rfl | rfl
      · exact lead (by decide) (by decide) (by omega)
      · exact lead (by decide) (by decide) (masked _)
    · split at member <;>
        simp only [List.map_cons, List.map_nil, List.mem_cons, List.not_mem_nil, or_false]
          at member
      · rcases member with rfl | rfl | rfl
        · exact lead (by decide) (by decide) (by omega)
        · exact lead (by decide) (by decide) (masked _)
        · exact lead (by decide) (by decide) (masked _)
      · rcases member with rfl | rfl | rfl | rfl
        · exact lead (by decide) (by decide) (by omega)
        · exact lead (by decide) (by decide) (masked _)
        · exact lead (by decide) (by decide) (masked _)
        · exact lead (by decide) (by decide) (masked _)

theorem encodeChar_ne_nil : encodeChar c ≠ [] := by
  rw [encodeChar, Ne, List.map_eq_nil_iff]
  exact String.utf8EncodeChar_ne_nil

theorem encode_eq_nil : encode text = [] ↔ text = [] := by
  cases text with
  | nil => simp
  | cons c text => simp [encodeChar_ne_nil]

theorem encode_cut (ascii : IsAscii c) (whole : encode text = before ++ c :: after) :
    ∃ first last, text = first ++ c :: last ∧ before = encode first ∧ after = encode last := by
  induction text generalizing before with
  | nil => simp at whole
  | cons start text ih =>
      rw [encode_cons] at whole
      have later {more : List Char} (split : before = encodeChar start ++ more)
          (rest : encode text = more ++ c :: after) :
          ∃ first last, start :: text = first ++ c :: last ∧ before = encode first ∧
            after = encode last := by
        obtain ⟨first, last, rfl, rfl, rfl⟩ := ih rest
        exact ⟨start :: first, last, rfl, by rw [split, encode_cons], rfl⟩
      rcases List.append_eq_append_iff.mp whole with ⟨more, split, rest⟩ | ⟨more, split, rest⟩
      · exact later split rest
      · cases more with
        | nil =>
            have whole : before = encodeChar start ++ [] := by simpa using split.symm
            exact later whole (by simpa using rest.symm)
        | cons byte more =>
            rw [List.cons_append, List.cons.injEq] at rest
            have inside : c ∈ encodeChar start := by
              rw [split, ← rest.1]
              simp
            have startAscii : IsAscii start := by
              by_contra notAscii
              exact not_ascii_of_mem notAscii inside ascii
            rw [encodeChar_ascii startAscii, eq_comm, List.append_eq_singleton_iff] at split
            simp only [List.cons.injEq, reduceCtorEq, and_false, or_false] at split
            obtain ⟨empty, same, done⟩ := split
            refine ⟨[], text, ?_, empty, ?_⟩
            · rw [List.nil_append, rest.1, same]
            · rw [rest.2, done, List.nil_append]

/-- ASCII bytes at the start of the bytes of a text are its first characters. -/
theorem encode_leading (ascii : ∀ c ∈ before, IsAscii c) (whole : encode text = before ++ after) :
    ∃ last, text = before ++ last ∧ after = encode last := by
  induction before generalizing text with
  | nil => exact ⟨text, rfl, whole.symm⟩
  | cons c before ih =>
      have cut : encode text = [] ++ c :: (before ++ after) := whole
      obtain ⟨first, rest, rfl, empty, same⟩ := encode_cut (ascii c List.mem_cons_self) cut
      obtain ⟨last, rfl, rfl⟩ := ih
        (fun c member => ascii c (List.mem_cons_of_mem _ member)) same.symm
      rw [encode_eq_nil.mp empty.symm]
      exact ⟨last, rfl, rfl⟩

end LlvmDsdl.Library.Utf8Text
