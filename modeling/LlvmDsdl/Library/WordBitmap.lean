import Mathlib

/-!
Contract: sets of small naturals as vectors of fixed-width words.

Owns: the bit test over a word vector, marking one position, the word-parallel
shifted OR, the enumeration of the marked positions, and the set each yields.

Positions past the vector read as unmarked; writes there are lost, so every
result states the length it needs.
-/

namespace LlvmDsdl.Library.WordBitmap

variable {width : ℕ}

/-- Whether `position` is marked. -/
def marked (words : List (BitVec width)) (position : ℕ) : Bool :=
  (words[position / width]?.getD 0).getLsbD (position % width)

theorem marked_replicate (length position : ℕ) :
    marked (List.replicate length (0 : BitVec width)) position = false := by
  rw [marked, List.getElem?_replicate]
  split <;> simp

theorem marked_cons (word : BitVec width) (rest : List (BitVec width)) (position : ℕ) :
    marked (word :: rest) position =
      if position < width then word.getLsbD position else marked rest (position - width) := by
  split
  · rename_i low
    rw [marked, Nat.div_eq_of_lt low, Nat.mod_eq_of_lt low]
    rfl
  · rename_i high
    rcases Nat.eq_zero_or_pos width with rfl | positive
    · simp [marked]
    · have quotient : position / width = (position - width) / width + 1 := by
        rw [← Nat.add_div_right _ positive, Nat.sub_add_cancel (by omega)]
      have remainder : position % width = (position - width) % width := by
        rw [← Nat.add_mod_right (position - width), Nat.sub_add_cancel (by omega)]
      rw [marked, marked, quotient, remainder, List.getElem?_cons_succ]

/-- `words[index] |= bits`. -/
def orWord (words : List (BitVec width)) (index : ℕ) (bits : BitVec width) : List (BitVec width) :=
  words.modify index (· ||| bits)

@[simp] theorem length_orWord (words : List (BitVec width)) (index : ℕ) (bits : BitVec width) :
    (orWord words index bits).length = words.length := by
  simp [orWord]

theorem marked_orWord {words : List (BitVec width)} {index : ℕ} (inside : index < words.length)
    (bits : BitVec width) (position : ℕ) :
    marked (orWord words index bits) position = true ↔ marked words position = true ∨
      position / width = index ∧ bits.getLsbD (position % width) = true := by
  rw [marked, marked, orWord, List.getElem?_modify]
  by_cases same : index = position / width
  · subst same
    simp [List.getElem?_eq_getElem inside]
  · have other : position / width ≠ index := fun eq => same eq.symm
    simp [same, other]

def mark (words : List (BitVec width)) (position : ℕ) : List (BitVec width) :=
  orWord words (position / width) ((1 : BitVec width) <<< (position % width))

@[simp] theorem length_mark (words : List (BitVec width)) (position : ℕ) :
    (mark words position).length = words.length :=
  length_orWord ..

theorem marked_mark {words : List (BitVec width)} {position : ℕ} (positive : 0 < width)
    (inside : position < width * words.length) (other : ℕ) :
    marked (mark words position) other = true ↔ marked words other = true ∨ other = position := by
  have wordInside : position / width < words.length := Nat.div_lt_of_lt_mul inside
  have otherLt := Nat.mod_lt other positive
  have positionLt := Nat.mod_lt position positive
  have bit : ((1 : BitVec width) <<< (position % width)).getLsbD (other % width) = true ↔
      other % width = position % width := by
    rw [BitVec.getLsbD_shiftLeft]
    by_cases below : other % width < position % width
    · simp [below, ne_of_lt below]
    · have : (1 : BitVec width).getLsbD (other % width - position % width) = true ↔
          other % width - position % width = 0 := by
        simp [BitVec.getLsbD_one, positive]
      simp only [otherLt, decide_true, below, decide_false, Bool.not_false, Bool.true_and, this]
      omega
  rw [mark, marked_orWord wordInside, bit]
  refine or_congr_right ⟨fun same => ?_, fun same => by rw [same]; exact ⟨rfl, rfl⟩⟩
  rw [← Nat.div_add_mod other width, same.1, same.2, Nat.div_add_mod]

/-- OR `source`, moved up by `bitShift` bits, into `target` from word `first` on. -/
def orShifted (bitShift : ℕ) : ℕ → List (BitVec width) → List (BitVec width) → List (BitVec width)
  | _, [], target => target
  | first, bits :: rest, target =>
      let target := orWord target first (bits <<< bitShift)
      let target := if bitShift ≠ 0 then orWord target (first + 1) (bits >>> (width - bitShift))
        else target
      orShifted bitShift (first + 1) rest target

theorem length_orShifted (bitShift : ℕ) (source : List (BitVec width)) :
    ∀ (first : ℕ) (target : List (BitVec width)),
      (orShifted bitShift first source target).length = target.length := by
  induction source with
  | nil => intro first target; rfl
  | cons bits rest ih =>
      intro first target
      rw [orShifted, ih]
      split <;> simp

theorem marked_orShiftedWord {bitShift first : ℕ} (small : bitShift < width)
    {target : List (BitVec width)} (inside : first + 1 < target.length) (bits : BitVec width)
    (position : ℕ) :
    marked (if bitShift ≠ 0 then
        orWord (orWord target first (bits <<< bitShift)) (first + 1) (bits >>> (width - bitShift))
      else orWord target first (bits <<< bitShift)) position = true ↔
      marked target position = true ∨
        ∃ bit, bits.getLsbD bit = true ∧ position = width * first + bitShift + bit := by
  have positive : 0 < width := by omega
  have restLt := Nat.mod_lt position positive
  have split := Nat.div_add_mod position width
  -- The low part: bits that stay in their word.
  have low : marked (orWord target first (bits <<< bitShift)) position = true ↔
      marked target position = true ∨ position / width = first ∧ bitShift ≤ position % width ∧
        bits.getLsbD (position % width - bitShift) = true := by
    rw [marked_orWord (by omega), BitVec.getLsbD_shiftLeft]
    simp [restLt]
  have inWord : ∀ (index : ℕ) {rest : ℕ}, rest < width → position = width * index + rest →
      position / width = index ∧ position % width = rest := by
    intro index rest below same
    rw [same, Nat.mul_add_div positive, Nat.div_eq_of_lt below, Nat.mul_add_mod,
      Nat.mod_eq_of_lt below]
    exact ⟨rfl, rfl⟩
  have bound : ∀ {bit : ℕ}, bits.getLsbD bit = true → bit < width := fun set =>
    BitVec.lt_of_getLsbD set
  split
  · rw [marked_orWord (by simpa using inside), low, BitVec.getLsbD_ushiftRight, or_assoc]
    refine or_congr_right ⟨?_, ?_⟩
    · rintro (⟨same, above, set⟩ | ⟨same, set⟩)
      · exact ⟨_, set, by rw [← same]; omega⟩
      · refine ⟨_, set, ?_⟩
        rw [same, Nat.mul_succ] at split
        omega
    · rintro ⟨bit, set, same⟩
      have bitLt := bound set
      by_cases stays : bitShift + bit < width
      · obtain ⟨index, rest⟩ := inWord first stays (by omega)
        refine Or.inl ⟨index, by omega, ?_⟩
        rwa [rest, Nat.add_sub_cancel_left]
      · obtain ⟨index, rest⟩ := inWord (first + 1)
          (show bitShift + bit - width < width by omega) (by rw [Nat.mul_succ]; omega)
        refine Or.inr ⟨index, ?_⟩
        rw [rest]
        have : width - bitShift + (bitShift + bit - width) = bit := by omega
        rwa [this]
  · rename_i unshifted
    have zero : bitShift = 0 := not_not.mp unshifted
    rw [low]
    refine or_congr_right ⟨fun ⟨same, above, set⟩ => ⟨_, set, by rw [← same]; omega⟩, ?_⟩
    rintro ⟨bit, set, same⟩
    obtain ⟨index, rest⟩ := inWord first (bound set) (by omega)
    refine ⟨index, by omega, ?_⟩
    rwa [rest, zero, Nat.sub_zero]

/-- The shifted OR adds every marked position of the source, moved. -/
theorem marked_orShifted {bitShift : ℕ} (small : bitShift < width) (source : List (BitVec width)) :
    ∀ {first : ℕ} {target : List (BitVec width)}, first + source.length < target.length →
      ∀ position, marked (orShifted bitShift first source target) position = true ↔
        marked target position = true ∨ ∃ origin, marked source origin = true ∧
          position = width * first + bitShift + origin := by
  induction source with
  | nil => intro first target _ position; simp [orShifted, marked]
  | cons bits rest ih =>
      intro first target inside position
      rw [List.length_cons] at inside
      rw [orShifted, ih (by split <;> simp <;> omega),
        marked_orShiftedWord small (by omega), or_assoc]
      refine or_congr_right ⟨?_, ?_⟩
      · rintro (⟨bit, set, same⟩ | ⟨origin, set, same⟩)
        · refine ⟨bit, ?_, same⟩
          rw [marked_cons, if_pos (BitVec.lt_of_getLsbD set)]
          exact set
        · refine ⟨width + origin, ?_, by rw [same, Nat.mul_succ]; omega⟩
          rw [marked_cons, if_neg (by omega), Nat.add_sub_cancel_left]
          exact set
      · rintro ⟨origin, set, same⟩
        rw [marked_cons] at set
        split at set
        · exact Or.inl ⟨origin, set, same⟩
        · exact Or.inr ⟨origin - width, set, by rw [same, Nat.mul_succ]; omega⟩

/-- The set bits of a word in ascending order. -/
def bitsOf (word : BitVec width) : List ℕ :=
  (List.range width).filter word.getLsbD

/-- The marked positions in ascending order, the first word at index `first`. -/
def positionsFrom (first : ℕ) : List (BitVec width) → List ℕ
  | [] => []
  | word :: rest =>
      (bitsOf word).map (fun bit => first * width + bit) ++ positionsFrom (first + 1) rest

theorem mem_positionsFrom (words : List (BitVec width)) : ∀ (first position : ℕ),
    position ∈ positionsFrom first words ↔
      ∃ origin, marked words origin = true ∧ position = first * width + origin := by
  induction words with
  | nil => intro first position; simp [positionsFrom, marked]
  | cons word rest ih =>
      intro first position
      rw [positionsFrom, List.mem_append, ih]
      simp only [bitsOf, List.mem_map, List.mem_filter, List.mem_range]
      constructor
      · rintro (⟨bit, ⟨low, set⟩, rfl⟩ | ⟨origin, set, rfl⟩)
        · exact ⟨bit, by rwa [marked_cons, if_pos low], rfl⟩
        · refine ⟨width + origin, ?_, by ring⟩
          rwa [marked_cons, if_neg (by omega), Nat.add_sub_cancel_left]
      · rintro ⟨origin, set, rfl⟩
        rw [marked_cons] at set
        split at set
        · exact Or.inl ⟨origin, ⟨‹_›, set⟩, rfl⟩
        · refine Or.inr ⟨origin - width, set, ?_⟩
          have : (first + 1) * width = first * width + width := Nat.succ_mul _ _
          omega

end LlvmDsdl.Library.WordBitmap
