import LlvmDsdl.Support.NamingPolicy

/-!
Contract: the encoding of reserved underscores, seen from outside.

Owns: what the namespaces are that a language reserves by underscores, that the
encoding leaves them, and which identifiers it keeps apart from all others.
-/

namespace LlvmDsdl.Support

/-! ### Identifiers -/

/-- Letters, digits and underscores, no digit first. -/
structure IsWord (text : List Char) : Prop where
  nonempty : text ≠ []
  letters : ∀ c ∈ text, isIdentifierChar c = true
  start : text.head?.any Char.isDigit = false

theorem digit_quiet {c : Char} (digit : c.isDigit = true) :
    c ≠ '_' ∧ c.isUpper = false := by
  constructor
  · rintro rfl
    exact absurd digit (by decide)
  · simp [Char.isDigit, Char.isUpper, UInt32.le_iff_toNat_le] at digit ⊢
    omega

/-- Two underscores, or one and a capital, at the start. -/
def StartsReserved (text : List Char) : Prop :=
  ∃ c rest, text = '_' :: c :: rest ∧ (c = '_' ∨ c.isUpper = true)

/-- The identifiers the language keeps for its implementation. -/
def InReservedNamespace (language : Language) (text : List Char) : Prop :=
  match reservedUnderscores language with
  | .none => False
  | .leading => StartsReserved text
  | .leadingAndInterior => StartsReserved text ∨ ['_', '_'] <:+: text

/-- The text holds what the encoding of another identifier would leave there: that
of one underscore before a capital, or those of two that no underscore adjoins. -/
def Imitates (language : Language) (text : List Char) : Prop :=
  (∃ c rest, text = escapedUnderscore ++ c :: rest ∧ c.isUpper = true) ∨
    ∃ before after,
      text = before ++ escapedUnderscore ++ escapedUnderscore ++ after ∧
        after.head? ≠ some '_' ∧
          (match reservedUnderscores language with
          | .leadingAndInterior => before.getLast? ≠ some '_'
          | _ => before = [])

section Runs

variable {interior : Bool}

private theorem encodeRuns_underscore (leading : Bool) (run : ℕ) (rest : List Char) :
    encodeRuns interior leading run ('_' :: rest) = encodeRuns interior leading (run + 1) rest := by
  rw [encodeRuns, if_pos rfl]

private theorem encodeRuns_other {c : Char} (other : c ≠ '_') (leading : Bool) (run : ℕ)
    (rest : List Char) :
    encodeRuns interior leading run (c :: rest) =
      { text := spellRun interior leading run (some c) ++
          c :: (encodeRuns interior false 0 rest).text
        encoded := violates interior leading run (some c) ||
          (encodeRuns interior false 0 rest).encoded } := by
  rw [encodeRuns, if_neg other]

private theorem violates_zero (leading : Bool) (next : Option Char) :
    violates interior leading 0 next = false := by
  simp [violates]

private theorem spellRun_zero (leading : Bool) (next : Option Char) :
    spellRun interior leading 0 next = [] := by
  simp [spellRun, violates_zero]

private theorem encodeRuns_run {text : List Char} (ends : text.head? ≠ some '_') (leading : Bool)
    (run : ℕ) :
    encodeRuns interior leading run text =
      { text := spellRun interior leading run text.head? ++
          (encodeRuns interior false 0 text).text
        encoded := violates interior leading run text.head? ||
          (encodeRuns interior false 0 text).encoded } := by
  rcases text with _ | ⟨c, rest⟩
  · simp [encodeRuns, spellRun_zero, violates_zero]
  · have other : c ≠ '_' := by simpa using ends
    rw [encodeRuns_other other, encodeRuns_other other]
    simp [spellRun_zero, violates_zero]

private theorem encodeRuns_replicate (leading : Bool) (count : ℕ) (rest : List Char) :
    ∀ run, encodeRuns interior leading run (List.replicate count '_' ++ rest) =
      encodeRuns interior leading (run + count) rest := by
  induction count with
  | zero => simp
  | succ count ih =>
      intro run
      rw [List.replicate_succ, List.cons_append, encodeRuns_underscore, ih]
      congr 1
      omega

private theorem encodeRuns_append {last : Char} (other : last ≠ '_') (before after : List Char) :
    ∀ leading run, encodeRuns interior leading run (before ++ last :: after) =
      { text := (encodeRuns interior leading run (before ++ [last])).text ++
          (encodeRuns interior false 0 after).text
        encoded := (encodeRuns interior leading run (before ++ [last])).encoded ||
          (encodeRuns interior false 0 after).encoded } := by
  induction before with
  | nil =>
      intro leading run
      rw [List.nil_append, List.nil_append, encodeRuns_other other, encodeRuns_other other]
      simp [encodeRuns, spellRun_zero, violates_zero]
  | cons c rest ih =>
      intro leading run
      rw [List.cons_append, List.cons_append]
      by_cases underscore : c = '_'
      · subst underscore
        rw [encodeRuns_underscore, encodeRuns_underscore, ih]
      · rw [encodeRuns_other underscore, encodeRuns_other underscore, ih]
        simp [Bool.or_assoc]

private theorem encodeRuns_kept (text : List Char) :
    ∀ leading run, (encodeRuns interior leading run text).encoded = false →
      (encodeRuns interior leading run text).text = List.replicate run '_' ++ text := by
  induction text with
  | nil =>
      intro leading run kept
      simp only [encodeRuns] at kept ⊢
      simp [spellRun, kept]
  | cons c rest ih =>
      intro leading run kept
      by_cases underscore : c = '_'
      · subst underscore
        rw [encodeRuns_underscore] at kept ⊢
        rw [ih _ _ kept, List.replicate_succ', List.append_assoc]
        rfl
      · rw [encodeRuns_other underscore] at kept ⊢
        simp only [Bool.or_eq_false_iff] at kept
        simp [spellRun, kept.1, ih _ _ kept.2]

private theorem isEmpty_append_cons (before : List Char) (c : Char) (after : List Char) :
    (before ++ c :: after).isEmpty = false := by
  cases before <;> rfl

private theorem encodeRuns_encoded (text : List Char) :
    ∀ leading run, (encodeRuns interior leading run text).encoded = true →
      ∃ before count after,
        List.replicate run '_' ++ text = before ++ List.replicate count '_' ++ after ∧
          after.head? ≠ some '_' ∧ before.getLast? ≠ some '_' ∧
            violates interior (leading && before.isEmpty) count after.head? = true ∧
              ∃ written, (encodeRuns interior leading run text).text =
                written ++ (List.replicate count escapedUnderscore).flatten ++
                  (encodeRuns interior false 0 after).text ∧
                    written.getLast? = before.getLast? ∧ written.isEmpty = before.isEmpty := by
  induction text with
  | nil =>
      intro leading run encoded
      simp only [encodeRuns] at encoded
      refine ⟨[], run, [], by simp, by simp, by simp, by simpa using encoded, [], ?_, rfl, rfl⟩
      simp [encodeRuns, spellRun, encoded, violates_zero]
  | cons c rest ih =>
      intro leading run encoded
      by_cases underscore : c = '_'
      · subst underscore
        rw [encodeRuns_underscore] at encoded ⊢
        obtain ⟨before, count, after, whole, found⟩ := ih _ _ encoded
        refine ⟨before, count, after, ?_, found⟩
        rw [← whole, List.replicate_succ', List.append_assoc]
        rfl
      · rw [encodeRuns_other underscore] at encoded ⊢
        dsimp only at encoded ⊢
        by_cases here : violates interior leading run (some c) = true
        · refine ⟨[], run, c :: rest, by simp, by simpa using underscore, by simp,
            by simpa using here, [], ?_, rfl, rfl⟩
          rw [spellRun, if_pos here, encodeRuns_other underscore]
          simp [spellRun_zero]
        · simp only [here, Bool.false_or] at encoded
          obtain ⟨before, count, after, whole, ends, apart, reserved, written, spelled, last,
            empty⟩ := ih false 0 encoded
          rw [List.replicate_zero, List.nil_append] at whole
          have apartWhole : rest = before ++ List.replicate count '_' ++ after := whole
          refine ⟨List.replicate run '_' ++ c :: before, count, after, by simp [apartWhole], ends,
            ?_, ?_,
            List.replicate run '_' ++ c :: written, ?_, ?_,
            (isEmpty_append_cons _ c written).trans (isEmpty_append_cons _ c before).symm⟩
          · rcases before with _ | ⟨first, others⟩
            · rw [List.getLast?_concat]
              simpa using underscore
            · rw [List.getLast?_append_of_ne_nil _ (List.cons_ne_nil _ _), List.getLast?_cons_cons]
              exact apart
          · rw [isEmpty_append_cons, Bool.and_false]
            exact reserved
          · rw [spellRun, if_neg here, spelled]
            simp
          · rcases before with _ | ⟨first, others⟩
            · have none : written = [] := by simpa using empty
              simp [none]
            · rcases written with _ | ⟨start, tail⟩
              · simp at empty
              · rw [List.getLast?_append_of_ne_nil _ (List.cons_ne_nil _ _),
                  List.getLast?_append_of_ne_nil _ (List.cons_ne_nil _ _), List.getLast?_cons_cons,
                  List.getLast?_cons_cons, last]

/-! ### What is reserved -/

private theorem encodeRuns_long (text : List Char) :
    ∀ leading run, 2 ≤ run → (leading || interior) = true →
      (encodeRuns interior leading run text).encoded = true := by
  induction text with
  | nil =>
      intro leading run long reaches
      simp [encodeRuns, violates, long, reaches]
  | cons c rest ih =>
      intro leading run long reaches
      by_cases underscore : c = '_'
      · subst underscore
        rw [encodeRuns_underscore]
        exact ih leading (run + 1) (by omega) reaches
      · rw [encodeRuns_other underscore]
        simp [violates, long, reaches]

private theorem encodeRuns_infix (before after : List Char) :
    ∀ leading run, (encodeRuns true leading run (before ++ '_' :: '_' :: after)).encoded = true := by
  induction before with
  | nil =>
      intro leading run
      rw [List.nil_append, encodeRuns_underscore, encodeRuns_underscore]
      exact encodeRuns_long after leading _ (by omega) (Bool.or_true _)
  | cons c rest ih =>
      intro leading run
      rw [List.cons_append]
      by_cases underscore : c = '_'
      · subst underscore
        rw [encodeRuns_underscore]
        exact ih leading (run + 1)
      · rw [encodeRuns_other underscore]
        simp [ih]

private theorem encodeRuns_starts {text : List Char} (starts : StartsReserved text) :
    (encodeRuns interior true 0 text).encoded = true := by
  obtain ⟨c, rest, rfl, second⟩ := starts
  rw [encodeRuns_underscore]
  rcases second with rfl | capital
  · rw [encodeRuns_underscore]
    exact encodeRuns_long rest true _ (by omega) rfl
  · have other : c ≠ '_' := by
      rintro rfl
      exact absurd capital (by decide)
    rw [encodeRuns_other other]
    simp [violates, capital]

private theorem encoded_iff (text : List Char) :
    (encodeRuns interior true 0 text).encoded = true ↔
      StartsReserved text ∨ (interior = true ∧ ['_', '_'] <:+: text) := by
  constructor
  · intro encoded
    obtain ⟨before, count, after, whole, _, _, reserved, _⟩ := encodeRuns_encoded text _ _ encoded
    rw [List.replicate_zero, List.nil_append] at whole
    simp only [violates, Bool.or_eq_true, Bool.and_eq_true, decide_eq_true_eq, Bool.true_and,
      List.isEmpty_iff] at reserved
    rcases reserved with ⟨long, atStart | inside⟩ | ⟨⟨atStart, single⟩, capital⟩
    · obtain ⟨more, rfl⟩ : ∃ more, count = more + 2 := ⟨count - 2, by omega⟩
      left
      rw [whole, atStart]
      exact ⟨'_', _, by simp [List.replicate_succ]; rfl, Or.inl rfl⟩
    · obtain ⟨more, rfl⟩ : ∃ more, count = more + 2 := ⟨count - 2, by omega⟩
      right
      refine ⟨inside, before, List.replicate more '_' ++ after, ?_⟩
      rw [whole]
      simp [List.replicate_succ]
    · left
      rcases after with _ | ⟨c, rest⟩
      · simp at capital
      · rw [whole, atStart, single]
        exact ⟨c, rest, rfl, Or.inr (by simpa using capital)⟩
  · rintro (starts | ⟨rfl, before, after, rfl⟩)
    · exact encodeRuns_starts starts
    · rw [List.append_assoc]
      exact encodeRuns_infix before after true 0

/-! ### Encoding twice -/

private theorem encodeRuns_plain {text : List Char} (plain : '_' ∉ text) (leading : Bool) :
    (encodeRuns interior leading 0 text).encoded = false := by
  induction text generalizing leading with
  | nil => simp [encodeRuns, violates_zero]
  | cons c rest ih =>
      simp only [List.mem_cons, not_or] at plain
      rw [encodeRuns_other (Ne.symm plain.1)]
      simp [violates_zero, ih plain.2]

private theorem underscore_not_mem_escaped (run : ℕ) :
    '_' ∉ (List.replicate run escapedUnderscore).flatten := by
  intro member
  obtain ⟨piece, isPiece, inside⟩ := List.mem_flatten.mp member
  rw [List.eq_of_mem_replicate isPiece] at inside
  revert inside
  decide

private theorem encodeRuns_twice (text : List Char) :
    ∀ leading run, (encodeRuns interior leading 0
      (encodeRuns interior leading run text).text).encoded = false := by
  induction text with
  | nil =>
      intro leading run
      simp only [encodeRuns, spellRun]
      split
      · exact encodeRuns_plain (underscore_not_mem_escaped run) leading
      · rename_i kept
        have whole := @encodeRuns_replicate interior leading run [] 0
        rw [List.append_nil] at whole
        rw [whole]
        simpa [encodeRuns] using kept
  | cons c rest ih =>
      intro leading run
      by_cases underscore : c = '_'
      · subst underscore
        rw [encodeRuns_underscore]
        exact ih leading (run + 1)
      · rw [encodeRuns_other underscore]
        dsimp only
        rw [encodeRuns_append underscore]
        simp only [ih, Bool.or_false]
        unfold spellRun
        split
        · apply encodeRuns_plain
          simp only [List.mem_append, List.mem_singleton, not_or]
          exact ⟨underscore_not_mem_escaped run, Ne.symm underscore⟩
        · rename_i kept
          rw [encodeRuns_replicate, encodeRuns_other underscore]
          simpa [encodeRuns, violates_zero] using kept

/-! ### Words -/

private theorem encodeRuns_letters {text : List Char}
    (letters : ∀ c ∈ text, isIdentifierChar c = true) :
    ∀ leading run, ∀ c ∈ (encodeRuns interior leading run text).text,
      isIdentifierChar c = true := by
  have run (leading : Bool) (count : ℕ) (next : Option Char) :
      ∀ c ∈ spellRun interior leading count next, isIdentifierChar c = true := by
    intro c member
    unfold spellRun at member
    split at member
    · obtain ⟨piece, isPiece, inside⟩ := List.mem_flatten.mp member
      rw [List.eq_of_mem_replicate isPiece] at inside
      have letters : escapedUnderscore.all isIdentifierChar = true := by decide
      exact List.all_eq_true.mp letters c inside
    · rw [List.eq_of_mem_replicate member]
      decide
  induction text with
  | nil =>
      intro leading count
      exact run leading count none
  | cons c rest ih =>
      intro leading count
      have later := ih fun other member =>
        letters other (List.mem_cons_of_mem _ member)
      by_cases underscore : c = '_'
      · subst underscore
        rw [encodeRuns_underscore]
        exact later leading (count + 1)
      · rw [encodeRuns_other underscore]
        intro other member
        rcases List.mem_append.mp member with inRun | tail
        · exact run leading count _ other inRun
        · rcases List.mem_cons.mp tail with rfl | inside
          · exact letters _ List.mem_cons_self
          · exact later false 0 other inside

private theorem encodeRuns_head (text : List Char) :
    ∀ leading run, 1 ≤ run → ∃ first rest,
      (encodeRuns interior leading run text).text = first :: rest ∧ first.isDigit = false := by
  have run (leading : Bool) (count : ℕ) (next : Option Char) (some : 1 ≤ count) :
      ∃ first rest, spellRun interior leading count next = first :: rest ∧
        first.isDigit = false := by
    obtain ⟨more, rfl⟩ : ∃ more, count = more + 1 := ⟨count - 1, by omega⟩
    unfold spellRun
    split
    · exact ⟨'z', _, by rw [List.replicate_succ]; rfl, by decide⟩
    · exact ⟨'_', _, by rw [List.replicate_succ], by decide⟩
  induction text with
  | nil =>
      intro leading count some
      exact run leading count none some
  | cons c rest ih =>
      intro leading count some
      by_cases underscore : c = '_'
      · subst underscore
        rw [encodeRuns_underscore]
        exact ih leading (count + 1) (by omega)
      · rw [encodeRuns_other underscore]
        obtain ⟨first, tail, spelled, notDigit⟩ := run leading count (Option.some c) some
        refine ⟨first, tail ++ c :: (encodeRuns interior false 0 rest).text, ?_, notDigit⟩
        rw [spelled]
        rfl

private theorem isWord_encodeRuns {text : List Char} (word : IsWord text) :
    IsWord (encodeRuns interior true 0 text).text := by
  have shape : ∃ first rest, (encodeRuns interior true 0 text).text = first :: rest ∧
      first.isDigit = false := by
    rcases text with _ | ⟨c, rest⟩
    · exact absurd rfl word.nonempty
    · by_cases underscore : c = '_'
      · subst underscore
        rw [encodeRuns_underscore]
        exact encodeRuns_head rest true 1 (Nat.le_refl 1)
      · rw [encodeRuns_other underscore, spellRun_zero]
        exact ⟨c, _, rfl, by simpa using word.start⟩
  obtain ⟨first, rest, whole, notDigit⟩ := shape
  refine ⟨?_, encodeRuns_letters word.letters true 0, ?_⟩
  · rw [whole]
    exact List.cons_ne_nil _ _
  · rw [whole]
    simpa using notDigit

/-! ### Digits at the end -/

private theorem encodeRuns_append_digits (text : List Char) :
    ∀ leading run, ∃ stem, ∀ digits, digits ≠ [] → (∀ c ∈ digits, c.isDigit = true) →
      (encodeRuns interior leading run (text ++ digits)).text = stem ++ digits := by
  induction text with
  | nil =>
      intro leading run
      refine ⟨spellRun interior leading run none, fun digits nonempty decimal => ?_⟩
      obtain ⟨first, rest, rfl⟩ := List.exists_cons_of_ne_nil nonempty
      have quiet := fun c member => digit_quiet (decimal c member)
      have plain : '_' ∉ rest := fun member =>
        (quiet '_' (List.mem_cons_of_mem _ member)).1 rfl
      have kept := @encodeRuns_kept interior rest false 0 (encodeRuns_plain plain false)
      have spelled : spellRun interior leading run (some first) =
          spellRun interior leading run none := by
        simp [spellRun, violates, (quiet first List.mem_cons_self).2]
      rw [List.nil_append, encodeRuns_other (quiet first List.mem_cons_self).1]
      dsimp only
      rw [kept, spelled]
      rfl
  | cons c rest ih =>
      intro leading run
      by_cases underscore : c = '_'
      · obtain ⟨stem, keeps⟩ := ih leading (run + 1)
        refine ⟨stem, fun digits nonempty decimal => ?_⟩
        subst underscore
        rw [List.cons_append, encodeRuns_underscore, keeps digits nonempty decimal]
      · obtain ⟨stem, keeps⟩ := ih false 0
        refine ⟨spellRun interior leading run (some c) ++ c :: stem,
          fun digits nonempty decimal => ?_⟩
        rw [List.cons_append, encodeRuns_other underscore]
        dsimp only
        rw [keeps digits nonempty decimal]
        simp

/-! ### Partners -/

private def Imitated (interior : Bool) (text : List Char) : Prop :=
  (∃ c rest, text = escapedUnderscore ++ c :: rest ∧ c.isUpper = true) ∨
    ∃ before after,
      text = before ++ escapedUnderscore ++ escapedUnderscore ++ after ∧
        after.head? ≠ some '_' ∧
          if interior then before.getLast? ≠ some '_' else before = []

private theorem head?_encodeRuns {text : List Char} (ends : text.head? ≠ some '_') :
    (encodeRuns interior false 0 text).text.head? = text.head? := by
  rcases text with _ | ⟨c, rest⟩
  · simp [encodeRuns, spellRun_zero]
  · rw [encodeRuns_other (by simpa using ends), spellRun_zero]
    rfl

private theorem imitated_of_encoded {source : List Char}
    (encoded : (encodeRuns interior true 0 source).encoded = true) :
    Imitated interior (encodeRuns interior true 0 source).text := by
  obtain ⟨before, count, after, _, ends, apart, reserved, written, spelled, last, empty⟩ :=
    encodeRuns_encoded source _ _ encoded
  have after_head := @head?_encodeRuns interior _ ends
  rw [spelled]
  simp only [violates, Bool.or_eq_true, Bool.and_eq_true, decide_eq_true_eq, Bool.true_and,
    List.isEmpty_iff] at reserved
  rcases reserved with ⟨long, reaches⟩ | ⟨⟨atStart, single⟩, capital⟩
  · obtain ⟨more, rfl⟩ : ∃ more, count = more + 2 := ⟨count - 2, by omega⟩
    refine Or.inr ⟨written, (List.replicate more escapedUnderscore).flatten ++
      (encodeRuns interior false 0 after).text, ?_, ?_, ?_⟩
    · simp [List.replicate_succ]
    · rcases more with _ | more
      · simpa [after_head] using ends
      · simp [List.replicate_succ, escapedUnderscore]
    · split
      · rwa [last]
      · rename_i leadingOnly
        have atStart : before = [] := reaches.resolve_right leadingOnly
        simpa [atStart] using empty
  · left
    have noWritten : written = [] := by simpa [atStart] using empty
    rcases tail : (encodeRuns interior false 0 after).text with _ | ⟨c, rest⟩
    · rw [tail] at after_head
      rw [← after_head] at capital
      simp at capital
    · rw [tail] at after_head
      rw [← after_head] at capital
      refine ⟨c, rest, ?_, by simpa using capital⟩
      simp [noWritten, single]

private theorem encodeRuns_after_escape (before after : List Char) (leading : Bool) (run : ℕ) :
    encodeRuns interior leading run (before ++ escapedUnderscore ++ after) =
      { text := (encodeRuns interior leading run (before ++ escapedUnderscore)).text ++
          (encodeRuns interior false 0 after).text
        encoded := (encodeRuns interior leading run (before ++ escapedUnderscore)).encoded ||
          (encodeRuns interior false 0 after).encoded } := by
  have split := @encodeRuns_append interior _ (by decide : 'F' ≠ '_')
    (before ++ ['z', 'X', '0', '0', '5']) after leading run
  simpa [escapedUnderscore] using split

private theorem partner_of_imitated {text : List Char} (word : IsWord text)
    (kept : (encodeRuns interior true 0 text).encoded = false)
    (imitated : Imitated interior text) :
    ∃ partner, IsWord partner ∧ (encodeRuns interior true 0 partner).encoded = true ∧
      (encodeRuns interior true 0 partner).text = text := by
  rcases imitated with ⟨c, rest, rfl, capital⟩ | ⟨before, after, rfl, ends, apart⟩
  · have other : c ≠ '_' := by
      rintro rfl
      exact absurd capital (by decide)
    refine ⟨'_' :: c :: rest, ⟨List.cons_ne_nil _ _, ?_, by simp⟩, ?_, ?_⟩
    · intro d member
      rcases List.mem_cons.mp member with rfl | later
      · decide
      · exact word.letters d (List.mem_append_right _ later)
    · exact encodeRuns_starts ⟨c, rest, rfl, Or.inr capital⟩
    · have plain := @encodeRuns_after_escape interior [] (c :: rest) true 0
      rw [List.nil_append] at plain
      rw [plain, Bool.or_eq_false_iff, encodeRuns_other other, Bool.or_eq_false_iff] at kept
      rw [encodeRuns_underscore, encodeRuns_other other]
      dsimp only
      rw [encodeRuns_kept rest false 0 kept.2.2]
      simp [spellRun, violates, capital]
  · have plain := @encodeRuns_after_escape interior (before ++ escapedUnderscore)
      after true 0
    rw [plain, Bool.or_eq_false_iff] at kept
    have tail := encodeRuns_kept after false 0 kept.2
    rw [List.replicate_zero, List.nil_append] at tail
    have letters : ∀ c ∈ before ++ '_' :: '_' :: after, isIdentifierChar c = true := by
      intro c member
      simp only [List.mem_append, List.mem_cons] at member
      rcases member with early | rfl | rfl | late
      · exact word.letters c (by simp [early])
      · decide
      · decide
      · exact word.letters c (by simp [late])
    rcases List.eq_nil_or_concat' before with rfl | ⟨init, last, rfl⟩
    · refine ⟨'_' :: '_' :: after, ⟨List.cons_ne_nil _ _, letters, by simp⟩,
        encodeRuns_starts ⟨'_', after, rfl, Or.inl rfl⟩, ?_⟩
      rw [encodeRuns_underscore, encodeRuns_underscore, encodeRuns_run ends]
      dsimp only
      rw [tail]
      simp [spellRun, violates, List.replicate_succ]
    · obtain ⟨isInterior, other⟩ : interior = true ∧ last ≠ '_' := by
        split at apart
        · rename_i inside
          exact ⟨inside, by simpa using apart⟩
        · simp at apart
      subst isInterior
      have start : (init ++ [last]).head?.any Char.isDigit = false := by
        have whole := word.start
        simp only [List.append_assoc, List.head?_append] at whole ⊢
        simpa using whole
      have early := kept.1
      rw [List.append_assoc, List.append_assoc, List.singleton_append, encodeRuns_append other,
        Bool.or_eq_false_iff] at early
      have unchanged := encodeRuns_kept (init ++ [last]) true 0 early.1
      refine ⟨init ++ [last] ++ '_' :: '_' :: after, ⟨by simp, letters, ?_⟩,
        encodeRuns_infix _ _ true 0, ?_⟩
      · rw [List.head?_append_of_ne_nil _ (by simp)]
        exact start
      · rw [List.append_assoc, List.singleton_append, encodeRuns_append other]
        dsimp only
        rw [unchanged, encodeRuns_underscore, encodeRuns_underscore, encodeRuns_run ends]
        dsimp only
        rw [tail]
        simp [spellRun, violates, List.replicate_succ]

end Runs

/-! ### By language -/

private theorem encode_none {language : Language} (unused : reservedUnderscores language = .none)
    (text : List Char) :
    encodeReservedNamespace language text = { text := text, encoded := false } ∧
      ¬InReservedNamespace language text := by
  unfold encodeReservedNamespace InReservedNamespace
  simp only [unused]
  exact ⟨trivial, not_false⟩

private theorem encode_setting {language : Language}
    (uses : reservedUnderscores language ≠ .none) : ∃ interior, ∀ text,
      encodeReservedNamespace language text = encodeRuns interior true 0 text ∧
        (Imitates language text ↔ Imitated interior text) ∧
          (InReservedNamespace language text ↔
            StartsReserved text ∨ interior = true ∧ ['_', '_'] <:+: text) := by
  rcases setting : reservedUnderscores language with _ | _ | _
  · exact absurd setting uses
  · refine ⟨false, fun text => ?_⟩
    simp [encodeReservedNamespace, Imitates, Imitated, InReservedNamespace, setting]
  · refine ⟨true, fun text => ?_⟩
    simp [encodeReservedNamespace, Imitates, Imitated, InReservedNamespace, setting]

@[simp]
theorem encoded_iff_reserved (language : Language) (text : List Char) :
    (encodeReservedNamespace language text).encoded = true ↔
      InReservedNamespace language text := by
  by_cases unused : reservedUnderscores language = .none
  · simp [encode_none unused text]
  · obtain ⟨interior, setting⟩ := encode_setting unused
    rw [(setting text).1, (setting text).2.2]
    exact encoded_iff text

theorem encodeReservedNamespace_kept {language : Language} {text : List Char}
    (free : ¬InReservedNamespace language text) :
    (encodeReservedNamespace language text).text = text := by
  by_cases unused : reservedUnderscores language = .none
  · rw [(encode_none unused text).1]
  · obtain ⟨interior, setting⟩ := encode_setting unused
    rw [← encoded_iff_reserved, Bool.not_eq_true, (setting text).1] at free
    rw [(setting text).1]
    exact encodeRuns_kept text true 0 free

theorem encodeReservedNamespace_leaves (language : Language) (text : List Char) :
    ¬InReservedNamespace language (encodeReservedNamespace language text).text := by
  by_cases unused : reservedUnderscores language = .none
  · exact (encode_none unused _).2
  · obtain ⟨interior, setting⟩ := encode_setting unused
    rw [← encoded_iff_reserved, Bool.not_eq_true, (setting text).1, (setting _).1]
    exact encodeRuns_twice text true 0

theorem isWord_encodeReservedNamespace (language : Language) {text : List Char}
    (word : IsWord text) : IsWord (encodeReservedNamespace language text).text := by
  by_cases unused : reservedUnderscores language = .none
  · rwa [(encode_none unused text).1]
  · obtain ⟨interior, setting⟩ := encode_setting unused
    rw [(setting text).1]
    exact isWord_encodeRuns word

/-- Digits at the end of an identifier change nothing of how it is encoded. -/
theorem encodeReservedNamespace_append_digits (language : Language) (text : List Char) :
    ∃ stem, ∀ digits, digits ≠ [] → (∀ c ∈ digits, c.isDigit = true) →
      (encodeReservedNamespace language (text ++ digits)).text = stem ++ digits := by
  by_cases unused : reservedUnderscores language = .none
  · exact ⟨text, fun digits _ _ => by rw [(encode_none unused _).1]⟩
  · obtain ⟨interior, setting⟩ := encode_setting unused
    obtain ⟨stem, keeps⟩ := @encodeRuns_append_digits interior text true 0
    exact ⟨stem, fun digits nonempty decimal => by
      rw [(setting _).1, keeps digits nonempty decimal]⟩

theorem imitates_of_encoded {language : Language} {source : List Char}
    (reserved : InReservedNamespace language source) :
    Imitates language (encodeReservedNamespace language source).text := by
  by_cases unused : reservedUnderscores language = .none
  · exact absurd reserved (encode_none unused source).2
  · obtain ⟨interior, setting⟩ := encode_setting unused
    rw [← encoded_iff_reserved, (setting source).1] at reserved
    rw [(setting source).1, (setting _).2.1]
    exact imitated_of_encoded reserved

private theorem partner_of_imitates {language : Language} {text : List Char}
    (uses : reservedUnderscores language ≠ .none) (word : IsWord text)
    (free : ¬InReservedNamespace language text) (imitates : Imitates language text) :
    ∃ partner, IsWord partner ∧ InReservedNamespace language partner ∧
      (encodeReservedNamespace language partner).text = text := by
  obtain ⟨interior, setting⟩ := encode_setting uses
  rw [← encoded_iff_reserved, Bool.not_eq_true, (setting text).1] at free
  obtain ⟨partner, isWord, encoded, meets⟩ :=
    partner_of_imitated word free ((setting text).2.1.mp imitates)
  refine ⟨partner, isWord, ?_, by rwa [(setting partner).1]⟩
  rwa [← encoded_iff_reserved, (setting partner).1]

/-- An identifier is kept apart from all others exactly when it is not encoded
itself and does not look like what an encoding leaves: every identifier that is
encoded meets the one that is written as its encoding. -/
theorem encodeReservedNamespace_apart_iff {language : Language} {identifier : List Char}
    (uses : reservedUnderscores language ≠ .none) (word : IsWord identifier) :
    (∀ other, IsWord other → other ≠ identifier →
        (encodeReservedNamespace language other).text ≠
          (encodeReservedNamespace language identifier).text) ↔
      ¬InReservedNamespace language identifier ∧ ¬Imitates language identifier := by
  have leaves := encodeReservedNamespace_leaves language identifier
  constructor
  · intro apart
    have free : ¬InReservedNamespace language identifier := by
      intro reserved
      refine apart (encodeReservedNamespace language identifier).text
        (isWord_encodeReservedNamespace language word) ?_ (encodeReservedNamespace_kept leaves)
      intro same
      rw [same] at leaves
      exact leaves reserved
    refine ⟨free, fun imitates => ?_⟩
    obtain ⟨partner, isWord, reserved, meets⟩ := partner_of_imitates uses word free imitates
    refine apart partner isWord ?_ (meets.trans (encodeReservedNamespace_kept free).symm)
    rintro rfl
    exact free reserved
  · rintro ⟨free, noImitation⟩ other isWord different same
    rw [encodeReservedNamespace_kept free] at same
    by_cases reserved : InReservedNamespace language other
    · have imitates := imitates_of_encoded reserved
      rw [same] at imitates
      exact noImitation imitates
    · rw [encodeReservedNamespace_kept reserved] at same
      exact different same

/-- In C++ `a_b` is written as nothing else is. -/
theorem encodeReservedNamespace_apart_iff_inner :
    IsWord ['a', '_', 'b'] ∧ ∀ other, IsWord other → other ≠ ['a', '_', 'b'] →
      (encodeReservedNamespace .cpp other).text ≠
        (encodeReservedNamespace .cpp ['a', '_', 'b']).text := by
  have word : IsWord ['a', '_', 'b'] := ⟨by decide, List.all_eq_true.mp rfl, by decide⟩
  refine ⟨word, (encodeReservedNamespace_apart_iff (by decide) word).mpr ⟨?_, ?_⟩⟩
  · rintro (⟨c, rest, same, _⟩ | inside)
    · cases same
    · revert inside
      decide
  · rintro (⟨c, rest, same, _⟩ | ⟨before, after, same, _⟩)
    · cases same
    · have lengths := congrArg List.length same
      simp [escapedUnderscore] at lengths
      omega

/-- `__a` and `zX005FzX005Fa` are one identifier, and one field of a C header. -/
theorem encoded_identifiers_meet :
    (¬∀ language, reservedUnderscores language ≠ .none → ∀ first second,
      IsWord first → IsWord second → first ≠ second →
        (encodeReservedNamespace language first).text ≠
          (encodeReservedNamespace language second).text) ∧
      codegenProjectIdentifier .c .fieldName ['_', '_', 'a'] =
        codegenProjectIdentifier .c .fieldName
          (escapedUnderscore ++ escapedUnderscore ++ ['a']) := by
  constructor
  · intro apart
    have word : IsWord ['_', '_', 'a'] := ⟨by decide, List.all_eq_true.mp rfl, by decide⟩
    exact apart .c (by decide) ['_', '_', 'a'] _ word (isWord_encodeReservedNamespace .c word)
      (by decide) (by decide)
  · decide +kernel

end LlvmDsdl.Support
