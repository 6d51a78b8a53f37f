import LlvmDsdl.Support.ReservedEncoding

/-!
Contract: the identifiers the naming pipeline makes.

Owns: what an identifier may be in a language, that the pipeline keeps to it for
every role that names one, and which endings an identifier may be given.
-/

namespace LlvmDsdl.Support

private def ordinaryKeyword (keyword : List Char) : Bool :=
  keyword.any Char.isLower && !keyword.contains 'X' &&
    keyword.getLast?.all fun last => last != '_' && !last.isDigit

private theorem keywords_ordinary (language : Language) :
    ∀ keyword ∈ keywordSet language, ordinaryKeyword keyword = true := by
  have tables : ∀ keywords ∈ [cKeywords, cppKeywords, rustKeywords, goKeywords, tsKeywords,
      pyKeywords], (keywords.map String.toList).all ordinaryKeyword = true := by
    decide +kernel
  have table : (keywordSet language).all ordinaryKeyword = true := by
    cases language with
    | c =>
        rw [keywordSet, List.map_append, List.all_append, tables cKeywords (by simp),
          tables cppKeywords (by simp)]
        rfl
    | cpp => exact tables cppKeywords (by simp)
    | rust => exact tables rustKeywords (by simp)
    | go => exact tables goKeywords (by simp)
    | typeScript => exact tables tsKeywords (by simp)
    | python => exact tables pyKeywords (by simp)
  exact List.all_eq_true.mp table

theorem not_keyword_of_last (language : Language) {text : List Char} {last : Char}
    (isLast : text.getLast? = some last) (ends : last = '_' ∨ last.isDigit = true) :
    text ∉ keywordSet language := by
  intro member
  have ordinary := keywords_ordinary language text member
  simp only [ordinaryKeyword, isLast, Option.all_some, Bool.and_eq_true] at ordinary
  rcases ends with rfl | digit
  · simp at ordinary
  · simp [digit] at ordinary

private theorem not_keyword_of_upper (language : Language) {text : List Char}
    (upper : text.any Char.isLower = false) : text ∉ keywordSet language := by
  intro member
  have ordinary := keywords_ordinary language text member
  simp [ordinaryKeyword, upper] at ordinary

private theorem not_keyword_of_escape (language : Language) {text : List Char}
    (escaped : 'X' ∈ text) : text ∉ keywordSet language := by
  intro member
  have ordinary := keywords_ordinary language text member
  simp [ordinaryKeyword, escaped] at ordinary

/-- What may stand as an identifier in the language. -/
structure Legal (language : Language) (text : List Char) : Prop where
  word : IsWord text
  notKeyword : text ∉ keywordSet language
  unreserved : ¬InReservedNamespace language text
  /-- A lone underscore names nothing in Rust. -/
  names : language = .rust → text ≠ ['_']

private theorem isWord_append {text ending : List Char} (word : IsWord text)
    (letters : ∀ c ∈ ending, isIdentifierChar c = true) : IsWord (text ++ ending) where
  nonempty := by simp [word.nonempty]
  letters c member := (List.mem_append.mp member).elim (word.letters c) (letters c)
  start := by
    rw [List.head?_append_of_ne_nil _ word.nonempty]
    exact word.start

private theorem startsReserved_append {text ending : List Char} (nonempty : text ≠ [])
    (starts : StartsReserved (text ++ ending)) :
    StartsReserved text ∨ text = ['_'] ∧
      ∃ c, ending.head? = some c ∧ (c = '_' ∨ c.isUpper = true) := by
  obtain ⟨c, rest, whole, second⟩ := starts
  rcases text with _ | ⟨first, _ | ⟨other, more⟩⟩
  · exact absurd rfl nonempty
  · rw [List.singleton_append, List.cons.injEq] at whole
    exact Or.inr ⟨by rw [whole.1], c, by rw [whole.2]; rfl, second⟩
  · simp only [List.cons_append, List.cons.injEq] at whole
    exact Or.inl ⟨c, more, by rw [whole.1, whole.2.1], second⟩

private theorem unreserved_append {language : Language} {text ending : List Char}
    (unreserved : ¬InReservedNamespace language text)
    (starts : StartsReserved (text ++ ending) → StartsReserved text)
    (inside : ['_', '_'] <:+: text ++ ending → ['_', '_'] <:+: text) :
    ¬InReservedNamespace language (text ++ ending) := by
  unfold InReservedNamespace at unreserved ⊢
  rcases setting : reservedUnderscores language with _ | _ | _
  · simp only [not_false_eq_true]
  · simp only [setting] at unreserved ⊢
    exact fun reserved => unreserved (starts reserved)
  · simp only [setting] at unreserved ⊢
    exact fun reserved => unreserved (reserved.imp starts inside)

private theorem underscores_infix_append {ending : List Char} (plain : '_' ∉ ending) :
    ∀ text, ['_', '_'] <:+: text ++ ending → ['_', '_'] <:+: text := by
  induction ending with
  | nil => simp
  | cons c rest ih =>
      intro text inside
      simp only [List.mem_cons, not_or] at plain
      rw [List.append_cons] at inside
      rcases List.infix_concat_iff.mp (ih plain.2 _ inside) with ends | earlier
      · have last := ends.getLast (by simp)
        simp at last
        exact absurd last plain.1
      · exact earlier

theorem Legal.append_underscore {language : Language} {text : List Char}
    (legal : Legal language text) (apart : text.getLast? ≠ some '_') :
    Legal language (text ++ ['_']) where
  word := isWord_append legal.word (List.all_eq_true.mp rfl)
  notKeyword := not_keyword_of_last language (by simp) (Or.inl rfl)
  unreserved := by
    apply unreserved_append legal.unreserved
    · intro starts
      refine (startsReserved_append legal.word.nonempty starts).resolve_right ?_
      rintro ⟨rfl, _⟩
      exact apart rfl
    · intro inside
      refine (List.infix_concat_iff.mp inside).resolve_left ?_
      rintro ⟨before, whole⟩
      rw [List.append_cons, List.append_left_inj] at whole
      exact apart (by rw [← whole]; simp)
  names _ same := by
    have := legal.word.nonempty
    simp_all

theorem Legal.append_digits {language : Language} {text digits : List Char}
    (legal : Legal language text) (nonempty : digits ≠ [])
    (decimal : ∀ c ∈ digits, c.isDigit = true) : Legal language (text ++ digits) where
  word := isWord_append legal.word fun c member => by
    simp [isIdentifierChar, Char.isAlphanum, decimal c member]
  notKeyword := by
    obtain ⟨last, isLast⟩ := List.getLast?_isSome.mpr nonempty |> Option.isSome_iff_exists.mp
    apply not_keyword_of_last language
      (by rw [List.getLast?_append_of_ne_nil _ nonempty]; exact isLast)
    exact Or.inr (decimal last (List.mem_of_getLast? isLast))
  unreserved := by
    have quiet : ∀ c ∈ digits, c ≠ '_' ∧ c.isUpper = false := fun c member =>
      digit_quiet (decimal c member)
    apply unreserved_append legal.unreserved
    · intro starts
      refine (startsReserved_append legal.word.nonempty starts).resolve_right ?_
      rintro ⟨_, c, isHead, reserved⟩
      have here := quiet c (List.mem_of_mem_head? isHead)
      simp [here] at reserved
    · exact underscores_infix_append (fun member => (quiet '_' member).1 rfl) text
  names _ same := by
    have last : '_' ∈ digits := by
      have ends := congrArg List.getLast? same
      rw [List.getLast?_append_of_ne_nil _ nonempty] at ends
      exact List.mem_of_getLast? ends
    exact (digit_quiet (decimal '_' last)).1 rfl

@[simp]
private theorem isAlphanum_toUpper (c : Char) : c.toUpper.isAlphanum = c.isAlphanum := by
  by_cases lower : c.isLower
  · simp [Char.isAlphanum, Char.isAlpha, lower]
  · rw [Char.toUpper_eq_of_not_isLower lower]

@[simp]
private theorem isAlphanum_toLower (c : Char) : c.toLower.isAlphanum = c.isAlphanum := by
  by_cases upper : c.isUpper
  · simp [Char.isAlphanum, Char.isAlpha, upper]
  · rw [Char.toLower_eq_of_not_isUpper upper]

@[simp]
private theorem isDigit_toUpper (c : Char) : c.toUpper.isDigit = c.isDigit := by
  by_cases lower : c.isLower
  · have notDigit (d : Char) (letter : d.isAlpha = true) : d.isDigit = false := by
      simp [Char.isDigit, Char.isAlpha, Char.isUpper, Char.isLower,
        UInt32.le_iff_toNat_le] at letter ⊢
      omega
    have letter : c.isAlpha = true := by simp [Char.isAlpha, lower]
    rw [notDigit c letter, notDigit c.toUpper (by simpa using letter)]
  · rw [Char.toUpper_eq_of_not_isLower lower]

private theorem snakeFrom_alphanum {name : List Char} (named : name.any Char.isAlphanum = true) :
    ∀ before started underscore,
      (snakeFrom before started underscore name).any Char.isAlphanum = true := by
  induction name with
  | nil => simp at named
  | cons c rest ih =>
      intro before started underscore
      rw [snakeFrom]
      by_cases letter : c.isAlphanum = true
      · rw [if_neg (by simp [letter])]
        split
        · dsimp only
          split <;> simp [letter]
        · simp [letter]
      · have later : rest.any Char.isAlphanum = true := by simpa [letter] using named
        rw [if_pos (by simpa using letter)]
        split
        · simp [ih later]
        · exact ih later _ _ _

private theorem pascalFrom_alphanum {name : List Char}
    (named : name.any Char.isAlphanum = true) :
    ∀ upperNext, (pascalFrom upperNext name).any Char.isAlphanum = true := by
  induction name with
  | nil => simp at named
  | cons c rest ih =>
      intro upperNext
      rw [pascalFrom]
      by_cases letter : c.isAlphanum = true
      · rw [if_neg (by simp [letter])]
        cases upperNext <;> simp [letter]
      · have later : rest.any Char.isAlphanum = true := by simpa [letter] using named
        rw [if_pos (by simpa using letter)]
        exact ih later true

private theorem pascalFrom_letters (name : List Char) :
    ∀ upperNext, ∀ c ∈ pascalFrom upperNext name, c.isAlphanum = true := by
  induction name with
  | nil => exact fun _ _ member => absurd member List.not_mem_nil
  | cons first rest ih =>
      intro upperNext c member
      rw [pascalFrom] at member
      by_cases letter : first.isAlphanum = true
      · rw [if_neg (by simp [letter])] at member
        rcases List.mem_cons.mp member with rfl | later
        · cases upperNext <;> simp [letter]
        · exact ih false c later
      · rw [if_pos (by simpa using letter)] at member
        exact ih true c member

private structure Spelled (named : Prop) (text : List Char) : Prop extends IsWord text where
  kept : named → text.any Char.isAlphanum = true

section Pipeline

variable {named : Prop}

private theorem spelled_escapeCharacters {draft : Draft} (nonempty : draft.1 ≠ [])
    (kept : named → draft.1.any Char.isAlphanum = true) :
    Spelled named (escapeCharacters draft).1 := by
  obtain ⟨text, flag⟩ := draft
  dsimp only at nonempty kept
  unfold escapeCharacters escapeIdentifierStart
  dsimp only
  have letters : ∀ c ∈ text.map fun c => if isIdentifierChar c then c else '_',
      isIdentifierChar c = true := by
    intro c member
    obtain ⟨source, _, rfl⟩ := List.mem_map.mp member
    split
    · assumption
    · decide
  have letterKept : named →
      (text.map fun c => if isIdentifierChar c then c else '_').any Char.isAlphanum = true := by
    intro isNamed
    obtain ⟨c, member, letter⟩ := List.any_eq_true.mp (kept isNamed)
    refine List.any_eq_true.mpr ⟨c, List.mem_map.mpr ⟨c, member, ?_⟩, letter⟩
    simp [isIdentifierChar, letter]
  split
  · exact { nonempty := List.cons_ne_nil _ _
            letters := List.forall_mem_cons.mpr ⟨by decide, letters⟩
            start := by simp
            kept := fun isNamed => by rw [List.any_cons, letterKept isNamed, Bool.or_true] }
  · rename_i start
    exact { nonempty := by simpa using nonempty
            letters := letters
            start := by simpa using start
            kept := letterKept }

private theorem Spelled.append_underscore {text : List Char} (spelled : Spelled named text) :
    Spelled named (text ++ ['_']) where
  toIsWord := isWord_append spelled.toIsWord (List.all_eq_true.mp rfl)
  kept isNamed := by simp [spelled.kept isNamed]

private theorem Spelled.stropDraft {draft : Draft} (spelled : Spelled named draft.1)
    (taken : List (List Char)) : Spelled named (stropDraft taken draft).1 := by
  unfold Support.stropDraft
  split
  · exact spelled.append_underscore
  · exact spelled

private theorem Spelled.toUpper {text : List Char} (spelled : Spelled named text) :
    Spelled named (text.map Char.toUpper) where
  nonempty := by simp [spelled.nonempty]
  letters c member := by
    obtain ⟨source, inside, rfl⟩ := List.mem_map.mp member
    have letter := spelled.letters source inside
    simp only [isIdentifierChar, isAlphanum_toUpper, Bool.or_eq_true, decide_eq_true_eq] at letter ⊢
    refine letter.imp id ?_
    rintro rfl
    decide
  start := by
    rw [List.head?_map, Option.any_map]
    simpa [Function.comp_def] using spelled.start
  kept isNamed := by simpa [Function.comp_def] using spelled.kept isNamed

private theorem fillEmpty_ne_nil (style : CaseStyle) (out : List Char) :
    (fillEmpty style out).1 ≠ [] := by
  unfold fillEmpty
  split
  · split <;> exact List.cons_ne_nil _ _
  · assumption

private theorem fillEmpty_kept (style : CaseStyle) {out : List Char}
    (letters : out.any Char.isAlphanum = true) :
    (fillEmpty style out).1.any Char.isAlphanum = true := by
  unfold fillEmpty
  rw [if_neg]
  · exact letters
  · rintro rfl
    simp at letters

private theorem fillEmpty_pascal (name : List Char) :
    (fillEmpty .pascal (normalizePascalCase name)).1.any Char.isAlphanum = true := by
  have letters : ∀ c ∈ normalizePascalCase name, c.isAlphanum = true :=
    pascalFrom_letters name true
  unfold fillEmpty
  cases out : normalizePascalCase name with
  | nil => rfl
  | cons first rest =>
      rw [out] at letters
      simp [letters first List.mem_cons_self]

private theorem stropDraft_not_keyword {language : Language} {draft : Draft} :
    (stropDraft (keywordSet language) draft).1 ∉ keywordSet language := by
  unfold stropDraft
  split
  · exact not_keyword_of_last language (by simp) (Or.inl rfl)
  · assumption

private theorem stropDraft_keeps_not_keyword {language : Language} {draft : Draft}
    (ordinary : draft.1 ∉ keywordSet language) (taken : List (List Char)) :
    (stropDraft taken draft).1 ∉ keywordSet language := by
  unfold stropDraft
  split
  · exact not_keyword_of_last language (by simp) (Or.inl rfl)
  · exact ordinary

private theorem finishedDraft_spelled {language : Language} {role : IdentifierRole}
    {policy : RolePolicy} {name : List Char} (escapes : policy.escape = true)
    (apart : policy.strop = true ∨ policy.upper = true)
    (kept : named →
      (fillEmpty policy.caseStyle (policy.caseStyle.project name)).1.any Char.isAlphanum = true) :
    Spelled named (finishedDraft language (some role) policy name).1 ∧
      (finishedDraft language (some role) policy name).1 ∉ keywordSet language := by
  unfold finishedDraft
  dsimp only
  rw [if_pos escapes]
  have escaped := spelled_escapeCharacters
    (fillEmpty_ne_nil policy.caseStyle (policy.caseStyle.project name)) kept
  generalize escapeCharacters (fillEmpty policy.caseStyle (policy.caseStyle.project name)) =
    draft at escaped
  have stropped : Spelled named
      (if policy.strop then stropDraft (keywordSet language) draft else draft).1 := by
    split
    · exact escaped.stropDraft _
    · exact escaped
  by_cases upper : policy.upper = true
  · rw [if_pos upper]
    refine ⟨stropped.toUpper.stropDraft _, stropDraft_keeps_not_keyword ?_ _⟩
    exact not_keyword_of_upper language (by simp [Function.comp_def])
  · rw [if_neg upper]
    refine ⟨stropped.stropDraft _, stropDraft_keeps_not_keyword ?_ _⟩
    rw [if_pos (apart.resolve_right upper)]
    exact stropDraft_not_keyword

end Pipeline

private theorem encoded_not_keyword {language : Language} {text : List Char}
    (ordinary : text ∉ keywordSet language) :
    (encodeReservedNamespace language text).text ∉ keywordSet language := by
  by_cases reserved : InReservedNamespace language text
  · have held : 'X' ∈ (encodeReservedNamespace language text).text := by
      have letter : 'X' ∈ escapedUnderscore := by decide
      rcases imitates_of_encoded reserved with ⟨c, rest, whole, _⟩ | ⟨before, after, whole, _⟩
      · rw [whole]
        exact List.mem_append_left _ letter
      · rw [whole]
        exact List.mem_append_left _ (List.mem_append_right _ letter)
    exact not_keyword_of_escape language held
  · rwa [encodeReservedNamespace_kept reserved]

/-- A file stem of C or C++ is a file name that the pipeline leaves alone. -/
def IsVerbatimStem (language : Language) (role : IdentifierRole) : Prop :=
  language.isCLike = true ∧ role = .fileStem

private theorem rolePolicy_escapes {language : Language} {role : IdentifierRole}
    (identifier : ¬IsVerbatimStem language role) :
    (rolePolicy language role).escape = true ∧
      ((rolePolicy language role).strop = true ∨ (rolePolicy language role).upper = true) := by
  unfold IsVerbatimStem at identifier
  revert identifier
  cases language <;> cases role <;> decide

private theorem rust_project_kept (role : IdentifierRole) {name : List Char}
    (named : name.any Char.isAlphanum = true) :
    ((rolePolicy .rust role).caseStyle.project name).any Char.isAlphanum = true := by
  have snake : (canonicalSnakeCase name).any Char.isAlphanum = true :=
    snakeFrom_alphanum named none false false
  have pascal : (normalizePascalCase name).any Char.isAlphanum = true :=
    pascalFrom_alphanum named true
  cases role <;> assumption

/-- The pipeline makes an identifier of the language out of every name, whatever the
role; in Rust of every type name, and of every other name with a letter or digit. -/
theorem legal_codegenProjectIdentifier {language : Language} {role : IdentifierRole}
    (identifier : ¬IsVerbatimStem language role) {name : List Char}
    (named : language = .rust → role = .typeName ∨ name.any Char.isAlphanum = true) :
    Legal language (codegenProjectIdentifier language role name) := by
  obtain ⟨escapes, apart⟩ := rolePolicy_escapes identifier
  have kept : language = .rust →
      (fillEmpty (rolePolicy language role).caseStyle
        ((rolePolicy language role).caseStyle.project name)).1.any Char.isAlphanum = true := by
    rintro rfl
    rcases named rfl with rfl | letters
    · exact fillEmpty_pascal name
    · exact fillEmpty_kept _ (rust_project_kept role letters)
  obtain ⟨spelled, ordinary⟩ := @finishedDraft_spelled (language = .rust) language role
    (rolePolicy language role) name escapes apart kept
  have several (rust : language = .rust) {text : List Char}
      (letter : text.any Char.isAlphanum = true) : text ≠ ['_'] := by
    rintro rfl
    revert letter
    decide
  unfold codegenProjectIdentifier runPipeline
  dsimp only
  split
  · refine ⟨isWord_encodeReservedNamespace language spelled.toIsWord,
      encoded_not_keyword ordinary, encodeReservedNamespace_leaves language _, ?_⟩
    rintro rfl
    rw [@encodeReservedNamespace_kept .rust _ fun reserved => reserved]
    exact several rfl (spelled.kept rfl)
  · rename_i stem
    have unreserved : reservedUnderscores language = .none := by
      have isStem : role = .fileStem := by simpa using stem
      unfold IsVerbatimStem at identifier
      rw [isStem] at identifier
      revert identifier
      cases language <;> decide
    refine ⟨spelled.toIsWord, ordinary, ?_, fun rust => several rust (spelled.kept rust)⟩
    unfold InReservedNamespace
    rw [unreserved]
    exact not_false

end LlvmDsdl.Support
