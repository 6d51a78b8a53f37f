import LlvmDsdl.Support.LegalIdentifiers

/-!
Contract: the names a definition's output takes (`DefinitionNaming.cpp`).

Owns: how each language composes a definition, its type names, the stem of its
file, the names of a service's sections, and what every file stem ends in.
-/

namespace LlvmDsdl.Support

inductive TypeNameVersioning where
  | unversioned
  | versioned
  deriving DecidableEq, Repr

inductive SectionEnclosure where
  | none
  | module
  | serviceType
  deriving DecidableEq, Repr

/-- How the output opens a DSDL namespace. -/
inductive NamespaceForm where
  /-- It does not: the namespace is joined into each identifier. -/
  | joined
  | asNamespace
  | asModule
  | asPackage
  deriving DecidableEq, Repr

/-- What composing a definition reads of a language's row. -/
structure Composition where
  rowName : List Char
  namespaceJoin : List Char
  versionInTypeName : Bool
  sectionJoin : List Char
  sectionEnclosure : SectionEnclosure
  namespaces : NamespaceForm
  fileExtension : List Char
  directoriesProjected : Bool
  fileAndDirectoryAreOneModule : Bool
  namespaceAndTypeShareScope : Bool
  deprecatedTypeDeclaredApart : Bool
  /-- No member may take the name of its type. -/
  typeNameAmongMembers : Bool
  deriving DecidableEq, Repr

def composition : Language → Composition
  | .c =>
      { rowName := ['c']
        namespaceJoin := ['_', '_']
        versionInTypeName := true
        sectionJoin := ['_', '_']
        sectionEnclosure := .none
        namespaces := .joined
        fileExtension := ['.', 'h']
        directoriesProjected := false
        fileAndDirectoryAreOneModule := false
        namespaceAndTypeShareScope := false
        deprecatedTypeDeclaredApart := false
        typeNameAmongMembers := false }
  | .cpp =>
      { rowName := ['c', 'p', 'p']
        namespaceJoin := []
        versionInTypeName := true
        sectionJoin := []
        sectionEnclosure := .serviceType
        namespaces := .asNamespace
        fileExtension := ['.', 'h', 'p', 'p']
        directoriesProjected := false
        fileAndDirectoryAreOneModule := false
        namespaceAndTypeShareScope := true
        deprecatedTypeDeclaredApart := true
        typeNameAmongMembers := true }
  | .rust =>
      { rowName := ['r', 'u', 's', 't']
        namespaceJoin := []
        versionInTypeName := false
        sectionJoin := []
        sectionEnclosure := .module
        namespaces := .asModule
        fileExtension := ['.', 'r', 's']
        directoriesProjected := true
        fileAndDirectoryAreOneModule := true
        namespaceAndTypeShareScope := false
        deprecatedTypeDeclaredApart := true
        typeNameAmongMembers := false }
  | .go =>
      { rowName := ['g', 'o']
        namespaceJoin := []
        versionInTypeName := true
        sectionJoin := []
        sectionEnclosure := .none
        namespaces := .asPackage
        fileExtension := ['.', 'g', 'o']
        directoriesProjected := true
        fileAndDirectoryAreOneModule := false
        namespaceAndTypeShareScope := false
        deprecatedTypeDeclaredApart := false
        typeNameAmongMembers := false }
  | .typeScript =>
      { rowName := ['t', 's']
        namespaceJoin := []
        versionInTypeName := true
        sectionJoin := []
        sectionEnclosure := .none
        namespaces := .asModule
        fileExtension := ['.', 't', 's']
        directoriesProjected := true
        fileAndDirectoryAreOneModule := true
        namespaceAndTypeShareScope := false
        deprecatedTypeDeclaredApart := false
        typeNameAmongMembers := false }
  | .python =>
      { rowName := ['p', 'y', 't', 'h', 'o', 'n']
        namespaceJoin := []
        versionInTypeName := true
        sectionJoin := []
        sectionEnclosure := .none
        namespaces := .asModule
        fileExtension := ['.', 'p', 'y']
        directoriesProjected := true
        fileAndDirectoryAreOneModule := true
        namespaceAndTypeShareScope := false
        deprecatedTypeDeclaredApart := false
        typeNameAmongMembers := false }

/-- A definition by its namespace, short name and version. -/
structure DefinitionRef where
  namespaceComponents : List (List Char)
  shortName : List Char
  majorVersion : ℕ
  minorVersion : ℕ
  deriving DecidableEq, Repr

/-- `_major_minor`. -/
def versionSuffix (majorVersion minorVersion : ℕ) : List Char :=
  '_' :: Nat.toDigits 10 majorVersion ++ '_' :: Nat.toDigits 10 minorVersion

def renderDefinitionTypeName (language : Language) (ref : DefinitionRef)
    (versioning : TypeNameVersioning) : List Char :=
  let policy := composition language
  let joined := ref.namespaceComponents.foldl
    (fun out component =>
      (if out = [] then out else out ++ policy.namespaceJoin) ++
        codegenProjectIdentifier language .namespaceName component)
    []
  (if policy.namespaceJoin = [] then []
    else if joined = [] then joined else joined ++ policy.namespaceJoin) ++
  codegenProjectIdentifier language .typeName ref.shortName ++
  (if versioning = .versioned && policy.versionInTypeName then
    versionSuffix ref.majorVersion ref.minorVersion
  else [])

def renderDefinitionFileStemSource (ref : DefinitionRef) : List Char :=
  ref.shortName ++ versionSuffix ref.majorVersion ref.minorVersion

/-- The composed name is projected as one. -/
def renderDefinitionFileStem (language : Language) (ref : DefinitionRef) : List Char :=
  codegenProjectIdentifier language .fileStem (renderDefinitionFileStemSource ref)

/-- A section of a definition; a message has one of no name. -/
inductive SectionName where
  | message
  | request
  | response
  deriving DecidableEq, Repr

def requestWord : List Char := ['R', 'e', 'q', 'u', 'e', 's', 't']

def responseWord : List Char := ['R', 'e', 's', 'p', 'o', 'n', 's', 'e']

def renderSectionTypeName (language : Language) (baseTypeName : List Char) :
    SectionName → List Char
  | .message => baseTypeName
  | sectionName =>
      let word := if sectionName = .request then requestWord else responseWord
      if (composition language).sectionEnclosure ≠ .none then
        codegenProjectIdentifier language .typeName word
      else baseTypeName ++ (composition language).sectionJoin ++ word

def renderDeclaredTypeName (typeName : List Char) (declaredApart : Bool) : List Char :=
  if declaredApart then typeName ++ ['_'] else typeName

theorem digits_decimal {value : ℕ} {c : Char} (member : c ∈ Nat.toDigits 10 value) :
    c.isDigit = true :=
  Nat.isDigit_of_mem_toDigits (by decide) (by decide) member

theorem underscore_not_digits (value : ℕ) : '_' ∉ Nat.toDigits 10 value := fun member =>
  absurd (digits_decimal member) (by decide)

theorem toDigits_injective {first second : ℕ}
    (same : Nat.toDigits 10 first = Nat.toDigits 10 second) : first = second := by
  have read := congrArg (Nat.ofDigitChars 10 · 0) same
  simpa only [Nat.ofDigitChars_ten_toDigits] using read

theorem split_last_underscore {first second before after : List Char} (plain : '_' ∉ after)
    (otherPlain : '_' ∉ second) (same : before ++ '_' :: after = first ++ '_' :: second) :
    before = first ∧ after = second := by
  rcases List.append_eq_append_iff.mp same with ⟨between, isFirst, rest⟩ | ⟨between, isBefore, rest⟩
  · cases between with
    | nil => exact ⟨by rw [isFirst, List.append_nil], (List.cons.inj rest).2⟩
    | cons c more =>
        have inside := (List.cons.inj rest).2
        exact absurd (inside ▸ List.mem_append_right more List.mem_cons_self) plain
  · cases between with
    | nil => exact ⟨by rw [isBefore, List.append_nil], (List.cons.inj rest).2.symm⟩
    | cons c more =>
        have inside := (List.cons.inj rest).2
        exact absurd (inside ▸ List.mem_append_right more List.mem_cons_self) otherPlain

theorem versionSuffix_inj {first second : List Char} {major minor otherMajor otherMinor : ℕ}
    (same : first ++ versionSuffix major minor = second ++ versionSuffix otherMajor otherMinor) :
    first = second ∧ major = otherMajor ∧ minor = otherMinor := by
  rw [versionSuffix, versionSuffix, ← List.append_assoc, ← List.append_assoc] at same
  obtain ⟨majors, minors⟩ := split_last_underscore (underscore_not_digits _)
    (underscore_not_digits _) same
  obtain ⟨names, sameMajor⟩ := split_last_underscore (underscore_not_digits _)
    (underscore_not_digits _) majors
  exact ⟨names, toDigits_injective sameMajor, toDigits_injective minors⟩

theorem digit_plain {c : Char} (digit : c.isDigit = true) :
    c.isAlphanum = true ∧ c.isUpper = false := by
  refine ⟨by simp [Char.isAlphanum, digit], ?_⟩
  exact (digit_quiet digit).2

theorem snakeFrom_digits {digits : List Char} (decimal : ∀ c ∈ digits, c.isDigit = true)
    (nonempty : digits ≠ []) (rest : List Char) (before : Option Char) (started underscore : Bool) :
    ∃ last, snakeFrom before started underscore (digits ++ rest) =
      digits ++ snakeFrom (some last) true false rest := by
  induction digits generalizing before started underscore with
  | nil => exact absurd rfl nonempty
  | cons c more ih =>
      obtain ⟨letter, small⟩ := digit_plain (decimal c List.mem_cons_self)
      rw [List.cons_append, snakeFrom, if_neg (by simp [letter]), if_neg (by simp [small])]
      cases more with
      | nil => exact ⟨c, rfl⟩
      | cons next later =>
          obtain ⟨last, same⟩ := ih
            (fun d member => decimal d (List.mem_cons_of_mem _ member)) (List.cons_ne_nil _ _)
            (some c) true false
          exact ⟨last, by rw [same]; rfl⟩

theorem snakeFrom_version (major minor : ℕ) (before : Option Char) (started underscore : Bool) :
    snakeFrom before started underscore
      (Nat.toDigits 10 major ++ '_' :: Nat.toDigits 10 minor) =
      Nat.toDigits 10 major ++ '_' :: Nat.toDigits 10 minor := by
  obtain ⟨last, majors⟩ := snakeFrom_digits (fun _ => @digits_decimal major _)
    Nat.toDigits_ne_nil ('_' :: Nat.toDigits 10 minor) before started underscore
  obtain ⟨_, minors⟩ := snakeFrom_digits (fun _ => @digits_decimal minor _)
    Nat.toDigits_ne_nil [] (some '_') true true
  rw [List.append_nil, snakeFrom, List.append_nil] at minors
  rw [majors, snakeFrom, if_pos (by decide), if_pos (by decide), minors]

/-- A name's words, in snake case, part from the version by one underscore; a name of no words
leaves the version alone. -/
theorem snakeFrom_versioned (name : List Char) (major minor : ℕ) {before : Option Char}
    {started underscore : Bool} (apart : underscore = true → started = true) :
    ∃ out, snakeFrom before started underscore (name ++ versionSuffix major minor) =
        out ++ (Nat.toDigits 10 major ++ '_' :: Nat.toDigits 10 minor) ∧
      (out.getLast? = some '_' ∨ out = [] ∧ (started = false ∨ underscore = true)) := by
  induction name generalizing before started underscore with
  | nil =>
      have version := snakeFrom_version major minor
      rw [List.nil_append, versionSuffix, List.cons_append, snakeFrom, if_pos (by decide)]
      split
      · exact ⟨['_'], by rw [version]; rfl, Or.inl rfl⟩
      · rename_i placed
        refine ⟨[], by rw [version]; rfl, Or.inr ⟨rfl, ?_⟩⟩
        cases started <;> cases underscore <;> simp_all
  | cons c rest ih =>
      have word (written : List Char) (next : Bool)
          (whole : ∀ out, out.getLast? = some '_' ∨ out = [] ∧ next = true →
            (written ++ out).getLast? = some '_') :
          ∃ out, written ++ snakeFrom (some c) true next (rest ++ versionSuffix major minor) =
            out ++ (Nat.toDigits 10 major ++ '_' :: Nat.toDigits 10 minor) ∧
            out.getLast? = some '_' := by
        obtain ⟨out, same, ends⟩ := @ih (some c) true next fun _ => rfl
        refine ⟨written ++ out, by rw [same, List.append_assoc], whole out ?_⟩
        exact ends.imp_right fun both => ⟨both.1, by simpa using both.2⟩
      have letter (written : List Char) :=
        word written false fun out ends => by
          have last := ends.resolve_right (by simp)
          rw [List.getLast?_append_of_ne_nil _ (by rintro rfl; simp at last), last]
      rw [List.cons_append, snakeFrom]
      split
      · split
        · have placed := word ['_'] true fun out ends => by
            rcases ends with last | ⟨rfl, _⟩
            · rw [List.getLast?_append_of_ne_nil _ (by rintro rfl; simp at last), last]
            · rfl
          obtain ⟨out, same, last⟩ := placed
          exact ⟨out, same, Or.inl last⟩
        · exact ih apart
      · split
        · dsimp only
          split
          · obtain ⟨out, same, last⟩ := letter ['_', c.toLower]
            exact ⟨out, same, Or.inl last⟩
          · obtain ⟨out, same, last⟩ := letter [c.toLower]
            exact ⟨out, same, Or.inl last⟩
        · obtain ⟨out, same, last⟩ := letter [c]
          exact ⟨out, same, Or.inl last⟩

def isSnakeChar (c : Char) : Bool := (c.isAlphanum || c = '_') && !c.isUpper

theorem isSnakeChar_toLower {c : Char} (letter : c.isAlphanum = true) :
    isSnakeChar c.toLower = true := by
  have small := Char.isUpper_toLower_eq_false c
  have kept : c.toLower.isAlphanum = true := by
    by_cases upper : c.isUpper
    · simp [Char.isAlphanum, Char.isAlpha, upper] 
    · rw [Char.toLower_eq_of_not_isUpper upper]
      exact letter
  simp [isSnakeChar, kept, small]

theorem snakeFrom_chars (name : List Char) (before : Option Char) (started underscore : Bool) :
    ∀ c ∈ snakeFrom before started underscore name, isSnakeChar c = true := by
  induction name generalizing before started underscore with
  | nil => exact nofun
  | cons c rest ih =>
      have tail (written : List Char) (snake : written.all isSnakeChar = true) (next : Bool)
          (placed : Bool) :
          ∀ d ∈ written ++ snakeFrom (some c) placed next rest, isSnakeChar d = true := by
        intro d member
        rcases List.mem_append.mp member with here | later
        · exact List.all_eq_true.mp snake d here
        · exact ih _ _ _ d later
      rw [snakeFrom]
      split
      · split
        · exact tail ['_'] rfl true true
        · exact ih _ _ _
      · rename_i letter
        have isLetter : c.isAlphanum = true := by simpa using letter
        split
        · dsimp only
          split
          · exact tail ['_', c.toLower] (by simp [isSnakeChar_toLower isLetter]; decide) false true
          · exact tail [c.toLower] (by simp [isSnakeChar_toLower isLetter]) false true
        · rename_i small
          exact tail [c] (by simpa [isSnakeChar, isLetter] using small) false true

/-- The stages that write no capital. -/
def Small (text : List Char) : Prop := ∀ c ∈ text, c.isUpper = false

theorem Small.append {first second : List Char} (small : Small first) (other : Small second) :
    Small (first ++ second) := fun c member =>
  (List.mem_append.mp member).elim (small c) (other c)

theorem Small.map_toLower {text : List Char} (small : Small text) :
    text.map Char.toLower = text := by
  refine (List.map_congr_left fun c member => ?_).trans (List.map_id text)
  exact Char.toLower_eq_of_not_isUpper (by rw [small c member]; exact Bool.false_ne_true)

theorem small_digits (value : ℕ) : Small (Nat.toDigits 10 value) := fun _ member =>
  (digit_quiet (digits_decimal member)).2

theorem Small.stropDraft {draft : Draft} (small : Small draft.1) (taken : List (List Char)) :
    Small (stropDraft taken draft).1 := by
  unfold Support.stropDraft
  split
  · exact small.append (fun c member => List.mem_singleton.mp member ▸ rfl)
  · exact small

theorem small_escapeCharacters {draft : Draft} (small : Small draft.1) :
    Small (escapeCharacters draft).1 := by
  have mapped : Small (draft.1.map fun c => if isIdentifierChar c then c else '_') := by
    intro c member
    obtain ⟨source, inside, rfl⟩ := List.mem_map.mp member
    split
    · exact small source inside
    · rfl
  unfold escapeCharacters escapeIdentifierStart
  dsimp only
  split
  · exact fun c member => (List.mem_cons.mp member).elim (fun same => same ▸ rfl) (mapped c)
  · exact mapped

/-- The case styles of namespaces and files outside C and C++ write no capital. -/
theorem small_project {style : CaseStyle} (quiet : style = .snake ∨ style = .goPackage)
    (name : List Char) : Small (fillEmpty style (style.project name)).1 := by
  have projected : Small (style.project name) := by
    rcases quiet with rfl | rfl
    · intro c member
      have snake := snakeFrom_chars name none false false c member
      rw [isSnakeChar, Bool.and_eq_true, Bool.not_eq_true'] at snake
      exact snake.2
    · intro c member
      obtain ⟨word, _, inside⟩ := List.mem_flatMap.mp member
      obtain ⟨source, _, rfl⟩ := List.mem_map.mp inside
      exact Char.isUpper_toLower_eq_false source
  unfold fillEmpty
  split
  · rw [if_neg (by rcases quiet with rfl | rfl <;> decide)]
    exact fun c member => List.mem_singleton.mp member ▸ rfl
  · exact projected

theorem small_codegenProjectIdentifier {language : Language} (unlikeC : language.isCLike = false)
    {role : IdentifierRole} (path : role = .namespaceName ∨ role = .fileStem) (name : List Char) :
    Small (codegenProjectIdentifier language role name) := by
  have policy : ∃ style, (style = .snake ∨ style = .goPackage) ∧
      rolePolicy language role = .cased style := by
    rcases path with rfl | rfl <;> cases language
    all_goals first
      | exact absurd unlikeC (by decide)
      | exact ⟨.snake, Or.inl rfl, rfl⟩
      | exact ⟨.goPackage, Or.inr rfl, rfl⟩
  have unreserved : reservedUnderscores language = .none := by
    cases language
    all_goals first
      | exact absurd unlikeC (by decide)
      | rfl
  obtain ⟨style, quiet, same⟩ := policy
  have finished : Small (finishedDraft language (some role) (.cased style) name).1 := by
    unfold finishedDraft
    exact ((small_escapeCharacters (small_project quiet name)).stropDraft _).stropDraft _
  unfold codegenProjectIdentifier runPipeline
  rw [same]
  dsimp only
  split
  · rw [encodeReservedNamespace, unreserved]
    exact finished
  · exact finished

theorem isIdentifierChar_of_snake {c : Char} (snake : isSnakeChar c = true) :
    isIdentifierChar c = true := by
  rw [isSnakeChar, Bool.and_eq_true] at snake
  exact snake.1

theorem escapeCharacters_snake {text : List Char} (snake : ∀ c ∈ text, isSnakeChar c = true)
    (flag : Bool) : (escapeCharacters (text, flag)).1 = escapeIdentifierStart text := by
  have kept : (text.map fun c => if isIdentifierChar c then c else '_') = text := by
    refine (List.map_congr_left fun c member => ?_).trans (List.map_id text)
    exact if_pos (isIdentifierChar_of_snake (snake c member))
  unfold escapeCharacters
  dsimp only
  rw [kept]

theorem stropDraft_apart {taken : List (List Char)} {draft : Draft} (apart : draft.1 ∉ taken) :
    stropDraft taken draft = draft := if_neg apart

theorem fillEmpty_nonempty (style : CaseStyle) {text : List Char} (nonempty : text ≠ []) :
    fillEmpty style text = (text, false) := if_neg nonempty

theorem version_nonempty (name : List Char) (major minor : ℕ) :
    name ++ (Nat.toDigits 10 major ++ '_' :: Nat.toDigits 10 minor) ≠ [] := by simp

theorem fileStem_verbatim {language : Language} (like : language.isCLike = true)
    (ref : DefinitionRef) :
    renderDefinitionFileStem language ref = renderDefinitionFileStemSource ref := by
  have drafted : renderDefinitionFileStem language ref =
      (stropDraft [] (fillEmpty .preserve (renderDefinitionFileStemSource ref))).1 := by
    cases language
    all_goals first
      | exact absurd like (by decide)
      | rfl
  have nonempty : renderDefinitionFileStemSource ref ≠ [] := by
    rw [renderDefinitionFileStemSource, versionSuffix]
    simp
  rw [drafted, stropDraft_apart List.not_mem_nil, fillEmpty_nonempty _ nonempty]

/-- **A file stem ends in the version of its definition.** -/
theorem fileStem_versioned (language : Language) (ref : DefinitionRef) :
    ∃ before, renderDefinitionFileStem language ref =
      before ++ versionSuffix ref.majorVersion ref.minorVersion := by
  cases like : language.isCLike with
  | true => exact ⟨ref.shortName, fileStem_verbatim like ref⟩
  | false =>
      have drafted : renderDefinitionFileStem language ref =
          (stropDraft [] (stropDraft (keywordSet language) (escapeCharacters
            (fillEmpty .snake (canonicalSnakeCase (renderDefinitionFileStemSource ref)))))).1 := by
        cases language
        all_goals first
          | exact absurd like (by decide)
          | rfl
      obtain ⟨out, snake, ends⟩ := @snakeFrom_versioned ref.shortName ref.majorVersion
        ref.minorVersion none false false nofun
      have chars := snakeFrom_chars (renderDefinitionFileStemSource ref) none false false
      rw [renderDefinitionFileStemSource] at drafted chars
      rw [canonicalSnakeCase, snake, fillEmpty_nonempty _ (version_nonempty _ _ _)] at drafted
      rw [snake] at chars
      have escaped := escapeCharacters_snake chars false
      -- The stem ends in a digit, so it is no keyword.
      obtain ⟨last, isLast, digit⟩ : ∃ last, (escapeCharacters (out ++ (Nat.toDigits 10
          ref.majorVersion ++ '_' :: Nat.toDigits 10 ref.minorVersion), false)).1.getLast? =
            some last ∧ last.isDigit = true := by
        obtain ⟨last, isLast⟩ := Option.isSome_iff_exists.mp
          (List.getLast?_isSome.mpr (Nat.toDigits_ne_nil (b := 10) (n := ref.minorVersion)))
        refine ⟨last, ?_, digits_decimal (List.mem_of_getLast? isLast)⟩
        have whole : (out ++ (Nat.toDigits 10 ref.majorVersion ++
            '_' :: Nat.toDigits 10 ref.minorVersion)).getLast? = some last := by
          rw [← List.append_assoc, List.append_cons,
            List.getLast?_append_of_ne_nil _ Nat.toDigits_ne_nil, isLast]
        rw [escaped, escapeIdentifierStart]
        split
        · rw [← whole]
          exact List.getLast?_append_of_ne_nil ['_'] (version_nonempty _ _ _)
        · exact whole
      rw [stropDraft_apart List.not_mem_nil,
        stropDraft_apart (not_keyword_of_last language isLast (Or.inr digit)), escaped,
        escapeIdentifierStart] at drafted
      have placed : out = [] ∨ ∃ before, out = before ++ ['_'] := by
        refine ends.symm.imp And.left fun isUnderscore => ?_
        exact ⟨out.dropLast, (List.dropLast_append_getLast? _ isUnderscore).symm⟩
      rcases placed with rfl | ⟨before, rfl⟩
      · refine ⟨[], drafted.trans ?_⟩
        obtain ⟨first, more, isFirst⟩ := List.exists_cons_of_ne_nil
          (Nat.toDigits_ne_nil (b := 10) (n := ref.majorVersion))
        have digit : first.isDigit = true :=
          digits_decimal (isFirst ▸ List.mem_cons_self)
        rw [versionSuffix, isFirst]
        exact if_pos digit
      · split at drafted
        · exact ⟨'_' :: before, by rw [drafted, versionSuffix]; simp⟩
        · exact ⟨before, by rw [drafted, versionSuffix]; simp⟩

end LlvmDsdl.Support
