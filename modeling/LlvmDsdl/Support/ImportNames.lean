import Mathlib
import LlvmDsdl.Support.DefinitionNaming
import LlvmDsdl.Support.NamingScope

/-!
Contract: the names a generated file imports other definitions under
(`ImportNameScope.cpp`, the imports of `SurfacePlan.cpp`).

Owns: a definition's key, the local names claimed for definitions, the packages a
Go file imports, and when all of them are there.
-/

namespace LlvmDsdl.Support

open Library (NameTable firstFree)

attribute [local instance] lawfulBEq_characters

/-! ### Definitions -/

def DefinitionRef.Named (ref : DefinitionRef) : Prop :=
  ∀ name ∈ ref.namespaceComponents ++ [ref.shortName], IsWord name

def renderDefinitionKey (ref : DefinitionRef) : List Char :=
  ref.namespaceComponents.flatMap (· ++ ['.']) ++ ref.shortName ++
    '.' :: Nat.toDigits 10 ref.majorVersion ++ '.' :: Nat.toDigits 10 ref.minorVersion

def importOrder (ref : DefinitionRef) : List Char :=
  ref.namespaceComponents.flatMap (· ++ ['.']) ++ ref.shortName ++
    ':' :: Nat.toDigits 10 ref.majorVersion ++ ':' :: Nat.toDigits 10 ref.minorVersion

/-! ### Local names -/

/-- The names the file declares are in use in the table from the start. -/
structure ImportNameScope where
  language : Language
  table : NameTable (List Char) (List Char)

namespace ImportNameScope

def create (language : Language) (declared : List (List Char)) : ImportNameScope :=
  { language := language, table := ⟨declared, []⟩ }

/-- A candidate is composed from the raw parts and projected once. -/
def compose (language : Language) (declaredApart : Bool) (raw : List Char) : List Char :=
  renderDeclaredTypeName (codegenProjectIdentifier language .typeName raw) declaredApart

/-- As many namespace components as `depth`, the nearest ones, and the short name. -/
def qualified (ref : DefinitionRef) (depth : ℕ) : List Char :=
  (ref.namespaceComponents.drop (ref.namespaceComponents.length - depth)).flatMap (· ++ ['_']) ++
    ref.shortName

/-- The short name with the ordinal that the 32-bit counter holds. -/
def numbered (ref : DefinitionRef) (ordinal : ℕ) : List Char :=
  ref.shortName ++ '_' :: Nat.toDigits 10 (ordinal % 2 ^ 32)

/-- The local name a claim takes; none where the search never ends. -/
def choose (language : Language) (ref : DefinitionRef) (exported : List Char)
    (declaredApart : Bool) (taken : List (List Char)) : Option (List Char) :=
  let namespaced := (List.range ref.namespaceComponents.length).map fun depth =>
    compose language declaredApart (qualified ref (depth + 1))
  ((exported :: namespaced).find? fun candidate => candidate ∉ taken).or
    (firstFree taken (fun ordinal => compose language declaredApart (numbered ref ordinal))
      (2 ^ 32) 2)

structure Claim where
  ref : DefinitionRef
  exported : List Char
  declaredApart : Bool
  deriving DecidableEq, Repr

def claim (scope : ImportNameScope) (request : Claim) : Option (List Char × ImportNameScope) :=
  (scope.table.request (renderDefinitionKey request.ref)
    (choose scope.language request.ref request.exported request.declaredApart)).map fun step =>
      (step.1, { scope with table := step.2 })

def localName (scope : ImportNameScope) (ref : DefinitionRef) (exported : List Char) :
    List Char :=
  (scope.table.lookup (renderDefinitionKey ref)).getD exported

/-- The local names given to a sequence of claims. -/
def claimAll (scope : ImportNameScope) : List Claim → Option (List (List Char) × ImportNameScope)
  | [] => some ([], scope)
  | request :: rest =>
      (scope.claim request).bind fun step =>
        (step.2.claimAll rest).map fun later => (step.1 :: later.1, later.2)

end ImportNameScope

/-! ### Packages -/

structure FieldParts where
  composite : Option DefinitionRef
  /-- The composite is held as a view of its bytes. -/
  view : Bool
  deriving DecidableEq, Repr

structure SectionParts where
  fields : List FieldParts
  deriving DecidableEq, Repr

structure DefinitionParts where
  ref : DefinitionRef
  request : SectionParts
  response : Option SectionParts
  deriving DecidableEq, Repr

def DefinitionParts.fields (definition : DefinitionParts) : List FieldParts :=
  definition.request.fields ++
    match definition.response with
    | none => []
    | some response => response.fields

/-- An entry of a map in the order of its keys, unless its key is there. -/
def tryEmplace (entries : List (List Char × DefinitionRef)) (key : List Char)
    (ref : DefinitionRef) : List (List Char × DefinitionRef) :=
  match entries with
  | [] => [(key, ref)]
  | entry :: rest =>
      if key = entry.1 then entry :: rest
      else if key < entry.1 then (key, ref) :: entry :: rest
      else entry :: tryEmplace rest key ref

/-- The definitions held by value, in import order. -/
def DefinitionParts.composites (definition : DefinitionParts) : List DefinitionRef :=
  (definition.fields.foldl
    (fun entries field =>
      match field.composite with
      | some ref => if field.view then entries else tryEmplace entries (importOrder ref) ref
      | none => entries)
    []).map Prod.snd

def packageOf (ref : DefinitionRef) : List Char :=
  (ref.namespaceComponents.map (codegenProjectIdentifier .go .namespaceName)).foldl
    (fun path component => (if path = [] then [] else path ++ ['/']) ++ component) []

/-- An import names the package through the first definition the file takes from it. -/
structure PackageImport where
  name : List Char
  definition : DefinitionRef
  deriving DecidableEq, Repr

/-- The import's own name of a namespace, before later ones meet it. -/
def packageAlias (ref : DefinitionRef) : List Char :=
  let base := ['p', 'k', 'g', '_'] ++ codegenProjectIdentifier .go .namespaceName
    (['_'].intercalate ref.namespaceComponents)
  if base = ['p', 'k', 'g', '_'] then ['p', 'k', 'g', '_', 'd', 'e', 'p'] else base

/-- One of these is free: they are more than the names in use. -/
def freeAlias (used : List (List Char)) (first : List Char) : List Char :=
  if first ∈ used then
    (firstFree used (fun suffix => first ++ '_' :: Nat.toDigits 10 suffix) (used.length + 1)
      1).getD first
  else first

/-- The aliases in use, the packages met, and the imports declared. -/
structure PackageImports where
  used : List (List Char)
  imported : List (List Char)
  declared : List PackageImport

/-- What one definition held by value adds; `inModule` holds the keys of the module. -/
def PackageImports.add (inModule : List (List Char)) (own : List Char) (imports : PackageImports)
    (ref : DefinitionRef) : PackageImports :=
  let path := packageOf ref
  if path = [] ∨ path = own then imports
  else
    let name := freeAlias imports.used (packageAlias ref)
    { used := name :: imports.used
      imported := path :: imports.imported
      -- The package is met here whether or not this definition is of the module.
      declared :=
        if path ∉ imports.imported ∧ renderDefinitionKey ref ∈ inModule then
          imports.declared ++ [⟨name, ref⟩]
        else imports.declared }

/-- The imports of a Go file. A file of accessors names no type of another. -/
def allocateImports (inModule : List (List Char)) (accessorsOnly : Bool)
    (definition : DefinitionParts) : List PackageImport :=
  if accessorsOnly then []
  else
    (definition.composites.foldl (PackageImports.add inModule (packageOf definition.ref))
      ⟨[], [], []⟩).declared

/-! ### Ordinals through the pipeline -/

private def KeepsDigits (step : List Char → List Char) (text : List Char) : Prop :=
  ∃ stem, ∀ digits, digits ≠ [] → (∀ c ∈ digits, c.isDigit = true) →
    step (text ++ digits) = stem ++ digits

private theorem pascalFrom_append_digits (text : List Char) :
    ∀ upperNext, KeepsDigits (pascalFrom upperNext) (text ++ ['_']) := by
  have digitsKept (digits : List Char) (decimal : ∀ c ∈ digits, c.isDigit = true) :
      ∀ upperNext, pascalFrom upperNext digits = digits := by
    induction digits with
    | nil => exact fun upperNext => rfl
    | cons c rest ih =>
        intro upperNext
        have digit := decimal c List.mem_cons_self
        have letter : c.isAlphanum = true := by simp [Char.isAlphanum, digit]
        have notLower : ¬c.isLower = true := by
          simp [Char.isDigit, Char.isLower, UInt32.le_iff_toNat_le] at digit ⊢
          omega
        rw [pascalFrom, if_neg (by simp [letter]), Char.toUpper_eq_of_not_isLower notLower,
          ih fun other member => decimal other (List.mem_cons_of_mem _ member)]
        split <;> rfl
  induction text with
  | nil =>
      intro upperNext
      refine ⟨[], fun digits _ decimal => ?_⟩
      rw [List.nil_append, List.singleton_append, pascalFrom, if_pos (by decide),
        digitsKept digits decimal]
      rfl
  | cons c rest ih =>
      intro upperNext
      by_cases letter : c.isAlphanum = true
      · obtain ⟨stem, keeps⟩ := ih false
        refine ⟨(if upperNext then c.toUpper else c) :: stem, fun digits nonempty decimal => ?_⟩
        rw [List.cons_append, List.cons_append, pascalFrom, if_neg (by simp [letter]),
          keeps digits nonempty decimal, List.cons_append]
      · obtain ⟨stem, keeps⟩ := ih true
        refine ⟨stem, fun digits nonempty decimal => ?_⟩
        rw [List.cons_append, List.cons_append, pascalFrom, if_pos (by simpa using letter),
          keeps digits nonempty decimal]

private theorem escapeCharacters_append_digits (text : List Char) (flag : Bool) :
    KeepsDigits (fun out => (escapeCharacters (out, flag)).1) text := by
  refine ⟨escapeIdentifierStart (if text = [] then ['_']
    else text.map fun c => if isIdentifierChar c then c else '_'), fun digits nonempty decimal => ?_⟩
  have same : (digits.map fun c => if isIdentifierChar c then c else '_') = digits := by
    conv_rhs => rw [← List.map_id digits]
    apply List.map_congr_left
    intro c member
    simp [isIdentifierChar, Char.isAlphanum, decimal c member]
  unfold escapeCharacters escapeIdentifierStart
  dsimp only
  rw [List.map_append, same]
  rcases text with _ | ⟨first, rest⟩
  · obtain ⟨digit, others, rfl⟩ := List.exists_cons_of_ne_nil nonempty
    simp [decimal digit List.mem_cons_self]
  · rw [if_neg (List.cons_ne_nil _ _), List.map_cons, List.cons_append]
    generalize (if isIdentifierChar first then first else '_') = start
    by_cases digit : start.isDigit = true <;> simp [digit]

private theorem stropDraft_append_digits {taken : List (List Char)}
    (ordinary : ∀ name ∈ taken, ∀ last, name.getLast? = some last → last.isDigit = false)
    {text digits : List Char} (nonempty : digits ≠ []) (decimal : ∀ c ∈ digits, c.isDigit = true)
    (flag : Bool) : stropDraft taken (text ++ digits, flag) = (text ++ digits, flag) := by
  unfold stropDraft
  rw [if_neg]
  intro member
  obtain ⟨last, isLast⟩ := Option.isSome_iff_exists.mp (List.getLast?_isSome.mpr nonempty)
  have ends : (text ++ digits).getLast? = some last := by
    rwa [List.getLast?_append_of_ne_nil _ nonempty]
  have notDigit := ordinary _ member last ends
  rw [decimal last (List.mem_of_getLast? isLast)] at notDigit
  cases notDigit

private theorem owned_ordinary (language : Language) :
    ∀ name ∈ (runtimeOwnedNames language .typeName).map String.toList, ∀ last,
      name.getLast? = some last → last.isDigit = false := by
  have checked : ((runtimeOwnedNames language .typeName).map String.toList).all (fun name =>
      name.getLast?.all fun last => !last.isDigit) = true := by
    cases language <;> decide +kernel
  intro name member last isLast
  simpa [isLast] using List.all_eq_true.mp checked name member

private theorem keyword_ordinary (language : Language) :
    ∀ name ∈ keywordSet language, ∀ last, name.getLast? = some last → last.isDigit = false := by
  intro name member last isLast
  by_contra digit
  exact not_keyword_of_last language isLast (Or.inr (by simpa using digit)) member

private theorem projection_append_digits (language : Language) (text : List Char) :
    KeepsDigits (codegenProjectIdentifier language .typeName) (text ++ ['_']) := by
  obtain ⟨style, isStyle, cased⟩ : ∃ style, rolePolicy language .typeName = .cased style ∧
      KeepsDigits style.project (text ++ ['_']) := by
    by_cases cLike : language.isCLike = true
    · exact ⟨.preserve, by simp [rolePolicy, cLike], text ++ ['_'], fun digits _ _ => rfl⟩
    · exact ⟨.pascal, by simp [rolePolicy, cLike], pascalFrom_append_digits text true⟩
  obtain ⟨projected, isProjected⟩ := cased
  obtain ⟨escaped, isEscaped⟩ := escapeCharacters_append_digits projected false
  obtain ⟨encoded, isEncoded⟩ := encodeReservedNamespace_append_digits language escaped
  refine ⟨encoded, fun digits nonempty decimal => ?_⟩
  have filled : fillEmpty style (projected ++ digits) = (projected ++ digits, false) := by
    simp [fillEmpty, nonempty]
  have finished : (finishedDraft language (some .typeName) (.cased style)
      (text ++ ['_'] ++ digits)).1 = escaped ++ digits := by
    have step := isEscaped digits nonempty decimal
    rcases draft : escapeCharacters (projected ++ digits, false) with ⟨out, flag⟩
    dsimp only at step
    rw [draft] at step
    dsimp only at step
    subst step
    simp only [finishedDraft, RolePolicy.cased, isProjected digits nonempty decimal, filled, draft,
      if_true, Bool.false_eq_true, if_false]
    rw [stropDraft_append_digits (keyword_ordinary language) nonempty decimal,
      stropDraft_append_digits (owned_ordinary language) nonempty decimal]
  unfold codegenProjectIdentifier runPipeline
  dsimp only
  rw [isStyle, if_pos (by decide), finished]
  exact isEncoded digits nonempty decimal

/-! ### Keys -/

private theorem flatMap_join (separator : Char) (names : List (List Char)) (last : List Char) :
    names.flatMap (· ++ [separator]) ++ last = [separator].intercalate (names ++ [last]) := by
  induction names with
  | nil => simp
  | cons name rest ih =>
      obtain ⟨next, others, whole⟩ : ∃ next others, rest ++ [last] = next :: others := by
        cases rest <;> exact ⟨_, _, rfl⟩
      rw [List.flatMap_cons, List.append_assoc, ih, List.cons_append, whole,
        List.intercalate_cons_cons]

private theorem join_injective {separator : Char} {pieces others : List (List Char)}
    (nonempty : pieces ≠ []) (othersNonempty : others ≠ [])
    (apart : ∀ piece ∈ pieces, separator ∉ piece) (othersApart : ∀ piece ∈ others, separator ∉ piece)
    (same : [separator].intercalate pieces = [separator].intercalate others) : pieces = others := by
  rw [← List.splitOn_intercalate separator apart nonempty, same,
    List.splitOn_intercalate separator othersApart othersNonempty]

private theorem not_mem_word {text : List Char} (word : IsWord text) :
    '.' ∉ text ∧ ':' ∉ text :=
  ⟨fun member => absurd (word.letters '.' member) (by decide),
    fun member => absurd (word.letters ':' member) (by decide)⟩

private theorem not_mem_toDigits (value : ℕ) :
    '.' ∉ Nat.toDigits 10 value ∧ ':' ∉ Nat.toDigits 10 value := by
  have decimal : ∀ c ∈ Nat.toDigits 10 value, c.isDigit = true := fun c member =>
    Nat.isDigit_of_mem_toDigits (by decide) (by decide) member
  exact ⟨fun member => absurd (decimal '.' member) (by decide),
    fun member => absurd (decimal ':' member) (by decide)⟩

private theorem eq_of_parts {ref other : DefinitionRef}
    (names : ref.namespaceComponents ++ [ref.shortName] =
      other.namespaceComponents ++ [other.shortName])
    (major : Nat.toDigits 10 ref.majorVersion = Nat.toDigits 10 other.majorVersion)
    (minor : Nat.toDigits 10 ref.minorVersion = Nat.toDigits 10 other.minorVersion) :
    ref = other := by
  obtain ⟨components, short⟩ := List.append_inj' names rfl
  obtain ⟨refComponents, refShort, refMajor, refMinor⟩ := ref
  obtain ⟨otherComponents, otherShort, otherMajor, otherMinor⟩ := other
  dsimp only at components short major minor
  rw [components, List.singleton_inj.mp short, toDigits_injective major, toDigits_injective minor]

private theorem renderDefinitionKey_eq_join (ref : DefinitionRef) :
    renderDefinitionKey ref = ['.'].intercalate (ref.namespaceComponents ++ [ref.shortName] ++
      [Nat.toDigits 10 ref.majorVersion, Nat.toDigits 10 ref.minorVersion]) := by
  have joined := flatMap_join '.' (ref.namespaceComponents ++ [ref.shortName] ++
    [Nat.toDigits 10 ref.majorVersion]) (Nat.toDigits 10 ref.minorVersion)
  rw [List.append_assoc] at joined
  unfold renderDefinitionKey
  rw [show ref.namespaceComponents ++ [ref.shortName] ++ [Nat.toDigits 10 ref.majorVersion,
      Nat.toDigits 10 ref.minorVersion] = ref.namespaceComponents ++ ([ref.shortName] ++
        [Nat.toDigits 10 ref.majorVersion]) ++ [Nat.toDigits 10 ref.minorVersion] by simp, ← joined]
  simp

theorem renderDefinitionKey_injective {ref other : DefinitionRef} (named : ref.Named)
    (otherNamed : other.Named) (same : renderDefinitionKey ref = renderDefinitionKey other) :
    ref = other := by
  have apart (ref : DefinitionRef) (named : ref.Named) :
      ∀ piece ∈ ref.namespaceComponents ++ [ref.shortName] ++
        [Nat.toDigits 10 ref.majorVersion, Nat.toDigits 10 ref.minorVersion], '.' ∉ piece := by
    intro piece member
    rcases List.mem_append.mp member with name | version
    · exact (not_mem_word (named piece name)).1
    · simp only [List.mem_cons, List.not_mem_nil, or_false] at version
      rcases version with rfl | rfl <;> exact (not_mem_toDigits _).1
  rw [renderDefinitionKey_eq_join, renderDefinitionKey_eq_join] at same
  have pieces := join_injective (by simp) (by simp) (apart ref named) (apart other otherNamed) same
  obtain ⟨names, versions⟩ := List.append_inj' pieces rfl
  simp only [List.cons.injEq, and_true] at versions
  exact eq_of_parts names versions.1 versions.2

theorem importOrder_injective {ref other : DefinitionRef} (named : ref.Named)
    (otherNamed : other.Named) (same : importOrder ref = importOrder other) : ref = other := by
  have apart (ref : DefinitionRef) (named : ref.Named) :
      ∀ name ∈ ref.namespaceComponents ++ [ref.shortName], '.' ∉ name := fun name member =>
    (not_mem_word (named name member)).1
  have fullName (ref : DefinitionRef) (named : ref.Named) :
      ':' ∉ ref.namespaceComponents.flatMap (· ++ ['.']) ++ ref.shortName := by
    intro member
    rcases List.mem_append.mp member with inside | short
    · obtain ⟨component, isComponent, inComponent⟩ := List.mem_flatMap.mp inside
      rcases List.mem_append.mp inComponent with letter | dot
      · exact (not_mem_word (named component (List.mem_append_left _ isComponent))).2 letter
      · exact absurd dot (by decide)
    · exact (not_mem_word (named ref.shortName (List.mem_append_right _ (by simp)))).2 short
  have colons (ref : DefinitionRef) (named : ref.Named) :
      ∀ piece ∈ [ref.namespaceComponents.flatMap (· ++ ['.']) ++ ref.shortName,
        Nat.toDigits 10 ref.majorVersion, Nat.toDigits 10 ref.minorVersion], ':' ∉ piece := by
    intro piece member
    simp only [List.mem_cons, List.not_mem_nil, or_false] at member
    rcases member with rfl | rfl | rfl
    · exact fullName ref named
    · exact (not_mem_toDigits _).2
    · exact (not_mem_toDigits _).2
  have joined (ref : DefinitionRef) : importOrder ref =
      [':'].intercalate [ref.namespaceComponents.flatMap (· ++ ['.']) ++ ref.shortName,
        Nat.toDigits 10 ref.majorVersion, Nat.toDigits 10 ref.minorVersion] := by
    simp [importOrder, List.intercalate_cons_cons]
  rw [joined, joined] at same
  have pieces := join_injective (by simp) (by simp) (colons ref named) (colons other otherNamed)
    same
  simp only [List.cons.injEq, and_true] at pieces
  obtain ⟨names, major, minor⟩ := pieces
  rw [flatMap_join, flatMap_join] at names
  exact eq_of_parts (join_injective (by simp) (by simp) (apart ref named)
    (apart other otherNamed) names) major minor

namespace ImportNameScope

private theorem compose_numbered_injective {language : Language} {declaredApart : Bool}
    {ref : DefinitionRef} {first second : ℕ} (firstBelow : first < 2 ^ 32)
    (secondBelow : second < 2 ^ 32)
    (same : compose language declaredApart (numbered ref (2 + first)) =
      compose language declaredApart (numbered ref (2 + second))) : first = second := by
  obtain ⟨stem, keeps⟩ := projection_append_digits language ref.shortName
  have projected (ordinal : ℕ) : codegenProjectIdentifier language .typeName
      (numbered ref ordinal) = stem ++ Nat.toDigits 10 (ordinal % 2 ^ 32) := by
    rw [← keeps (Nat.toDigits 10 (ordinal % 2 ^ 32)) Nat.toDigits_ne_nil fun c member =>
      Nat.isDigit_of_mem_toDigits (by decide) (by decide) member]
    simp [numbered]
  have digits : stem ++ Nat.toDigits 10 ((2 + first) % 2 ^ 32) =
      stem ++ Nat.toDigits 10 ((2 + second) % 2 ^ 32) := by
    unfold compose renderDeclaredTypeName at same
    rw [projected, projected] at same
    split at same
    · exact List.append_cancel_right same
    · exact same
  have numbers := toDigits_injective (List.append_cancel_left digits)
  omega

theorem choose_fresh (language : Language) (ref : DefinitionRef) (exported : List Char)
    (declaredApart : Bool) : NameTable.Fresh (choose language ref exported declaredApart) := by
  intro taken name chosen
  unfold choose at chosen
  dsimp only at chosen
  rcases Option.or_eq_some_iff.mp chosen with found | ⟨_, found⟩
  · simpa using List.find?_some found
  · exact (Library.firstFree_sound found).1

/-- A claim is answered while not every value of the counter can be taken. -/
theorem choose_isSome (language : Language) (ref : DefinitionRef) (exported : List Char)
    (declaredApart : Bool) {taken : List (List Char)} (fewer : taken.length < 2 ^ 32) :
    (choose language ref exported declaredApart taken).isSome := by
  unfold choose
  dsimp only
  rw [Option.isSome_or, Library.firstFree_isSome (fun first firstBelow second secondBelow =>
    compose_numbered_injective firstBelow secondBelow) fewer, Bool.or_true]

private def asRequest (scope : ImportNameScope) (request : Claim) :
    List Char × (List (List Char) → Option (List Char)) :=
  (renderDefinitionKey request.ref,
    choose scope.language request.ref request.exported request.declaredApart)

private theorem claimAll_eq_run (claims : List Claim) :
    ∀ scope : ImportNameScope, scope.claimAll claims =
      (scope.table.run (claims.map scope.asRequest)).map fun ran =>
        (ran.1, { scope with table := ran.2 }) := by
  induction claims with
  | nil => exact fun scope => rfl
  | cons request rest ih =>
      intro scope
      rw [claimAll, List.map_cons, claim]
      simp only [NameTable.run, asRequest]
      rcases scope.table.request (renderDefinitionKey request.ref)
        (choose scope.language request.ref request.exported request.declaredApart) with
        _ | ⟨name, table⟩
      · rfl
      · simp only [Option.map_some, Option.bind_some]
        rw [ih { scope with table := table }]
        simp only [Option.map_map]
        rfl

/-- What holds of the local names given to a sequence of claims. -/
structure Claimed (declared : List (List Char)) (claims : List Claim)
    (given : List (List Char)) (final : ImportNameScope) : Prop where
  length : given.length = claims.length
  /-- One local name for each definition. -/
  apart : ∀ (first second : ℕ) (one other : Claim), claims[first]? = some one →
    claims[second]? = some other → (given[first]? = given[second]? ↔ one.ref = other.ref)
  free : ∀ name ∈ given, name ∉ declared
  kept : ∀ (index : ℕ) (request : Claim), claims[index]? = some request →
    given[index]? = some (final.localName request.ref request.exported)

private theorem claimAll_claimed (language : Language) (declared : List (List Char))
    (claims : List Claim) (named : ∀ request ∈ claims, request.ref.Named) :
    (declared.length + claims.length ≤ 2 ^ 32 →
        ((create language declared).claimAll claims).isSome = true) ∧
      ∀ given final, (create language declared).claimAll claims = some (given, final) →
        Claimed declared claims given final := by
  constructor
  · intro fits
    rw [claimAll_eq_run, Option.isSome_map]
    refine @NameTable.run_isSome _ _ _ (2 ^ 32) _ ?_ _ ?_
    · intro request member used fewer
      obtain ⟨source, _, rfl⟩ := List.mem_map.mp member
      exact choose_isSome _ _ _ _ fewer
    · simpa [create] using fits
  · intro given final answered
    rw [claimAll_eq_run] at answered
    obtain ⟨⟨names, table⟩, ran, same⟩ := Option.map_eq_some_iff.mp answered
    cases same
    have fresh : ∀ request ∈ claims.map (create language declared).asRequest,
        NameTable.Fresh request.2 := by
      intro request member
      obtain ⟨source, _, rfl⟩ := List.mem_map.mp member
      exact choose_fresh _ _ _ _
    have table_given := NameTable.run_given fresh (NameTable.lawful_start declared) ran
    have keyAt {index : ℕ} {request : Claim} (isRequest : claims[index]? = some request) :
        ((claims.map (create language declared).asRequest).map Prod.fst)[index]? =
          some (renderDefinitionKey request.ref) := by
      simp [isRequest, asRequest]
    refine ⟨by simpa using table_given.length, ?_, table_given.free, ?_⟩
    · intro first second one other isOne isOther
      rw [table_given.apart first second _ _ (keyAt isOne) (keyAt isOther)]
      exact ⟨renderDefinitionKey_injective (named one (List.mem_of_getElem? isOne))
        (named other (List.mem_of_getElem? isOther)), fun same => by rw [same]⟩
    · intro index request isRequest
      obtain ⟨name, isGiven, known⟩ := table_given.kept index _ (keyAt isRequest)
      simp [localName, known, isGiven]

end ImportNameScope

/-! ### What a definition holds -/

/-- A section of the definition holds the other one by value. -/
def HeldByValue (definition : DefinitionParts) (ref : DefinitionRef) : Prop :=
  ∃ field ∈ definition.fields, field.composite = some ref ∧ field.view = false

private theorem mem_of_tryEmplace {key : List Char} {ref : DefinitionRef}
    {entry : List Char × DefinitionRef} (entries : List (List Char × DefinitionRef))
    (member : entry ∈ tryEmplace entries key ref) : entry ∈ entries ∨ entry = (key, ref) := by
  induction entries with
  | nil => exact Or.inr (List.mem_singleton.mp member)
  | cons first rest ih =>
      rw [tryEmplace] at member
      split at member
      · exact Or.inl member
      split at member
      · exact (List.mem_cons.mp member).symm
      · rcases List.mem_cons.mp member with rfl | later
        · exact Or.inl List.mem_cons_self
        · exact (ih later).imp_left (List.mem_cons_of_mem _)

private theorem mem_tryEmplace_of_mem {key : List Char} {ref : DefinitionRef}
    {entry : List Char × DefinitionRef} (entries : List (List Char × DefinitionRef))
    (member : entry ∈ entries) : entry ∈ tryEmplace entries key ref := by
  induction entries with
  | nil => cases member
  | cons first rest ih =>
      rw [tryEmplace]
      split
      · exact member
      split
      · exact List.mem_cons_of_mem _ member
      · rcases List.mem_cons.mp member with rfl | later
        · exact List.mem_cons_self
        · exact List.mem_cons_of_mem _ (ih later)

private theorem tryEmplace_key (entries : List (List Char × DefinitionRef)) (key : List Char)
    (ref : DefinitionRef) : ∃ entry ∈ tryEmplace entries key ref, entry.1 = key := by
  induction entries with
  | nil => exact ⟨_, List.mem_singleton_self _, rfl⟩
  | cons first rest ih =>
      rw [tryEmplace]
      split
      · rename_i same
        exact ⟨first, List.mem_cons_self, same.symm⟩
      split
      · exact ⟨_, List.mem_cons_self, rfl⟩
      · obtain ⟨entry, member, isKey⟩ := ih
        exact ⟨entry, List.mem_cons_of_mem _ member, isKey⟩

private structure Gathered (definition : DefinitionParts) (fields : List FieldParts)
    (entries : List (List Char × DefinitionRef)) : Prop where
  keyed : ∀ entry ∈ entries, entry.1 = importOrder entry.2 ∧ HeldByValue definition entry.2
  all : ∀ field ∈ fields, ∀ ref, field.composite = some ref → field.view = false →
    ∃ entry ∈ entries, entry.1 = importOrder ref

private theorem composites_gathered (definition : DefinitionParts) :
    ∃ entries, definition.composites = entries.map Prod.snd ∧
      Gathered definition definition.fields entries := by
  refine ⟨_, rfl, ?_⟩
  have step (fields : List FieldParts) (within : ∀ field ∈ fields, field ∈ definition.fields) :
      Gathered definition fields (fields.foldl
        (fun entries field =>
          match field.composite with
          | some ref => if field.view then entries else tryEmplace entries (importOrder ref) ref
          | none => entries)
        []) := by
    induction fields using List.reverseRecOn with
    | nil => exact ⟨by simp, by simp⟩
    | append_singleton before field ih =>
        obtain ⟨keyed, all⟩ := ih fun other member =>
          within other (List.mem_append_left _ member)
        rw [List.foldl_append, List.foldl_cons, List.foldl_nil]
        generalize before.foldl _ [] = entries at keyed all
        rcases composite : field.composite with _ | ref
        · refine ⟨keyed, fun other member ref isRef => ?_⟩
          rcases List.mem_append.mp member with earlier | last
          · exact all other earlier ref isRef
          · rw [List.mem_singleton.mp last, composite] at isRef
            cases isRef
        · dsimp only
          rcases view : field.view with _ | _
          · have held : HeldByValue definition ref :=
              ⟨field, within field (by simp), composite, view⟩
            refine ⟨fun entry member => ?_, fun other member otherRef isRef byValue => ?_⟩
            · rcases mem_of_tryEmplace entries member with earlier | rfl
              · exact keyed entry earlier
              · exact ⟨rfl, held⟩
            · rcases List.mem_append.mp member with earlier | last
              · obtain ⟨entry, inside, isKey⟩ := all other earlier otherRef isRef byValue
                exact ⟨entry, mem_tryEmplace_of_mem entries inside, isKey⟩
              · rw [List.mem_singleton.mp last, composite] at isRef
                cases isRef
                exact tryEmplace_key entries _ ref
          · refine ⟨keyed, fun other member otherRef isRef byValue => ?_⟩
            rcases List.mem_append.mp member with earlier | last
            · exact all other earlier otherRef isRef byValue
            · rw [List.mem_singleton.mp last, view] at byValue
              cases byValue
  exact step definition.fields fun field member => member

private theorem mem_composites {definition : DefinitionParts}
    (named : ∀ ref, HeldByValue definition ref → ref.Named) (ref : DefinitionRef) :
    ref ∈ definition.composites ↔ HeldByValue definition ref := by
  obtain ⟨entries, isEntries, keyed, all⟩ := composites_gathered definition
  rw [isEntries]
  constructor
  · intro member
    obtain ⟨entry, inside, rfl⟩ := List.mem_map.mp member
    exact (keyed entry inside).2
  · intro held
    obtain ⟨field, member, composite, byValue⟩ := held
    obtain ⟨entry, inside, isKey⟩ := all field member ref composite byValue
    obtain ⟨ordered, entryHeld⟩ := keyed entry inside
    have same := importOrder_injective (named _ entryHeld)
      (named ref ⟨field, member, composite, byValue⟩) (ordered.symm.trans isKey)
    exact List.mem_map.mpr ⟨entry, inside, same⟩

/-! ### What a Go file imports -/

private theorem freeAlias_fresh (used : List (List Char)) (first : List Char) :
    freeAlias used first ∉ used := by
  unfold freeAlias
  split
  · have found := @Library.firstFree_isSome _ _ used
      (fun suffix => first ++ '_' :: Nat.toDigits 10 suffix) (used.length + 1) 1 (by
        intro one _ other _ same
        have digits := List.append_cancel_left same
        have numbers := toDigits_injective (List.cons.inj digits).2
        omega) (Nat.lt_succ_self _)
    obtain ⟨name, isName⟩ := Option.isSome_iff_exists.mp found
    rw [isName]
    exact (Library.firstFree_sound isName).1
  · assumption

/-- The imports of a package, given those of a file. -/
def importsOf (imports : List PackageImport) (path : List Char) : List PackageImport :=
  imports.filter fun declared => packageOf declared.definition = path

private structure Imported (inModule : List (List Char)) (own : List Char)
    (refs : List DefinitionRef) (imports : PackageImports) : Prop where
  met : ∀ path, path ∈ imports.imported ↔
    path ≠ [] ∧ path ≠ own ∧ ∃ ref ∈ refs, packageOf ref = path
  used : imports.used.Nodup
  within : ∀ declared ∈ imports.declared, declared.name ∈ imports.used
  names : (imports.declared.map PackageImport.name).Nodup
  count : ∀ path, path ≠ [] → path ≠ own → (importsOf imports.declared path).length =
    if (refs.find? fun ref => packageOf ref = path).any fun first =>
      renderDefinitionKey first ∈ inModule then 1 else 0

private theorem imported_fold (inModule : List (List Char)) (own : List Char)
    (refs : List DefinitionRef) :
    Imported inModule own refs (refs.foldl (PackageImports.add inModule own) ⟨[], [], []⟩) := by
  induction refs using List.reverseRecOn with
  | nil => exact ⟨by simp, by simp, by simp, by simp, by simp [importsOf]⟩
  | append_singleton before ref ih =>
      rw [List.foldl_append, List.foldl_cons, List.foldl_nil]
      generalize before.foldl _ _ = imports at ih
      obtain ⟨met, used, within, names, count⟩ := ih
      have elsewhere {path : List Char} (different : packageOf ref ≠ path) :
          ((before ++ [ref]).find? fun ref => packageOf ref = path) =
            before.find? fun ref => packageOf ref = path := by
        simp [List.find?_append, different]
      unfold PackageImports.add
      dsimp only
      split
      · rename_i skipped
        have different {path : List Char} (nonempty : path ≠ []) (notOwn : path ≠ own) :
            packageOf ref ≠ path := by
          rintro rfl
          exact skipped.elim nonempty notOwn
        refine ⟨fun path => ?_, used, within, names, fun path nonempty notOwn => ?_⟩
        · rw [met]
          refine and_congr_right fun nonempty => and_congr_right fun notOwn => ?_
          simp [or_and_right, exists_or, different nonempty notOwn]
        · rw [elsewhere (different nonempty notOwn), count path nonempty notOwn]
      · rename_i relevant
        obtain ⟨nonempty, notOwn⟩ := not_or.mp relevant
        have fresh := freeAlias_fresh imports.used (packageAlias ref)
        have unnamed : freeAlias imports.used (packageAlias ref) ∉
            imports.declared.map PackageImport.name := by
          intro member
          obtain ⟨declared, inside, same⟩ := List.mem_map.mp member
          exact fresh (same ▸ within declared inside)
        refine ⟨fun path => ?_, List.nodup_cons.mpr ⟨fresh, used⟩, fun declared member => ?_, ?_,
          fun path pathNonempty pathNotOwn => ?_⟩
        · rw [List.mem_cons, met]
          simp only [List.mem_append, List.mem_singleton, or_and_right, exists_or,
            exists_eq_left]
          constructor
          · rintro (rfl | ⟨some, other, earlier⟩)
            · exact ⟨nonempty, notOwn, Or.inr rfl⟩
            · exact ⟨some, other, Or.inl earlier⟩
          · rintro ⟨some, other, earlier | rfl⟩
            · exact Or.inr ⟨some, other, earlier⟩
            · exact Or.inl rfl
        · split at member
          · rcases List.mem_append.mp member with earlier | last
            · exact List.mem_cons_of_mem _ (within declared earlier)
            · rw [List.mem_singleton.mp last]
              exact List.mem_cons_self
          · exact List.mem_cons_of_mem _ (within declared member)
        · split
          · rw [List.map_append, List.map_singleton, List.nodup_append_comm]
            exact List.nodup_cons.mpr ⟨unnamed, names⟩
          · exact names
        · have counted := count path pathNonempty pathNotOwn
          by_cases here : packageOf ref = path
          · subst here
            by_cases already : packageOf ref ∈ imports.imported
            · have found : (before.find? fun other =>
                  packageOf other = packageOf ref).isSome := by
                obtain ⟨_, _, other, member, same⟩ := (met _).mp already
                exact List.find?_isSome.mpr ⟨other, member, by simpa using same⟩
              rw [if_neg (fun both => both.1 already), List.find?_append,
                Option.or_of_isSome found]
              exact counted
            · have nothing : (before.find? fun other =>
                  packageOf other = packageOf ref) = none := by
                rw [List.find?_eq_none]
                intro other member same
                exact already ((met _).mpr ⟨nonempty, notOwn, other, member, by simpa using same⟩)
              rw [nothing] at counted
              rw [List.find?_append, nothing]
              by_cases inside : renderDefinitionKey ref ∈ inModule
              · rw [if_pos ⟨already, inside⟩]
                simpa [importsOf, inside] using counted
              · rw [if_neg (fun both => inside both.2)]
                simpa [inside] using counted
          · rw [elsewhere here, ← counted]
            split
            · simp [importsOf, here]
            · rfl

/-- The package is another one, and the definition takes something of the module
from it by value. -/
def TakesFrom (inModule : List (List Char)) (definition : DefinitionParts)
    (path : List Char) : Prop :=
  path ≠ [] ∧ path ≠ packageOf definition.ref ∧
    ∃ ref, HeldByValue definition ref ∧ renderDefinitionKey ref ∈ inModule ∧ packageOf ref = path

/-- The file imports once each package the definition takes something of the module
from, all under different names. -/
structure ImportsApart (inModule : List (List Char)) (accessorsOnly : Bool)
    (definition : DefinitionParts) : Prop where
  once : ∀ path, TakesFrom inModule definition path →
    (importsOf (allocateImports inModule accessorsOnly definition) path).length = 1
  names : ((allocateImports inModule accessorsOnly definition).map PackageImport.name).Nodup

/-- The file writes data members, and the first definition it takes from each such
package, in import order, is of the module. -/
def FirstIsOfModule (inModule : List (List Char)) (accessorsOnly : Bool)
    (definition : DefinitionParts) : Prop :=
  ∀ path, TakesFrom inModule definition path → accessorsOnly = false ∧
    ∃ first, (definition.composites.find? fun ref => packageOf ref = path) = some first ∧
      renderDefinitionKey first ∈ inModule

private theorem importsApart_iff (inModule : List (List Char)) (accessorsOnly : Bool)
    {definition : DefinitionParts} (named : ∀ ref, HeldByValue definition ref → ref.Named) :
    ImportsApart inModule accessorsOnly definition ↔
      FirstIsOfModule inModule accessorsOnly definition := by
  cases accessorsOnly with
  | true =>
      have nothing : allocateImports inModule true definition = [] := rfl
      constructor
      · intro apart path takes
        have once := apart.once path takes
        rw [nothing] at once
        cases once
      · intro first
        exact ⟨fun path takes => absurd (first path takes).1 (by decide), by simp [nothing]⟩
  | false =>
      have imports := imported_fold inModule (packageOf definition.ref) definition.composites
      have found {path : List Char} (takes : TakesFrom inModule definition path) :
          ∃ first, (definition.composites.find? fun ref => packageOf ref = path) = some first := by
        obtain ⟨_, _, ref, held, _, isPath⟩ := takes
        exact Option.isSome_iff_exists.mp (List.find?_isSome.mpr
          ⟨ref, (mem_composites named ref).mpr held, by simpa using isPath⟩)
      constructor
      · intro apart path takes
        obtain ⟨first, isFirst⟩ := found takes
        have once := apart.once path takes
        have counted := imports.count path takes.1 takes.2.1
        rw [isFirst] at counted
        refine ⟨rfl, first, isFirst, ?_⟩
        by_contra outside
        rw [if_neg (by simpa using outside)] at counted
        rw [allocateImports, if_neg (by decide), counted] at once
        cases once
      · intro first
        refine ⟨fun path takes => ?_, imports.names⟩
        obtain ⟨_, start, isStart, inside⟩ := first path takes
        have counted := imports.count path takes.1 takes.2.1
        rw [isStart, if_pos (by simpa using inside)] at counted
        exact counted

/-- Claims of local names: every sequence of them that leaves the 32-bit counter room is
answered, one name for each definition, none declared by the file. The packages of a
Go file: each that something of the module is taken from by value is imported once,
all under different names, exactly when the first definition taken from it is of the
module. -/
theorem importNames_apart (language : Language) (declared : List (List Char))
    (claims : List ImportNameScope.Claim) (inModule : List (List Char)) (accessorsOnly : Bool)
    (definition : DefinitionParts) (named : ∀ request ∈ claims, request.ref.Named)
    (heldNamed : ∀ ref, HeldByValue definition ref → ref.Named) :
    ((declared.length + claims.length ≤ 2 ^ 32 →
          ((ImportNameScope.create language declared).claimAll claims).isSome = true) ∧
        ∀ given final,
          (ImportNameScope.create language declared).claimAll claims = some (given, final) →
            ImportNameScope.Claimed declared claims given final) ∧
      (ImportsApart inModule accessorsOnly definition ↔
        FirstIsOfModule inModule accessorsOnly definition) :=
  ⟨ImportNameScope.claimAll_claimed language declared claims named,
    importsApart_iff inModule accessorsOnly heldNamed⟩

private def absent : DefinitionRef := ⟨[['q']], ['A'], 1, 0⟩

private def present : DefinitionRef := ⟨[['q']], ['B'], 1, 0⟩

private def holder : DefinitionParts where
  ref := ⟨[['p']], ['D'], 1, 0⟩
  request := ⟨[⟨some absent, false⟩, ⟨some present, false⟩]⟩
  response := none

private theorem holder_held (ref : DefinitionRef) :
    HeldByValue holder ref ↔ ref = absent ∨ ref = present := by
  constructor
  · rintro ⟨field, member, composite, _⟩
    simp only [DefinitionParts.fields, holder, List.append_nil, List.mem_cons, List.not_mem_nil,
      or_false] at member
    rcases member with rfl | rfl
    · exact Or.inl (Option.some.inj composite).symm
    · exact Or.inr (Option.some.inj composite).symm
  · rintro (rfl | rfl)
    · exact ⟨⟨some absent, false⟩, by simp [DefinitionParts.fields, holder], rfl, rfl⟩
    · exact ⟨⟨some present, false⟩, by simp [DefinitionParts.fields, holder], rfl, rfl⟩

private theorem holder_named (ref : DefinitionRef) (held : HeldByValue holder ref) :
    ref.Named := by
  have single (c : Char) (letter : isIdentifierChar c = true) (start : c.isDigit = false) :
      IsWord [c] := ⟨by simp, by simpa using letter, by simpa using start⟩
  intro name member
  rcases (holder_held ref).mp held with rfl | rfl <;>
    · simp only [absent, present, List.singleton_append, List.mem_cons, List.not_mem_nil,
        or_false] at member
      rcases member with rfl | rfl <;> exact single _ (by decide) (by decide)

private def collidingClaims : List ImportNameScope.Claim :=
  [⟨⟨[['a'], ['q']], ['B'], 1, 0⟩, ['B'], false⟩, ⟨⟨[['A'], ['q']], ['B'], 1, 0⟩, ['B'], false⟩,
    ⟨present, ['B'], false⟩, ⟨⟨[['a'], ['q']], ['B'], 1, 0⟩, ['B'], false⟩]

private theorem collidingClaims_named : ∀ request ∈ collidingClaims, request.ref.Named := by
  have letters : collidingClaims.all (fun request =>
      (request.ref.namespaceComponents ++ [request.ref.shortName]).all fun name =>
        name ≠ [] ∧ name.all isIdentifierChar ∧ !name.head?.any Char.isDigit) = true := by
    decide +kernel
  intro request member name inside
  have word := List.all_eq_true.mp (List.all_eq_true.mp letters request member) name inside
  simp only [decide_eq_true_eq] at word
  exact ⟨word.1, fun c among => List.all_eq_true.mp word.2.1 c among, by simpa using word.2.2⟩

/-- `B` is declared: each candidate that is taken leads to the next. -/
theorem importNames_apart_colliding :
    (∃ final, (ImportNameScope.create .rust [['B']]).claimAll collidingClaims =
        some (["QB", "AQB", "B2", "QB"].map String.toList, final) ∧
      ImportNameScope.Claimed [['B']] collidingClaims
        (["QB", "AQB", "B2", "QB"].map String.toList) final) ∧
      (ImportsApart [renderDefinitionKey present] false holder ↔
        FirstIsOfModule [renderDefinitionKey present] false holder) := by
  have ⟨claimed, imports⟩ := importNames_apart .rust [['B']] collidingClaims
    [renderDefinitionKey present] false holder collidingClaims_named holder_named
  have ⟨⟨given, final⟩, found⟩ := Option.isSome_iff_exists.mp (claimed.1 (by decide))
  have names : ((ImportNameScope.create .rust [['B']]).claimAll collidingClaims).map Prod.fst =
      some (["QB", "AQB", "B2", "QB"].map String.toList) := by decide +kernel
  rw [found] at names
  obtain rfl := Option.some.inj names
  exact ⟨⟨final, found, claimed.2 _ _ found⟩, imports⟩

/-- The package is not imported, although `q.B.1.0` is taken from it. -/
theorem package_import_missing :
    ¬∀ inModule definition, (∀ ref, HeldByValue definition ref → ref.Named) →
      ImportsApart inModule false definition := by
  intro apart
  have taken : TakesFrom [renderDefinitionKey present] holder (packageOf present) :=
    ⟨by decide +kernel, by decide +kernel, present, (holder_held present).mpr (Or.inr rfl),
      List.mem_singleton_self _, rfl⟩
  have once := (apart [renderDefinitionKey present] holder holder_named).once _ taken
  revert once
  decide +kernel

end LlvmDsdl.Support
