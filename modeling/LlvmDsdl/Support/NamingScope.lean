import Mathlib
import LlvmDsdl.Library.NameTable
import LlvmDsdl.Support.LegalIdentifiers

/-!
Contract: one region of generated code in which identifiers must not collide
(`NamingScope`).

Owns: how a scope answers declarations, and what holds of the identifiers any
sequence of declarations is given.
-/

namespace LlvmDsdl.Support

open Library (NameTable firstFree)

theorem lawfulBEq_characters : LawfulBEq (List Char) := inferInstance

attribute [local instance] lawfulBEq_characters

def IdentifierRole.number : IdentifierRole → ℕ
  | .typeName => 0
  | .fieldName => 1
  | .constantName => 2
  | .functionName => 3
  | .internalFunctionName => 4
  | .localName => 5
  | .namespaceName => 6
  | .fileStem => 7
  | .macroName => 8

def keyOf (role : IdentifierRole) (sourceName : List Char) : List Char :=
  Nat.toDigits 10 role.number ++ ':' :: sourceName

def CaseStyle.unbroken : CaseStyle → Bool
  | .pascal | .camel | .goExported | .goUnexported | .goPackage => true
  | .preserve | .snake => false

structure NamingScope where
  language : Language
  claimed : List (List Char)
  table : NameTable (List Char) (List Char)

namespace NamingScope

def create (language : Language) (reserved claimed : List (List Char)) : NamingScope :=
  { language := language, claimed := claimed, table := ⟨reserved ++ claimed, []⟩ }

/-- A name the owner claims is escaped, unless it ends in an underscore already. -/
def escapeClaimed (claimed : List (List Char)) (candidate : List Char) : List Char :=
  if candidate ≠ [] ∧ candidate ∈ claimed ∧ candidate.getLast? ≠ some '_' then candidate ++ ['_']
  else candidate

def ordinalJoin (style : CaseStyle) (base : List Char) : List Char :=
  if style.unbroken || base.getLast? = some '_' then [] else ['_']

/-- The base with the ordinal that the 32-bit counter holds. -/
def withOrdinal (style : CaseStyle) (base : List Char) (suffix : ℕ) : List Char :=
  base ++ ordinalJoin style base ++ Nat.toDigits 10 (suffix % 2 ^ 32)

/-- The identifier a declaration takes; none where the search never ends, every
value of its counter being taken. -/
def choose (scope : NamingScope) (role : IdentifierRole) (candidate : List Char)
    (used : List (List Char)) : Option (List Char) :=
  let style := (rolePolicy scope.language role).caseStyle
  let base := escapeClaimed scope.claimed candidate
  if base ∈ used then firstFree used (withOrdinal style base) (2 ^ 32) 2 else some base

def declareAs (scope : NamingScope) (role : IdentifierRole) (sourceName candidate : List Char) :
    Option (List Char × NamingScope) :=
  (scope.table.request (keyOf role sourceName) (scope.choose role candidate)).map fun step =>
    (step.1, { scope with table := step.2 })

def declare (scope : NamingScope) (role : IdentifierRole) (sourceName : List Char) :
    Option (List Char × NamingScope) :=
  scope.declareAs role sourceName (codegenProjectIdentifier scope.language role sourceName)

def get (scope : NamingScope) (role : IdentifierRole) (sourceName : List Char) : List Char :=
  (scope.table.lookup (keyOf role sourceName)).getD
    (codegenProjectIdentifier scope.language role sourceName)

/-- The identifiers given to a sequence of declarations. -/
def declareAll (scope : NamingScope) :
    List (IdentifierRole × List Char) → Option (List (List Char) × NamingScope)
  | [] => some ([], scope)
  | (role, sourceName) :: rest =>
      (scope.declare role sourceName).bind fun step =>
        (step.2.declareAll rest).map fun later => (step.1 :: later.1, later.2)

end NamingScope

namespace NamingScope

private theorem keyOf_injective {role otherRole : IdentifierRole} {name otherName : List Char}
    (same : keyOf role name = keyOf otherRole otherName) : (role, name) = (otherRole, otherName) := by
  have single (role : IdentifierRole) : ∃ digit, Nat.toDigits 10 role.number = [digit] := by
    cases role <;> exact ⟨_, rfl⟩
  unfold keyOf at same
  obtain ⟨digit, isDigit⟩ := single role
  obtain ⟨otherDigit, isOtherDigit⟩ := single otherRole
  rw [isDigit, isOtherDigit] at same
  obtain ⟨rfl, rfl⟩ : digit = otherDigit ∧ name = otherName := by simpa using same
  have sameNumber : Nat.toDigits 10 role.number = Nat.toDigits 10 otherRole.number :=
    isDigit.trans isOtherDigit.symm
  have sameRole : role = otherRole := by
    revert sameNumber
    cases role <;> cases otherRole <;> decide
  rw [sameRole]

theorem withOrdinal_injective {style : CaseStyle} {base : List Char} {first second : ℕ}
    (firstBelow : first < 2 ^ 32) (secondBelow : second < 2 ^ 32)
    (same : withOrdinal style base (2 + first) = withOrdinal style base (2 + second)) :
    first = second := by
  have digits := List.append_cancel_left same
  have numbers := congrArg (Nat.ofDigitChars 10 · 0) digits
  simp only [Nat.ofDigitChars_ten_toDigits] at numbers
  omega

theorem choose_fresh (scope : NamingScope) (role : IdentifierRole) (candidate : List Char) :
    NameTable.Fresh (scope.choose role candidate) := by
  intro used name chosen
  unfold choose at chosen
  dsimp only at chosen
  split at chosen
  · exact (Library.firstFree_sound chosen).1
  · cases chosen
    assumption

/-- The search ends while not every value of the counter can be taken. -/
theorem choose_isSome (scope : NamingScope) (role : IdentifierRole) (candidate : List Char)
    {used : List (List Char)} (fewer : used.length < 2 ^ 32) :
    (scope.choose role candidate used).isSome := by
  unfold choose
  dsimp only
  split
  · exact Library.firstFree_isSome (fun first firstBelow second secondBelow =>
      withOrdinal_injective firstBelow secondBelow) fewer
  · rfl

theorem legal_escapeClaimed {language : Language} {candidate : List Char}
    (legal : Legal language candidate) (claimed : List (List Char)) :
    Legal language (escapeClaimed claimed candidate) := by
  unfold escapeClaimed
  split
  · rename_i isClaimed
    exact legal.append_underscore isClaimed.2.2
  · exact legal

theorem legal_withOrdinal {language : Language} {base : List Char} (legal : Legal language base)
    (style : CaseStyle) (suffix : ℕ) : Legal language (withOrdinal style base suffix) := by
  have joined : Legal language (base ++ ordinalJoin style base) := by
    unfold ordinalJoin
    split
    · rwa [List.append_nil]
    · rename_i apart
      apply legal.append_underscore
      intro ends
      exact apart (by simp [ends])
  exact joined.append_digits Nat.toDigits_ne_nil fun c member =>
    Nat.isDigit_of_mem_toDigits (by decide) (by decide) member

theorem legal_choose {scope : NamingScope} {role : IdentifierRole} {candidate name : List Char}
    (legal : Legal scope.language candidate) {used : List (List Char)}
    (chosen : scope.choose role candidate used = some name) : Legal scope.language name := by
  have base := legal_escapeClaimed legal scope.claimed
  unfold choose at chosen
  dsimp only at chosen
  split at chosen
  · obtain ⟨_, offset, _, rfl⟩ := Library.firstFree_sound chosen
    exact legal_withOrdinal base _ _
  · cases chosen
    exact base

private def asRequest (scope : NamingScope) (request : IdentifierRole × List Char) :
    List Char × (List (List Char) → Option (List Char)) :=
  (keyOf request.1 request.2,
    scope.choose request.1 (codegenProjectIdentifier scope.language request.1 request.2))

private theorem declareAll_eq_run (requests : List (IdentifierRole × List Char)) :
    ∀ scope : NamingScope, scope.declareAll requests =
      (scope.table.run (requests.map scope.asRequest)).map fun ran =>
        (ran.1, { scope with table := ran.2 }) := by
  induction requests with
  | nil => exact fun scope => rfl
  | cons request rest ih =>
      intro scope
      obtain ⟨role, sourceName⟩ := request
      rw [declareAll, List.map_cons, declare, declareAs]
      simp only [NameTable.run, asRequest]
      rcases scope.table.request (keyOf role sourceName)
        (scope.choose role (codegenProjectIdentifier scope.language role sourceName)) with
        _ | ⟨name, table⟩
      · rfl
      · simp only [Option.map_some, Option.bind_some]
        rw [ih { scope with table := table }]
        simp only [Option.map_map]
        rfl

/-- The declaration is of an identifier, and of a name that Rust can use: a type's name, which
becomes `X` when nothing is left of it, or one with a letter or digit. -/
def Names (language : Language) (request : IdentifierRole × List Char) : Prop :=
  ¬IsVerbatimStem language request.1 ∧
    (language = .rust → request.1 = .typeName ∨ request.2.any Char.isAlphanum = true)

private def Suits (language : Language) (key identifier : List Char) : Prop :=
  ∀ request : IdentifierRole × List Char, key = keyOf request.1 request.2 →
    Names language request → Legal language identifier

private theorem requests_suit (scope : NamingScope)
    (requests : List (IdentifierRole × List Char)) :
    ∀ request ∈ requests.map scope.asRequest, ∀ used name, request.2 used = some name →
      Suits scope.language request.1 name := by
  intro request member used name chosen source sameKey names
  obtain ⟨own, _, rfl⟩ := List.mem_map.mp member
  obtain rfl : own = source := keyOf_injective sameKey
  exact legal_choose (legal_codegenProjectIdentifier names.1 names.2) chosen

/-- What holds of the identifiers given to a sequence of declarations. -/
structure Allocated (language : Language) (reserved claimed : List (List Char))
    (requests : List (IdentifierRole × List Char)) (given : List (List Char))
    (final : NamingScope) : Prop where
  length : given.length = requests.length
  /-- One identifier for each role and name. -/
  apart : ∀ (first second : ℕ) (one other : IdentifierRole × List Char),
    requests[first]? = some one → requests[second]? = some other →
      (given[first]? = given[second]? ↔ one = other)
  free : ∀ identifier ∈ given, identifier ∉ reserved ∧ identifier ∉ claimed
  /-- The scope still has the identifier it gave. -/
  kept : ∀ (index : ℕ) (request : IdentifierRole × List Char), requests[index]? = some request →
    given[index]? = some (final.get request.1 request.2)
  legal : ∀ request ∈ requests, Names language request →
    Legal language (final.get request.1 request.2)

/-- Any sequence of declarations that leaves the counter of the search room is
answered: one identifier for each role and name, which it keeps, none that is
reserved or claimed, and all of them legal in the language. -/
theorem declareAll_allocated (language : Language) (reserved claimed : List (List Char))
    (requests : List (IdentifierRole × List Char))
    (fits : reserved.length + claimed.length + requests.length ≤ 2 ^ 32) :
    ∃ given final, (create language reserved claimed).declareAll requests = some (given, final) ∧
      Allocated language reserved claimed requests given final := by
  obtain ⟨scope, isScope⟩ : ∃ scope, scope = create language reserved claimed := ⟨_, rfl⟩
  have fresh : ∀ request ∈ requests.map scope.asRequest, NameTable.Fresh request.2 := by
    intro request member
    obtain ⟨source, _, rfl⟩ := List.mem_map.mp member
    exact choose_fresh scope _ _
  have finds : ∀ request ∈ requests.map scope.asRequest, ∀ used : List (List Char),
      used.length < 2 ^ 32 → (request.2 used).isSome := by
    intro request member used fewer
    obtain ⟨source, _, rfl⟩ := List.mem_map.mp member
    exact choose_isSome scope _ _ fewer
  have room : scope.table.used.length + (requests.map scope.asRequest).length ≤ 2 ^ 32 := by
    simpa [isScope, create] using fits
  have start : NameTable.Lawful (reserved ++ claimed) scope.table := by
    rw [isScope]
    exact NameTable.lawful_start (reserved ++ claimed)
  obtain ⟨⟨given, table⟩, ran⟩ := Option.isSome_iff_exists.mp
    (NameTable.run_isSome _ finds scope.table room)
  have table_given := NameTable.run_given fresh start ran
  have keyAt {index : ℕ} {request : IdentifierRole × List Char}
      (isRequest : requests[index]? = some request) :
      ((requests.map scope.asRequest).map Prod.fst)[index]? =
        some (keyOf request.1 request.2) := by
    simp [isRequest, asRequest]
  have get_eq {request : IdentifierRole × List Char} {identifier : List Char}
      (known : table.lookup (keyOf request.1 request.2) = some identifier) :
      get { scope with table := table } request.1 request.2 = identifier := by
    simp [get, known]
  refine ⟨given, { scope with table := table }, ?_, ?_⟩
  · rw [← isScope, declareAll_eq_run, ran]
    rfl
  refine ⟨by simpa using table_given.length, ?_, ?_, ?_, ?_⟩
  · intro first second one other isOne isOther
    rw [table_given.apart first second _ _ (keyAt isOne) (keyAt isOther)]
    exact ⟨keyOf_injective, fun same => by rw [same]⟩
  · intro identifier member
    simpa [not_or] using table_given.free identifier member
  · intro index request isRequest
    obtain ⟨identifier, isGiven, known⟩ := table_given.kept index _ (keyAt isRequest)
    rw [get_eq known, isGiven]
  · intro request member names
    obtain ⟨index, isRequest⟩ := List.mem_iff_getElem?.mp member
    obtain ⟨identifier, _, known⟩ := table_given.kept index _ (keyAt isRequest)
    rw [get_eq known]
    have sameLanguage : scope.language = language := by rw [isScope]; rfl
    have nothing : ∀ entry ∈ scope.table.assigned, Suits scope.language entry.1 entry.2 := by
      rw [isScope]
      exact fun entry entered => absurd entered List.not_mem_nil
    have suit := NameTable.run_assigned _ (requests_suit scope requests) nothing ran
    rw [sameLanguage] at suit
    exact suit _ (NameTable.lookup_eq_some_mem known) request rfl names

theorem declareAll_allocated_folded :
    ∃ given final, (create .go [['E']] []).declareAll
        [(.fieldName, ['e']), (.fieldName, ['E']), (.fieldName, ['e'])] = some (given, final) ∧
      Allocated .go [['E']] [] [(.fieldName, ['e']), (.fieldName, ['E']), (.fieldName, ['e'])]
        given final :=
  declareAll_allocated .go [['E']] [] _ (by decide)

private theorem declare_exhausted {reserved : List (List Char)} (base : ['a'] ∈ reserved)
    (ordinals : ∀ suffix < 2 ^ 32, ['a', '_'] ++ Nat.toDigits 10 suffix ∈ reserved) :
    ((create .c reserved []).declare .fieldName ['a']).isNone = true := by
  have projection : codegenProjectIdentifier .c .fieldName ['a'] = ['a'] := by decide +kernel
  have nothing : firstFree (reserved ++ []) (withOrdinal .preserve ['a']) (2 ^ 32) 2 = none := by
    rw [← Option.not_isSome_iff_eq_none, Library.firstFree_isSome_iff]
    rintro ⟨offset, _, free⟩
    exact free (List.mem_append_left _ (ordinals _ (Nat.mod_lt _ (by decide))))
  have chosen : (create .c reserved []).choose .fieldName ['a'] (reserved ++ []) = none := by
    have unclaimed : escapeClaimed [] ['a'] = ['a'] := by simp [escapeClaimed]
    have isTaken : ['a'] ∈ reserved ++ [] := List.mem_append_left _ base
    unfold choose create
    dsimp only
    rw [unclaimed, if_pos isTaken]
    exact nothing
  unfold declare declareAs
  rw [show (create .c reserved []).language = .c from rfl, projection, Option.isNone_map]
  unfold NameTable.request
  rw [show (create .c reserved []).table.lookup (keyOf .fieldName ['a']) = none from rfl,
    show (create .c reserved []).table.used = reserved ++ [] from rfl, chosen]
  rfl

/-- A file stem of C is not made an identifier: the file of `while` is named by a
keyword. And the search for a name ends nowhere once every value of its 32-bit
counter is taken. -/
theorem file_stem_stays_keyword :
    (∃ given final, (create .c [] []).declareAll [(.fileStem, "while".toList)] =
        some (given, final) ∧ "while".toList ∈ given ∧ "while".toList ∈ keywordSet .c) ∧
      ∃ reserved, ((create .c reserved []).declare .fieldName ['a']).isNone = true := by
  refine ⟨⟨_, _, rfl, ?_, ?_⟩,
    ['a'] :: (List.range (2 ^ 32)).map fun suffix => ['a', '_'] ++ Nat.toDigits 10 suffix,
    declare_exhausted List.mem_cons_self fun suffix below =>
      List.mem_cons_of_mem _ (List.mem_map_of_mem (List.mem_range.mpr below))⟩
  · decide +kernel
  · decide +kernel

end NamingScope

end LlvmDsdl.Support
