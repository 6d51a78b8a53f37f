import Mathlib

/-!
Contract: the symbols of definitions and of their functions (`PlanSymbol.cpp`).

Owns: rendering and reading a symbol, and that reading gives back what was rendered.
-/

namespace LlvmDsdl.Support

/-- What an IR function does for the section it belongs to. -/
inductive PlanFunction where
  | serialize
  | deserialize
  | initialise
  | appendWireImage
  | wireImage
  | readWireImage
  | fromWireImage
  | get
  | set
  /-- Serves the bodies: a check or a conversion they call. -/
  | helper
  deriving DecidableEq, Repr

inductive PlanHelperDirection where
  | none
  | serialize
  | deserialize
  deriving DecidableEq, Repr

/-- A definition's identity: its dotted full name and version. -/
structure SchemaSymbol where
  fullName : List Char
  major : ℕ
  minor : ℕ
  deriving DecidableEq, Repr

/-- What a function's symbol says about it. -/
structure PlanSymbol where
  /-- For a helper that serves one plan step, that step's index. -/
  step : Option ℤ
  /-- `request`, `response`, or empty for a message. -/
  sectionName : List Char
  /-- For an accessor, the member. -/
  member : List Char
  helperKind : List Char
  schema : SchemaSymbol
  function : PlanFunction
  direction : PlanHelperDirection
  deriving DecidableEq, Repr

def directionWord : PlanHelperDirection → List Char
  | .none => []
  | .serialize => "ser".toList
  | .deserialize => "deser".toList

def planFunctionWord : PlanFunction → List Char
  | .serialize => "serialize".toList
  | .deserialize => "deserialize".toList
  | .initialise => "initialize".toList
  | .appendWireImage => "append_wire_image".toList
  | .wireImage => "wire_image".toList
  | .readWireImage => "read_wire_image".toList
  | .fromWireImage => "from_wire_image".toList
  | .get => "get".toList
  | .set => "set".toList
  | .helper => "plan".toList

/-- `std::to_string` of a signed number. -/
def stdToString (value : ℤ) : List Char :=
  if value < 0 then '-' :: Nat.toDigits 10 value.natAbs else Nat.toDigits 10 value.natAbs

def renderSchemaSymbol (schema : SchemaSymbol) : List Char :=
  schema.fullName ++ '.' :: stdToString schema.major ++ '.' :: stdToString schema.minor

def renderPlanSymbol (symbol : PlanSymbol) : List Char :=
  let out := renderSchemaSymbol symbol.schema
  let out := if symbol.sectionName ≠ [] then out ++ '.' :: symbol.sectionName else out
  let out := out ++ '.' :: planFunctionWord symbol.function
  match symbol.function with
  | .get | .set => out ++ '.' :: symbol.member
  | .helper =>
      let out := out ++ '.' :: symbol.helperKind
      let out :=
        match symbol.step with
        | none => out
        | some step => out ++ '.' :: stdToString step
      if symbol.direction ≠ .none then out ++ '.' :: directionWord symbol.direction else out
  | _ => out

def allDigits (text : List Char) : Bool :=
  text ≠ [] && text.all Char.isDigit

/-- `getAsInteger` of digits: their value, where the type holds it. -/
def getAsInteger (limit : ℕ) (text : List Char) : Option ℕ :=
  let value := Nat.ofDigitChars 10 text 0
  if value < limit then some value else none

def readVersion (text : List Char) : Option ℕ :=
  if allDigits text then (getAsInteger (2 ^ 64) text).filter (· ≤ 2 ^ 32 - 1) else none

def splitSchema (symbol : List Char) : Option (SchemaSymbol × List (List Char)) :=
  let parts := symbol.splitOn '.'
  let major := parts.findIdx allDigits
  -- A full name has a namespace and a short name; the version follows it.
  if major < 2 ∨ parts.length ≤ major + 1 then none
  else if (parts.take major).any (·.isEmpty) then none
  else
    match readVersion (parts.getD major []), readVersion (parts.getD (major + 1) []) with
    | some majorVersion, some minorVersion =>
        some (⟨['.'].intercalate (parts.take major), majorVersion, minorVersion⟩,
          parts.drop (major + 2))
    | _, _ => none

def parseSchemaSymbol (symbol : List Char) : Option SchemaSymbol :=
  match splitSchema symbol with
  | some (schema, []) => some schema
  | _ => none

/-- The functions whose word ends a symbol. -/
def wholeFunctions : List PlanFunction :=
  [.serialize, .deserialize, .initialise, .appendWireImage, .wireImage, .readWireImage,
    .fromWireImage]

/-- The direction that ends a helper's symbol. -/
def readDirection : List (List Char) → Option PlanHelperDirection
  | [] => some .none
  | [word] =>
      if word = "ser".toList then some .serialize
      else if word = "deser".toList then some .deserialize
      else none
  | _ => none

/-- The step and the direction of a helper, after its kind. -/
def readHelperTail : List (List Char) → Option (Option ℤ × PlanHelperDirection)
  | [] => some (none, .none)
  | part :: rest =>
      if allDigits part then
        match getAsInteger (2 ^ 63) part with
        | none => none
        | some step => (readDirection rest).map fun direction => (some (step : ℤ), direction)
      else (readDirection (part :: rest)).map fun direction => (none, direction)

/-- What the components after the section say. -/
def readFunction (schema : SchemaSymbol) (sectionName : List Char) :
    List (List Char) → Option PlanSymbol
  | [] => none
  | word :: rest =>
      match wholeFunctions.find? (fun function => word = planFunctionWord function) with
      | some function =>
          if rest = [] then some ⟨none, sectionName, [], [], schema, function, .none⟩ else none
      | none =>
          if word = planFunctionWord .get ∨ word = planFunctionWord .set then
            match rest with
            | [member] =>
                if member = [] then none
                else
                  some ⟨none, sectionName, member, [], schema,
                    if word = planFunctionWord .get then .get else .set, .none⟩
            | _ => none
          else if word = planFunctionWord .helper then
            match rest with
            | [] => none
            | kind :: tail =>
                if kind = [] then none
                else
                  (readHelperTail tail).map fun read =>
                    ⟨read.1, sectionName, [], kind, schema, .helper, read.2⟩
          else none

def parsePlanSymbol (symbol : List Char) : Option PlanSymbol :=
  match splitSchema symbol with
  | none => none
  | some (_, []) => none
  | some (schema, first :: rest) =>
      if first = "request".toList ∨ first = "response".toList then readFunction schema first rest
      else readFunction schema [] (first :: rest)

def IsComponent (text : List Char) : Prop :=
  text ≠ [] ∧ '.' ∉ text

/-- At least two components, none of which is all digits, and versions of 32 bits. -/
structure SchemaSymbol.IsIdentity (schema : SchemaSymbol) : Prop where
  components : ∃ components, 2 ≤ components.length ∧
    (∀ component ∈ components, IsComponent component ∧ allDigits component = false) ∧
    schema.fullName = ['.'].intercalate components
  major : schema.major < 2 ^ 32
  minor : schema.minor < 2 ^ 32

/-- What the function says beside itself: an accessor its member, a helper its kind, its
step and its direction, any other function nothing. -/
def PlanSymbol.PartsFit (symbol : PlanSymbol) : Prop :=
  match symbol.function with
  | .get | .set =>
      IsComponent symbol.member ∧ symbol.helperKind = [] ∧ symbol.step = none ∧
        symbol.direction = .none
  | .helper =>
      symbol.member = [] ∧ IsComponent symbol.helperKind ∧
        ∀ step, symbol.step = some step → 0 ≤ step ∧ step < 2 ^ 63
  | _ =>
      symbol.member = [] ∧ symbol.helperKind = [] ∧ symbol.step = none ∧
        symbol.direction = .none

/-- A function of a definition the compiler names. -/
structure PlanSymbol.IsIdentity (symbol : PlanSymbol) : Prop where
  schema : symbol.schema.IsIdentity
  sectionName : symbol.sectionName = [] ∨ symbol.sectionName = "request".toList ∨
    symbol.sectionName = "response".toList
  parts : symbol.PartsFit

/-- The components that follow others, each after its dot. -/
def dotted (parts : List (List Char)) : List Char :=
  parts.flatMap ('.' :: ·)

theorem intercalate_append_dotted {first rest : List (List Char)} (filled : first ≠ []) :
    ['.'].intercalate (first ++ rest) = ['.'].intercalate first ++ dotted rest := by
  have alone : ∀ (component : List Char) (others : List (List Char)),
      ['.'].intercalate (component :: others) = component ++ dotted others := by
    intro component others
    induction others generalizing component with
    | nil => simp [dotted]
    | cons next others ih =>
        rw [List.intercalate_cons_of_ne_nil (by simp), ih]
        simp [dotted]
  obtain ⟨component, others, rfl⟩ := List.exists_cons_of_ne_nil filled
  rw [List.cons_append, alone, alone, dotted, List.flatMap_append, List.append_assoc]
  rfl

theorem stdToString_natCast (value : ℕ) : stdToString value = Nat.toDigits 10 value := by
  rw [stdToString, if_neg (by omega), Int.natAbs_natCast]

theorem allDigits_toDigits (value : ℕ) : allDigits (Nat.toDigits 10 value) = true := by
  have digits : ∀ c ∈ Nat.toDigits 10 value, c.isDigit = true := fun c member =>
    Nat.isDigit_of_mem_toDigits (by decide) (by decide) member
  simpa [allDigits, Nat.toDigits_ne_nil] using digits

theorem isComponent_toDigits (value : ℕ) : IsComponent (Nat.toDigits 10 value) := by
  refine ⟨Nat.toDigits_ne_nil, fun dot => ?_⟩
  have digit := Nat.isDigit_of_mem_toDigits (by decide) (by decide) dot
  cases digit

theorem getAsInteger_toDigits {limit value : ℕ} (fits : value < limit) :
    getAsInteger limit (Nat.toDigits 10 value) = some value := by
  rw [getAsInteger, Nat.ofDigitChars_ten_toDigits]
  exact if_pos fits

theorem readVersion_toDigits {value : ℕ} (fits : value < 2 ^ 32) :
    readVersion (Nat.toDigits 10 value) = some value := by
  rw [readVersion, if_pos (allDigits_toDigits value), getAsInteger_toDigits (by omega)]
  have within : value ≤ 2 ^ 32 - 1 := by omega
  simp only [Option.filter_some, within, decide_true, if_true]

theorem splitSchema_parts {symbol : List Char} {components rest : List (List Char)}
    {major minor : ℕ}
    (parts : symbol.splitOn '.' =
      components ++ Nat.toDigits 10 major :: Nat.toDigits 10 minor :: rest)
    (several : 2 ≤ components.length)
    (named : ∀ component ∈ components, IsComponent component ∧ allDigits component = false)
    (majorFits : major < 2 ^ 32) (minorFits : minor < 2 ^ 32) :
    splitSchema symbol = some (⟨['.'].intercalate components, major, minor⟩, rest) := by
  have position : (components ++ Nat.toDigits 10 major :: Nat.toDigits 10 minor :: rest).findIdx
      allDigits = components.length := by
    have none : components.findIdx allDigits = components.length :=
      List.findIdx_eq_length.mpr fun component member => (named component member).2
    rw [List.findIdx_append, none, if_neg (by omega), List.findIdx_cons, allDigits_toDigits]
    simp
  have filled : components.any (·.isEmpty) = false := by
    rw [List.any_eq_false]
    intro component member
    simpa using (named component member).1.1
  unfold splitSchema
  simp only [parts, position]
  rw [if_neg (by simp; omega), List.take_left' rfl, filled, if_neg (by decide)]
  have majorPart : (components ++ Nat.toDigits 10 major :: Nat.toDigits 10 minor :: rest).getD
      components.length [] = Nat.toDigits 10 major := by simp
  have minorPart : (components ++ Nat.toDigits 10 major :: Nat.toDigits 10 minor :: rest).getD
      (components.length + 1) [] = Nat.toDigits 10 minor := by simp
  have after : (components ++ Nat.toDigits 10 major :: Nat.toDigits 10 minor :: rest).drop
      (components.length + 2) = rest := by simp
  rw [majorPart, minorPart, after, readVersion_toDigits majorFits, readVersion_toDigits minorFits]

theorem splitSchema_render {schema : SchemaSymbol} (identity : schema.IsIdentity)
    {rest : List (List Char)} (components : ∀ part ∈ rest, '.' ∉ part) :
    splitSchema (renderSchemaSymbol schema ++ dotted rest) = some (schema, rest) := by
  obtain ⟨names, several, named, fullName⟩ := identity.components
  have filled : names ≠ [] := List.ne_nil_of_length_pos (by omega)
  let parts := names ++ Nat.toDigits 10 schema.major :: Nat.toDigits 10 schema.minor :: rest
  have text : renderSchemaSymbol schema ++ dotted rest = ['.'].intercalate parts := by
    rw [intercalate_append_dotted filled, renderSchemaSymbol, fullName, stdToString_natCast,
      stdToString_natCast]
    simp [dotted]
  have apart : ∀ part ∈ parts, '.' ∉ part := by
    intro part member
    simp only [parts, List.mem_append, List.mem_cons] at member
    rcases member with name | rfl | rfl | last
    · exact (named part name).1.2
    · exact (isComponent_toDigits _).2
    · exact (isComponent_toDigits _).2
    · exact components part last
  have split : (renderSchemaSymbol schema ++ dotted rest).splitOn '.' = parts := by
    rw [text, List.splitOn_intercalate '.' apart (by simp [parts])]
  rw [splitSchema_parts split several named identity.major identity.minor, ← fullName]

def helperTail (step : Option ℤ) (direction : PlanHelperDirection) : List (List Char) :=
  (step.toList.map stdToString) ++ if direction ≠ .none then [directionWord direction] else []

def functionParts (symbol : PlanSymbol) : List (List Char) :=
  planFunctionWord symbol.function ::
    match symbol.function with
    | .get | .set => [symbol.member]
    | .helper => symbol.helperKind :: helperTail symbol.step symbol.direction
    | _ => []

def sectionParts (symbol : PlanSymbol) : List (List Char) :=
  if symbol.sectionName ≠ [] then [symbol.sectionName] else []

theorem renderPlanSymbol_parts (symbol : PlanSymbol) :
    renderPlanSymbol symbol =
      renderSchemaSymbol symbol.schema ++ dotted (sectionParts symbol ++ functionParts symbol) := by
  have withSection : (if symbol.sectionName ≠ [] then
      renderSchemaSymbol symbol.schema ++ '.' :: symbol.sectionName
      else renderSchemaSymbol symbol.schema) =
        renderSchemaSymbol symbol.schema ++ dotted (sectionParts symbol) := by
    unfold sectionParts
    split <;> simp [dotted]
  have appended : dotted (sectionParts symbol ++ functionParts symbol) =
      dotted (sectionParts symbol) ++ dotted (functionParts symbol) := List.flatMap_append
  unfold renderPlanSymbol
  dsimp only
  rw [withSection, appended, ← List.append_assoc]
  generalize renderSchemaSymbol symbol.schema ++ dotted (sectionParts symbol) = out
  unfold functionParts helperTail
  cases symbol.function
  case helper => cases symbol.step <;> cases symbol.direction <;> simp [dotted]
  all_goals simp [dotted]

theorem dot_not_mem_planFunctionWord (function : PlanFunction) :
    '.' ∉ planFunctionWord function := by
  cases function <;> decide

theorem dot_not_mem_stdToString {step : ℤ} (positive : 0 ≤ step) : '.' ∉ stdToString step := by
  obtain ⟨value, rfl⟩ := Int.eq_ofNat_of_zero_le positive
  rw [stdToString_natCast]
  exact (isComponent_toDigits value).2

theorem dot_not_mem_helperTail {step : Option ℤ} {direction : PlanHelperDirection}
    (range : ∀ value, step = some value → 0 ≤ value ∧ value < 2 ^ 63) :
    ∀ part ∈ helperTail step direction, '.' ∉ part := by
  intro part member
  rw [helperTail, List.mem_append] at member
  rcases member with number | word
  · obtain ⟨value, isStep, rfl⟩ := List.mem_map.mp number
    exact dot_not_mem_stdToString (range value (by simpa using isStep)).1
  · cases direction <;> simp only [ne_eq, not_true_eq_false, if_false, reduceCtorEq,
      not_false_eq_true, if_true, List.not_mem_nil, List.mem_singleton] at word
    all_goals
      subst word
      decide

theorem dot_not_mem_parts {symbol : PlanSymbol} (identity : symbol.IsIdentity) :
    ∀ part ∈ sectionParts symbol ++ functionParts symbol, '.' ∉ part := by
  have parts := identity.parts
  intro part member
  rw [List.mem_append] at member
  rcases member with ofSection | ofFunction
  · unfold sectionParts at ofSection
    rcases identity.sectionName with empty | request | response
    · simp [empty] at ofSection
    · simp only [request] at ofSection
      rw [if_pos (by decide), List.mem_singleton] at ofSection
      subst ofSection
      decide
    · simp only [response] at ofSection
      rw [if_pos (by decide), List.mem_singleton] at ofSection
      subst ofSection
      decide
  · unfold functionParts at ofFunction
    rcases List.mem_cons.mp ofFunction with rfl | later
    · exact dot_not_mem_planFunctionWord _
    · unfold PlanSymbol.PartsFit at parts
      cases function : symbol.function <;> rw [function] at parts later <;>
        simp only [List.not_mem_nil, List.mem_cons, or_false] at later
      case get | set =>
        subst later
        exact parts.1.2
      case helper =>
        rcases later with rfl | inTail
        · exact parts.2.1.2
        · exact dot_not_mem_helperTail parts.2.2 part inTail

theorem readDirection_word (direction : PlanHelperDirection) :
    readDirection (if direction ≠ .none then [directionWord direction] else []) =
      some direction := by
  cases direction <;> decide

theorem readHelperTail_helperTail {step : Option ℤ} {direction : PlanHelperDirection}
    (range : ∀ value, step = some value → 0 ≤ value ∧ value < 2 ^ 63) :
    readHelperTail (helperTail step direction) = some (step, direction) := by
  cases step with
  | none => cases direction <;> decide
  | some value =>
      obtain ⟨positive, fits⟩ := range value rfl
      obtain ⟨number, rfl⟩ := Int.eq_ofNat_of_zero_le positive
      have small : number < 2 ^ 63 := by exact_mod_cast fits
      rw [helperTail, Option.toList_some, List.map_singleton, List.singleton_append,
        stdToString_natCast, readHelperTail, if_pos (allDigits_toDigits number),
        getAsInteger_toDigits small, readDirection_word]
      rfl

theorem find_wholeFunctions (function : PlanFunction) :
    wholeFunctions.find? (fun whole => planFunctionWord function = planFunctionWord whole) =
      if function ∈ wholeFunctions then some function else none := by
  cases function <;> decide

theorem readFunction_functionParts {symbol : PlanSymbol} (parts : symbol.PartsFit) :
    readFunction symbol.schema symbol.sectionName (functionParts symbol) = some symbol := by
  obtain ⟨step, sectionName, member, helperKind, schema, function, direction⟩ := symbol
  have found := find_wholeFunctions function
  cases function
  case get =>
    obtain ⟨component, rfl, rfl, rfl⟩ := parts
    unfold functionParts readFunction
    dsimp only
    rw [found, if_neg (by decide)]
    dsimp only
    rw [if_pos (Or.inl rfl), if_neg component.1, if_pos rfl]
  case set =>
    obtain ⟨component, rfl, rfl, rfl⟩ := parts
    have notGet : planFunctionWord .set ≠ planFunctionWord .get := by decide
    unfold functionParts readFunction
    dsimp only
    rw [found, if_neg (by decide)]
    dsimp only
    rw [if_pos (Or.inr rfl), if_neg component.1, if_neg notGet]
  case helper =>
    obtain ⟨rfl, component, range⟩ := parts
    have neither : ¬(planFunctionWord .helper = planFunctionWord .get ∨
        planFunctionWord .helper = planFunctionWord .set) := by decide
    unfold functionParts readFunction
    dsimp only
    rw [found, if_neg (by decide)]
    dsimp only
    rw [if_neg neither, if_pos rfl, if_neg component.1, readHelperTail_helperTail range,
      Option.map_some]
  all_goals
    obtain ⟨rfl, rfl, rfl, rfl⟩ := parts
    unfold functionParts readFunction
    dsimp only
    rw [found, if_pos (by decide)]
    rfl

theorem planFunctionWord_not_section (function : PlanFunction) :
    ¬(planFunctionWord function = "request".toList ∨
      planFunctionWord function = "response".toList) := by
  cases function <;> decide

theorem sectionParts_cases {symbol : PlanSymbol} (identity : symbol.IsIdentity) :
    sectionParts symbol = [] ∧ symbol.sectionName = [] ∨
      sectionParts symbol = [symbol.sectionName] ∧
        (symbol.sectionName = "request".toList ∨ symbol.sectionName = "response".toList) := by
  have named : symbol.sectionName ≠ [] → sectionParts symbol = [symbol.sectionName] :=
    fun filled => if_pos filled
  rcases identity.sectionName with empty | request | response
  · exact Or.inl ⟨if_neg (not_not.mpr empty), empty⟩
  · exact Or.inr ⟨named (by rw [request]; decide), Or.inl request⟩
  · exact Or.inr ⟨named (by rw [response]; decide), Or.inr response⟩

theorem parsePlanSymbol_renderPlanSymbol {symbol : PlanSymbol} (identity : symbol.IsIdentity) :
    parsePlanSymbol (renderPlanSymbol symbol) = some symbol := by
  have read := readFunction_functionParts identity.parts
  have split := splitSchema_render identity.schema (dot_not_mem_parts identity)
  rw [renderPlanSymbol_parts, parsePlanSymbol, split]
  rcases sectionParts_cases identity with ⟨noParts, empty⟩ | ⟨parts, word⟩
  · have notSection := planFunctionWord_not_section symbol.function
    rw [noParts, List.nil_append]
    rw [empty] at read
    unfold functionParts at read ⊢
    dsimp only
    rw [if_neg notSection, read]
  · rw [parts, List.singleton_append]
    dsimp only
    rw [if_pos word, read]

theorem parseSchemaSymbol_renderSchemaSymbol {schema : SchemaSymbol}
    (identity : schema.IsIdentity) :
    parseSchemaSymbol (renderSchemaSymbol schema) = some schema := by
  have split := @splitSchema_render _ identity [] (by simp)
  rw [dotted, List.flatMap_nil, List.append_nil] at split
  rw [parseSchemaSymbol, split]

theorem parseSchemaSymbol_or_parsePlanSymbol (text : List Char) :
    parseSchemaSymbol text = none ∨ parsePlanSymbol text = none := by
  unfold parseSchemaSymbol parsePlanSymbol
  rcases splitSchema text with _ | ⟨schema, _ | ⟨first, rest⟩⟩
  · exact Or.inl rfl
  · exact Or.inr rfl
  · exact Or.inl rfl

/-- A function's symbol reads back as the function, is no other function's, and is no
definition's, whatever names it is made of. -/
theorem planSymbol_roundTrip {symbol : PlanSymbol} (identity : symbol.IsIdentity) :
    parsePlanSymbol (renderPlanSymbol symbol) = some symbol ∧
      (∀ other : PlanSymbol, other.IsIdentity → renderPlanSymbol other = renderPlanSymbol symbol →
        other = symbol) ∧
      parseSchemaSymbol (renderPlanSymbol symbol) = none ∧
      ∀ schema : SchemaSymbol, schema.IsIdentity →
        parseSchemaSymbol (renderSchemaSymbol schema) = some schema ∧
          parsePlanSymbol (renderSchemaSymbol schema) = none := by
  have read := parsePlanSymbol_renderPlanSymbol identity
  refine ⟨read, fun other otherIdentity same => ?_, ?_, fun schema schemaIdentity => ?_⟩
  · have otherRead := parsePlanSymbol_renderPlanSymbol otherIdentity
    rw [same, read] at otherRead
    exact (Option.some.inj otherRead).symm
  · have apart := parseSchemaSymbol_or_parsePlanSymbol (renderPlanSymbol symbol)
    simpa [read] using apart
  · have schemaRead := parseSchemaSymbol_renderSchemaSymbol schemaIdentity
    have apart := parseSchemaSymbol_or_parsePlanSymbol (renderSchemaSymbol schema)
    exact ⟨schemaRead, by simpa [schemaRead] using apart⟩

/-- A helper of `request.get.1.0` whose kind is a word of the grammar. -/
def helperOfRequest : PlanSymbol :=
  ⟨some 7, "response".toList, [], "ser".toList, ⟨"request.get".toList, 1, 0⟩, .helper, .deserialize⟩

theorem helperOfRequest_isIdentity : helperOfRequest.IsIdentity where
  schema :=
    { components := ⟨["request".toList, "get".toList], by decide, by
        intro component member
        simp only [List.mem_cons, List.not_mem_nil, or_false] at member
        rcases member with rfl | rfl <;> exact ⟨⟨by decide, by decide⟩, by decide⟩, by decide⟩
      major := by decide
      minor := by decide }
  sectionName := Or.inr (Or.inr rfl)
  parts := by
    refine ⟨rfl, ⟨by decide, by decide⟩, fun step isStep => ?_⟩
    cases isStep
    decide

theorem planSymbol_roundTrip_helper :
    helperOfRequest.IsIdentity ∧
      parsePlanSymbol "request.get.1.0.response.plan.ser.7.deser".toList = some helperOfRequest :=
  ⟨helperOfRequest_isIdentity, (planSymbol_roundTrip helperOfRequest_isIdentity).1⟩

end LlvmDsdl.Support
