import LlvmDsdl.Semantics.Model

/-!
Contract: the rules over the versions and port-IDs of a module
(`checkVersionRules`).

Owns: the grouping of versions, the three checks within a group, the port-ID
collisions, the two ranges of port-IDs, and when all of them report nothing.
-/

namespace LlvmDsdl.Semantics

open Frontend

def isStandardRootNamespace (root : String) : Bool :=
  root = "uavcan" || root = "cyphal"

def maxPortId (isService : Bool) : ℕ :=
  if isService then 511 else 8191

/-- A character that `StringRef::trim` removes. -/
def isTrimmed (character : Char) : Bool :=
  character = ' ' || (9 ≤ character.toNat && character.toNat ≤ 13)

def trimmed (text : String) : String :=
  String.ofList ((text.toList.dropWhile isTrimmed).rdropWhile isTrimmed)

def isValidRegulatedPortId (portId : ℕ) (isService : Bool) (rootNamespace : String) : Bool :=
  let standard := isStandardRootNamespace (trimmed rootNamespace)
  if isService then
    (if standard then 384 else 256) ≤ portId && portId ≤ (if standard then 511 else 383)
  else
    (if standard then 7168 else 6144) ≤ portId && portId ≤ (if standard then 8191 else 7167)

/-- The first component of a definition's namespace, or of its full name. -/
def rootNamespaceOf (info : DiscoveredDefinition) : String :=
  match info.namespaceComponents with
  | root :: _ => root
  | [] => ((info.fullName.splitOn ".").head?).getD ""

def kindName (isService : Bool) : String :=
  if isService then "service" else "message"

/-- The first character of a definition's file. -/
def fileStart (definition : SemanticDefinition) : SourceLocation :=
  ⟨definition.info.filePath, 1, 1⟩

def versionError (definition : SemanticDefinition) (message : String) : Diagnostic :=
  ⟨.error, fileStart definition, message, none⟩

def errorWhen (condition : Bool) (definition : SemanticDefinition) (message : String) :
    List Diagnostic :=
  if condition then [versionError definition message] else []

/-- The versions of one full name and major version. -/
structure GroupKey where
  name : String
  major : ℕ
  deriving DecidableEq

def groupKeyOf (definition : SemanticDefinition) : GroupKey :=
  ⟨definition.info.fullName, definition.info.majorVersion⟩

def GroupKey.le (lhs rhs : GroupKey) : Bool :=
  lhs.name < rhs.name || (lhs.name == rhs.name && lhs.major ≤ rhs.major)

def groupKeys (definitions : SemanticModule) : List GroupKey :=
  (definitions.map groupKeyOf).dedup.insertionSort fun lhs rhs => lhs.le rhs

def MinorLe (lhs rhs : SemanticDefinition) : Prop :=
  lhs.info.minorVersion ≤ rhs.info.minorVersion

instance : DecidableRel MinorLe :=
  fun lhs rhs => Nat.decLe lhs.info.minorVersion rhs.info.minorVersion

instance : Std.Total MinorLe := ⟨fun _ _ => Nat.le_total _ _⟩

instance : IsTrans SemanticDefinition MinorLe := ⟨fun _ _ _ => Nat.le_trans⟩

def groupMembers (definitions : SemanticModule) (key : GroupKey) : SemanticModule :=
  (definitions.filter fun definition => groupKeyOf definition = key).insertionSort MinorLe

def checkAgainstLowest (lowest definition : SemanticDefinition) : List Diagnostic :=
  errorWhen (definition.request.sealed ≠ lowest.request.sealed) definition
      "all minor versions under same major must share sealing status" ++
    errorWhen (definition.request.extentBits.getD 0 ≠ lowest.request.extentBits.getD 0) definition
      "all minor versions under same major must share extent"

/-- The compatibility of the versions under one major version above zero. -/
def checkCompatibility : SemanticModule → List Diagnostic
  | [] => []
  | lowest :: rest =>
      if lowest.info.majorVersion > 0 then
        (lowest :: rest).flatMap (checkAgainstLowest lowest)
      else []

/-- The fixed port-IDs of the versions of a group, from the last one seen. -/
def checkFixedPorts : SemanticModule → Option ℕ → List Diagnostic
  | [], _ => []
  | definition :: rest, lastFixed =>
      match definition.info.fixedPortId, lastFixed with
      | none, none => checkFixedPorts rest none
      | none, some last =>
          versionError definition "fixed port-ID cannot be removed under same major version" ::
            checkFixedPorts rest (some last)
      | some port, none => checkFixedPorts rest (some port)
      | some port, some last =>
          errorWhen (last ≠ port) definition "fixed port-ID mismatch under same major version" ++
            checkFixedPorts rest (some port)

def checkGroup (members : SemanticModule) : List Diagnostic :=
  checkCompatibility members ++ checkFixedPorts members none

/-- Two definitions that may not hold one port-ID. -/
def collides (first second : SemanticDefinition) : Bool :=
  match first.info.fixedPortId, second.info.fixedPortId with
  | some left, some right =>
      first.isService == second.isService && groupKeyOf first ≠ groupKeyOf second &&
        left == right && first.info.majorVersion > 0 && second.info.majorVersion > 0
  | _, _ => false

/-- Port-ID collisions of unrelated types of one kind. -/
def checkCollisions : SemanticModule → List Diagnostic
  | [] => []
  | first :: rest =>
      rest.flatMap (fun second => errorWhen (collides first second) second
        ("fixed port-ID collision with " ++ first.info.filePath)) ++ checkCollisions rest

def checkPortWidth (definition : SemanticDefinition) : List Diagnostic :=
  match definition.info.fixedPortId with
  | none => []
  | some port =>
      errorWhen (maxPortId definition.isService < port) definition
        ("fixed port-ID " ++ toString port ++ " for " ++ kindName definition.isService ++ " type " ++
          definition.info.fullName ++ " exceeds the maximum of " ++
          toString (maxPortId definition.isService))

/-- A port-ID already reported as too wide is not reported again. -/
def checkRegulated (definition : SemanticDefinition) : List Diagnostic :=
  match definition.info.fixedPortId with
  | none => []
  | some port =>
      errorWhen (port ≤ maxPortId definition.isService &&
          !isValidRegulatedPortId port definition.isService (rootNamespaceOf definition.info))
        definition
        ("regulated port-ID " ++ toString port ++ " for " ++ kindName definition.isService ++
          " type " ++ definition.info.fullName ++
          " is not valid; use --allow-unregulated-fixed-port-id to override")

def checkVersionRules (allowUnregulatedFixedPortId : Bool) (definitions : SemanticModule) :
    List Diagnostic :=
  (groupKeys definitions).flatMap (fun key => checkGroup (groupMembers definitions key)) ++
    checkCollisions definitions ++ definitions.flatMap checkPortWidth ++
    (if allowUnregulatedFixedPortId then [] else definitions.flatMap checkRegulated)

theorem errorWhen_severity {condition : Bool} {definition : SemanticDefinition} {message : String}
    {diagnostic : Diagnostic} (member : diagnostic ∈ errorWhen condition definition message) :
    diagnostic.severity = .error := by
  cases condition with
  | false => cases member
  | true =>
      rw [List.mem_singleton.mp member]
      rfl

theorem checkFixedPorts_severity {members : SemanticModule} {last : Option ℕ}
    {diagnostic : Diagnostic} (member : diagnostic ∈ checkFixedPorts members last) :
    diagnostic.severity = .error := by
  induction members generalizing last with
  | nil => cases member
  | cons definition rest ih =>
      rw [checkFixedPorts.eq_def] at member
      dsimp only at member
      cases port : definition.info.fixedPortId with
      | none =>
          cases last with
          | none =>
              rw [port] at member
              exact ih member
          | some fixed =>
              rw [port] at member
              rcases List.mem_cons.mp member with same | later
              · rw [same]
                rfl
              · exact ih later
      | some current =>
          cases last with
          | none =>
              rw [port] at member
              exact ih member
          | some fixed =>
              rw [port] at member
              rcases List.mem_append.mp member with here | later
              · exact errorWhen_severity here
              · exact ih later

theorem checkGroup_severity {members : SemanticModule} {diagnostic : Diagnostic}
    (member : diagnostic ∈ checkGroup members) : diagnostic.severity = .error := by
  rcases List.mem_append.mp member with compatible | ports
  · cases members with
    | nil => cases compatible
    | cons lowest rest =>
        rw [checkCompatibility] at compatible
        split at compatible
        · have ⟨definition, _, found⟩ := List.mem_flatMap.mp compatible
          rcases List.mem_append.mp found with here | here <;> exact errorWhen_severity here
        · cases compatible
  · exact checkFixedPorts_severity ports

theorem checkCollisions_severity {definitions : SemanticModule} {diagnostic : Diagnostic}
    (member : diagnostic ∈ checkCollisions definitions) : diagnostic.severity = .error := by
  induction definitions with
  | nil => cases member
  | cons first rest ih =>
      rcases List.mem_append.mp member with here | later
      · have ⟨second, _, found⟩ := List.mem_flatMap.mp here
        exact errorWhen_severity found
      · exact ih later

theorem checkPortWidth_severity {definition : SemanticDefinition} {diagnostic : Diagnostic}
    (member : diagnostic ∈ checkPortWidth definition) : diagnostic.severity = .error := by
  rw [checkPortWidth] at member
  split at member
  · cases member
  · exact errorWhen_severity member

theorem checkRegulated_severity {definition : SemanticDefinition} {diagnostic : Diagnostic}
    (member : diagnostic ∈ checkRegulated definition) : diagnostic.severity = .error := by
  rw [checkRegulated] at member
  split at member
  · cases member
  · exact errorWhen_severity member

theorem checkVersionRules_severity {allow : Bool} {definitions : SemanticModule}
    {diagnostic : Diagnostic} (member : diagnostic ∈ checkVersionRules allow definitions) :
    diagnostic.severity = .error := by
  rw [checkVersionRules] at member
  rcases List.mem_append.mp member with checked | regulated
  · rcases List.mem_append.mp checked with grouped | width
    · rcases List.mem_append.mp grouped with group | collision
      · have ⟨key, _, found⟩ := List.mem_flatMap.mp group
        exact checkGroup_severity found
      · exact checkCollisions_severity collision
    · have ⟨definition, _, found⟩ := List.mem_flatMap.mp width
      exact checkPortWidth_severity found
  · cases allow with
    | true => cases regulated
    | false =>
        have ⟨definition, _, found⟩ := List.mem_flatMap.mp regulated
        exact checkRegulated_severity found

/-- The request sections of two versions agree on sealing and on extent. -/
def RequestsAgree (first second : SemanticDefinition) : Prop :=
  first.request.sealed = second.request.sealed ∧
    first.request.extentBits.getD 0 = second.request.extentBits.getD 0

/-- A later version keeps the port-ID of an earlier one. -/
def KeepsPort (earlier later : SemanticDefinition) : Prop :=
  ∀ port, earlier.info.fixedPortId = some port → later.info.fixedPortId = some port

structure VersionRulesHold (allow : Bool) (definitions : SemanticModule) : Prop where
  compatible : ∀ first ∈ definitions, ∀ second ∈ definitions,
    groupKeyOf first = groupKeyOf second → 0 < first.info.majorVersion →
      RequestsAgree first second
  ports : ∀ first ∈ definitions, ∀ second ∈ definitions, groupKeyOf first = groupKeyOf second →
    first.info.minorVersion < second.info.minorVersion → KeepsPort first second
  separate : ∀ first ∈ definitions, ∀ second ∈ definitions, collides first second = false
  width : ∀ definition ∈ definitions, checkPortWidth definition = []
  regulated : allow = false → ∀ definition ∈ definitions, checkRegulated definition = []

theorem errorWhen_eq_nil {condition : Bool} {definition : SemanticDefinition} {message : String} :
    errorWhen condition definition message = [] ↔ condition = false := by
  cases condition <;> simp [errorWhen]

theorem checkAgainstLowest_eq_nil {lowest definition : SemanticDefinition} :
    checkAgainstLowest lowest definition = [] ↔ RequestsAgree definition lowest := by
  rw [checkAgainstLowest, List.append_eq_nil_iff, errorWhen_eq_nil, errorWhen_eq_nil]
  simp [RequestsAgree]

theorem checkFixedPorts_eq_nil {members : SemanticModule} {last : Option ℕ} :
    checkFixedPorts members last = [] ↔
      (∀ port, last = some port → ∀ definition ∈ members,
        definition.info.fixedPortId = some port) ∧ members.Pairwise KeepsPort := by
  induction members generalizing last with
  | nil => simp [checkFixedPorts]
  | cons definition rest ih =>
      rw [checkFixedPorts.eq_def, List.pairwise_cons]
      cases port : definition.info.fixedPortId with
      | none =>
          cases last with
          | none => simp [ih, KeepsPort, port]
          | some fixed => simp [port]
      | some current =>
          cases last with
          | none => simp [ih, KeepsPort, port]
          | some fixed =>
              simp only [List.append_eq_nil_iff, errorWhen_eq_nil, ih, KeepsPort,
                port, Option.some.injEq, forall_eq', List.forall_mem_cons]
              constructor
              · intro given
                have same : fixed = current := by simpa using given.1
                subst same
                exact ⟨⟨rfl, given.2.1⟩, given.2.1, given.2.2⟩
              · intro given
                have same : current = fixed := given.1.1
                subst same
                exact ⟨by simp, given.2.1, given.2.2⟩

/-- Two definitions collide exactly when they share a kind and a port-ID, are versions of
different types or majors, and are both past major version zero. -/
theorem collides_iff {first second : SemanticDefinition} :
    collides first second = true ↔
      (∃ port, first.info.fixedPortId = some port ∧ second.info.fixedPortId = some port) ∧
        first.isService = second.isService ∧ groupKeyOf first ≠ groupKeyOf second ∧
        0 < first.info.majorVersion ∧ 0 < second.info.majorVersion := by
  rw [collides]
  cases first.info.fixedPortId with
  | none => simp
  | some left =>
      cases second.info.fixedPortId with
      | none => simp
      | some right =>
          simp only [Bool.and_eq_true, beq_iff_eq, decide_eq_true_eq, Option.some.injEq,
            exists_eq_left', gt_iff_lt]
          constructor
          · intro given
            exact ⟨given.1.1.2.symm, given.1.1.1.1, given.1.1.1.2, given.1.2, given.2⟩
          · intro given
            exact ⟨⟨⟨⟨given.2.1, given.2.2.1⟩, given.1.symm⟩, given.2.2.2.1⟩, given.2.2.2.2⟩

theorem collides_comm {first second : SemanticDefinition}
    (apart : collides first second = false) : collides second first = false := by
  rw [Bool.eq_false_iff] at apart ⊢
  intro collision
  have ⟨⟨port, left, right⟩, kinds, names, above, above'⟩ := collides_iff.mp collision
  exact apart (collides_iff.mpr
    ⟨⟨port, right, left⟩, kinds.symm, fun same => names same.symm, above', above⟩)

theorem collides_self (definition : SemanticDefinition) :
    collides definition definition = false := by
  rw [collides]
  cases definition.info.fixedPortId <;> simp

theorem checkCollisions_eq_nil {definitions : SemanticModule} :
    checkCollisions definitions = [] ↔
      ∀ first ∈ definitions, ∀ second ∈ definitions, collides first second = false := by
  have pairs : checkCollisions definitions = [] ↔
      definitions.Pairwise fun first second => collides first second = false := by
    induction definitions with
    | nil => simp [checkCollisions]
    | cons first rest ih =>
        rw [checkCollisions, List.append_eq_nil_iff, ih, List.pairwise_cons]
        simp [List.flatMap_eq_nil_iff, errorWhen_eq_nil]
  rw [pairs]
  constructor
  · intro separate first firstMember second secondMember
    have symmetric : Std.Symm fun first second => collides first second = false :=
      ⟨fun _ _ apart => collides_comm apart⟩
    exact separate.forall_of_forall (fun definition _ => collides_self definition) firstMember
      secondMember
  · intro separate
    exact List.pairwise_of_forall_mem_list separate

theorem mem_groupKeys {definitions : SemanticModule} {key : GroupKey} :
    key ∈ groupKeys definitions ↔ ∃ definition ∈ definitions, groupKeyOf definition = key := by
  rw [groupKeys, List.mem_insertionSort, List.mem_dedup, List.mem_map]

theorem mem_groupMembers {definitions : SemanticModule} {key : GroupKey}
    {definition : SemanticDefinition} :
    definition ∈ groupMembers definitions key ↔
      definition ∈ definitions ∧ groupKeyOf definition = key := by
  rw [groupMembers, List.mem_insertionSort, List.mem_filter, decide_eq_true_iff]

/-- The members of a group stand in order of their minor versions. -/
theorem groupMembers_sorted (definitions : SemanticModule) (key : GroupKey) :
    (groupMembers definitions key).Pairwise MinorLe := by
  rw [groupMembers]
  exact List.pairwise_insertionSort MinorLe _

theorem checkCompatibility_eq_nil {members : SemanticModule} {key : GroupKey}
    (grouped : ∀ definition ∈ members, groupKeyOf definition = key) :
    checkCompatibility members = [] ↔
      (0 < key.major → ∀ first ∈ members, ∀ second ∈ members, RequestsAgree first second) := by
  cases members with
  | nil => simp [checkCompatibility]
  | cons lowest rest =>
      have major : lowest.info.majorVersion = key.major :=
        congrArg GroupKey.major (grouped lowest List.mem_cons_self)
      rw [checkCompatibility, major]
      by_cases above : 0 < key.major
      · rw [if_pos above, List.flatMap_eq_nil_iff]
        constructor
        · intro agree _ first firstMember second secondMember
          have left := checkAgainstLowest_eq_nil.mp (agree first firstMember)
          have right := checkAgainstLowest_eq_nil.mp (agree second secondMember)
          exact ⟨left.1.trans right.1.symm, left.2.trans right.2.symm⟩
        · intro agree definition member
          exact checkAgainstLowest_eq_nil.mpr (agree above definition member lowest
            List.mem_cons_self)
      · rw [if_neg above]
        simp [above]

/-- Among versions of different minors, the scan over a group compares every two of them. -/
theorem checkGroupPorts_eq_nil {definitions : SemanticModule} (key : GroupKey)
    (distinct : (definitions.map fun definition => definition.info.typeKey).Nodup) :
    checkFixedPorts (groupMembers definitions key) none = [] ↔
      ∀ first ∈ groupMembers definitions key, ∀ second ∈ groupMembers definitions key,
        first.info.minorVersion < second.info.minorVersion → KeepsPort first second := by
  rw [checkFixedPorts_eq_nil]
  have sorted := groupMembers_sorted definitions key
  have apart : (groupMembers definitions key).Pairwise fun lhs rhs =>
      lhs.info.minorVersion ≠ rhs.info.minorVersion := by
    have distinctMembers : (groupMembers definitions key).Pairwise fun lhs rhs =>
        lhs.info.typeKey ≠ rhs.info.typeKey := by
      have filtered := (List.pairwise_map.mp distinct).sublist
        (List.filter_sublist (p := fun definition => groupKeyOf definition = key))
      exact filtered.perm (List.perm_insertionSort _ _).symm fun given same => given same.symm
    refine distinctMembers.imp_of_mem ?_
    intro lhs rhs left right differ same
    have leftKey := (mem_groupMembers.mp left).2
    have rightKey := (mem_groupMembers.mp right).2
    have groups : groupKeyOf lhs = groupKeyOf rhs := leftKey.trans rightKey.symm
    have names : lhs.info.fullName = rhs.info.fullName := congrArg GroupKey.name groups
    have majors : lhs.info.majorVersion = rhs.info.majorVersion := congrArg GroupKey.major groups
    apply differ
    simp only [DiscoveredDefinition.typeKey, names, majors, same]
  have strict := sorted.and apart
  constructor
  · intro given first firstMember second secondMember
    have either : (groupMembers definitions key).Pairwise fun lhs rhs =>
        (lhs.info.minorVersion < rhs.info.minorVersion → KeepsPort lhs rhs) ∧
          (rhs.info.minorVersion < lhs.info.minorVersion → KeepsPort rhs lhs) := by
      refine List.Pairwise.imp₂ ?_ given.2 strict
      intro lhs rhs keeps order
      exact ⟨fun _ => keeps, fun lower => absurd lower (Nat.not_lt.mpr order.1)⟩
    have symmetric : Std.Symm fun lhs rhs : SemanticDefinition =>
        (lhs.info.minorVersion < rhs.info.minorVersion → KeepsPort lhs rhs) ∧
          (rhs.info.minorVersion < lhs.info.minorVersion → KeepsPort rhs lhs) :=
      ⟨fun _ _ both => ⟨both.2, both.1⟩⟩
    have reflexive : ∀ member ∈ groupMembers definitions key,
        (member.info.minorVersion < member.info.minorVersion → KeepsPort member member) ∧
          (member.info.minorVersion < member.info.minorVersion → KeepsPort member member) :=
      fun member _ => ⟨fun lower => absurd lower (Nat.lt_irrefl _),
        fun lower => absurd lower (Nat.lt_irrefl _)⟩
    exact (either.forall_of_forall reflexive firstMember secondMember).1
  · intro keeps
    have noPort : ∀ port, none = some port → ∀ definition ∈ groupMembers definitions key,
        definition.info.fixedPortId = some port := by
      intro port absent
      cases absent
    refine ⟨noPort, strict.imp_of_mem ?_⟩
    intro lhs rhs left right order
    exact keeps lhs left rhs right (Nat.lt_of_le_of_ne order.1 order.2)

theorem checkGroup_eq_nil {definitions : SemanticModule} (key : GroupKey)
    (distinct : (definitions.map fun definition => definition.info.typeKey).Nodup) :
    checkGroup (groupMembers definitions key) = [] ↔
      ∀ first ∈ definitions, ∀ second ∈ definitions, groupKeyOf first = key →
        groupKeyOf second = key →
          (0 < key.major → RequestsAgree first second) ∧
            (first.info.minorVersion < second.info.minorVersion → KeepsPort first second) := by
  rw [checkGroup, List.append_eq_nil_iff, checkGroupPorts_eq_nil key distinct,
    checkCompatibility_eq_nil fun definition member => (mem_groupMembers.mp member).2]
  simp only [mem_groupMembers]
  constructor
  · intro given first firstMember second secondMember firstKey secondKey
    exact ⟨fun above => given.1 above first ⟨firstMember, firstKey⟩ second
      ⟨secondMember, secondKey⟩, given.2 first ⟨firstMember, firstKey⟩ second
      ⟨secondMember, secondKey⟩⟩
  · intro given
    exact ⟨fun above first left second right => (given first left.1 second right.1 left.2
      right.2).1 above, fun first left second right => (given first left.1 second right.1 left.2
      right.2).2⟩

/-- **The version rules report nothing exactly when they hold**, for definitions of
different versions. -/
theorem checkVersionRules_eq_nil {allow : Bool} {definitions : SemanticModule}
    (distinct : (definitions.map fun definition => definition.info.typeKey).Nodup) :
    checkVersionRules allow definitions = [] ↔ VersionRulesHold allow definitions := by
  have groups : (groupKeys definitions).flatMap
      (fun key => checkGroup (groupMembers definitions key)) = [] ↔
      ∀ first ∈ definitions, ∀ second ∈ definitions, groupKeyOf first = groupKeyOf second →
        (0 < first.info.majorVersion → RequestsAgree first second) ∧
          (first.info.minorVersion < second.info.minorVersion → KeepsPort first second) := by
    rw [List.flatMap_eq_nil_iff]
    constructor
    · intro clean first firstMember second secondMember same
      have key := mem_groupKeys.mpr ⟨first, firstMember, rfl⟩
      exact (checkGroup_eq_nil _ distinct).mp (clean _ key) first firstMember second secondMember
        rfl same.symm
    · intro given key _
      refine (checkGroup_eq_nil key distinct).mpr ?_
      intro first firstMember second secondMember firstKey secondKey
      rw [← firstKey]
      exact given first firstMember second secondMember (firstKey.trans secondKey.symm)
  have regulated : (if allow then [] else definitions.flatMap checkRegulated) = [] ↔
      (allow = false → ∀ definition ∈ definitions, checkRegulated definition = []) := by
    cases allow <;> simp [List.flatMap_eq_nil_iff]
  rw [checkVersionRules, List.append_eq_nil_iff, List.append_eq_nil_iff, List.append_eq_nil_iff,
    groups, checkCollisions_eq_nil, List.flatMap_eq_nil_iff, regulated]
  constructor
  · intro given
    exact ⟨fun first left second right same => (given.1.1.1 first left second right same).1,
      fun first left second right same => (given.1.1.1 first left second right same).2,
      given.1.1.2, given.1.2, given.2⟩
  · intro holds
    exact ⟨⟨⟨fun first left second right same => ⟨holds.compatible first left second right same,
      holds.ports first left second right same⟩, holds.separate⟩, holds.width⟩, holds.regulated⟩

/-- Without a report, versions of one major version above zero agree on their request
sections. -/
theorem RequestsAgree.of_checkVersionRules {allow : Bool} {definitions : SemanticModule}
    (clean : checkVersionRules allow definitions = []) {first second : SemanticDefinition}
    (firstMember : first ∈ definitions) (secondMember : second ∈ definitions)
    (same : groupKeyOf first = groupKeyOf second) (above : 0 < first.info.majorVersion) :
    RequestsAgree first second := by
  rw [checkVersionRules, List.append_eq_nil_iff, List.append_eq_nil_iff,
    List.append_eq_nil_iff, List.flatMap_eq_nil_iff] at clean
  have group := clean.1.1.1 (groupKeyOf first) (mem_groupKeys.mpr ⟨first, firstMember, rfl⟩)
  have compatible := (List.append_eq_nil_iff.mp group).1
  exact (checkCompatibility_eq_nil fun definition member => (mem_groupMembers.mp member).2).mp
    compatible above first (mem_groupMembers.mpr ⟨firstMember, rfl⟩) second
    (mem_groupMembers.mpr ⟨secondMember, same.symm⟩)

end LlvmDsdl.Semantics
