import LlvmDsdl.Library.Certificates
import LlvmDsdl.Semantics.AliasLayout

/-!
Contract: layout verdicts that hold, and why.

Owns: the proof that both walks hold on nested sections that hold, and that the
verdicts on record hold exactly where there is a certificate.
-/

namespace LlvmDsdl.Semantics

open Frontend Library Library.TaskSystem

/-! ### The wire walk -/

/-- A verdict that holds. -/
def isFlat (verdict : AliasLayoutVerdict) : Prop := verdict.holds = true

/-- A walk that went through, or ended early with a verdict that holds. -/
def accepts {α : Type} : Except AliasLayoutVerdict α → Prop
  | .ok _ => True
  | .error verdict => isFlat verdict

/-- A walk that ended early ended with a verdict that does not hold. -/
def refuses {α : Type} (result : Except AliasLayoutVerdict α) : Prop :=
  accepts result → ∃ cursor, result = .ok cursor

theorem refuses_ok {α : Type} (cursor : α) : refuses (.ok cursor) := fun _ => ⟨cursor, rfl⟩

theorem not_accepts {α : Type} {verdict : AliasLayoutVerdict} (fails : verdict.holds = false) :
    ¬ accepts (.error verdict : Except AliasLayoutVerdict α) := by
  intro holds
  rw [accepts, isFlat, fails] at holds
  cases holds

theorem refuses_error {α : Type} {verdict : AliasLayoutVerdict} (fails : verdict.holds = false) :
    refuses (.error verdict : Except AliasLayoutVerdict α) :=
  fun holds => absurd holds (not_accepts fails)

/-- The section a composite field stands for, if it can be found. -/
def nestedOf (find : TypeKey → Option SemanticSection) (field : SemanticField) :
    Option (SemanticTypeRef × SemanticSection) :=
  field.resolvedType.compositeType.bind fun ref =>
    (find ref.typeKey).map fun nested => (ref, nested)

section Wire

variable {find : TypeKey → Option SemanticSection} {answers : TypeKey → AliasLayoutVerdict}

theorem flatComposite_of_nested {field : SemanticField} {cursor : FlatCursor}
    {ref : SemanticTypeRef} {nested : SemanticSection}
    (found : nestedOf find field = some (ref, nested)) :
    flatComposite find field cursor = .ask ref.typeKey fun verdict =>
      if verdict.holds then
        .done (.ok (cursor.place
          (wrappingMul nested.maxBitLength (elementCount field.resolvedType))))
      else .done (.error (nestedNotFlat field.name ref verdict)) := by
  rw [nestedOf] at found
  have ⟨ref', isComposite, isFound⟩ := Option.bind_eq_some_iff.mp found
  have ⟨nested', here, same⟩ := Option.map_eq_some_iff.mp isFound
  cases same
  rw [flatComposite, isComposite]
  dsimp only
  rw [here]
  rfl

theorem flatComposite_of_absent {field : SemanticField} {cursor : FlatCursor}
    (absent : nestedOf find field = none) :
    flatComposite find field cursor = .done (.error (blocked .nestedUnresolved field.name)) := by
  rw [nestedOf] at absent
  rw [flatComposite]
  cases isComposite : field.resolvedType.compositeType with
  | none => rfl
  | some ref =>
      rw [isComposite, Option.bind_some, Option.map_eq_none_iff] at absent
      dsimp only
      rw [absent]
      rfl

theorem flatComposite_needs (field : SemanticField) (cursor : FlatCursor) :
    (flatComposite find field cursor).Needs isFlat accepts := by
  cases found : nestedOf find field with
  | none => rw [flatComposite_of_absent found]; trivial
  | some pair =>
      rw [flatComposite_of_nested found]
      intro verdict
      dsimp only
      cases holds : verdict.holds with
      | true => exact ⟨Or.inl holds, trivial⟩
      | false => exact ⟨Or.inr (not_accepts rfl), trivial⟩

theorem flatField_needs (field : SemanticField) (cursor : FlatCursor) :
    (flatField find field cursor).Needs isFlat accepts := by
  unfold flatField
  dsimp only
  split
  · trivial
  · split
    · trivial
    · split
      · trivial
      · split
        · exact flatComposite_needs field cursor
        · split <;> trivial

theorem flatFields_needs (fields : List SemanticField) (cursor : FlatCursor) :
    (flatFields find fields cursor).Needs isFlat accepts := by
  induction fields generalizing cursor with
  | nil => trivial
  | cons field rest ih =>
      rw [flatFields]
      apply Query.Needs.bind (flatField_needs field cursor)
      · intro result
        cases result with
        | error verdict => trivial
        | ok next => exact ih next
      · intro result refused
        cases result with
        | error verdict => exact refused
        | ok next => exact absurd trivial refused

theorem flatComposite_refuses (field : SemanticField) (cursor : FlatCursor) :
    (flatComposite find field cursor).Holds (fun _ _ => True) refuses := by
  cases found : nestedOf find field with
  | none => rw [flatComposite_of_absent found]; exact refuses_error rfl
  | some pair =>
      rw [flatComposite_of_nested found]
      intro verdict _
      dsimp only
      split
      · exact refuses_ok _
      · exact refuses_error rfl

theorem flatField_refuses (field : SemanticField) (cursor : FlatCursor) :
    (flatField find field cursor).Holds (fun _ _ => True) refuses := by
  unfold flatField
  dsimp only
  split
  · exact refuses_ok _
  · split
    · exact refuses_error rfl
    · split
      · exact refuses_error rfl
      · split
        · exact flatComposite_refuses field cursor
        · split
          · exact refuses_error rfl
          · exact refuses_ok _

theorem flatFields_refuses (fields : List SemanticField) (cursor : FlatCursor) :
    (flatFields find fields cursor).Holds (fun _ _ => True) refuses := by
  induction fields generalizing cursor with
  | nil => exact refuses_ok cursor
  | cons field rest ih =>
      rw [flatFields]
      apply Query.Holds.bind (flatField_refuses field cursor)
      intro result refused
      cases result with
      | error verdict =>
          intro holds
          have ⟨next, impossible⟩ := refused holds
          cases impossible
      | ok next => exact ih next

theorem closeFlat_cases (sec : SemanticSection) (cursor : FlatCursor) :
    (closeFlat sec cursor).holds = false ∨ closeFlat sec cursor = holdsVerdict := by
  rw [closeFlat]
  split
  · exact Or.inl rfl
  · split
    · exact Or.inl rfl
    · split
      · exact Or.inl rfl
      · split
        · exact Or.inl rfl
        · exact Or.inr rfl

theorem computeWireFlat_needs (sec : SemanticSection) :
    (computeWireFlat find sec).Needs isFlat isFlat := by
  rw [computeWireFlat]
  split
  · trivial
  · apply Query.Needs.bind (flatFields_needs sec.fields {})
    · intro result
      cases result <;> trivial
    · intro result refused
      cases result with
      | error verdict => exact refused
      | ok cursor => exact absurd trivial refused

/-- A section whose walk holds: it is no union, and the walk went through. -/
theorem computeWireFlat_holds {sec : SemanticSection}
    (holds : isFlat ((computeWireFlat find sec).eval answers)) :
    (computeWireFlat find sec).eval answers = holdsVerdict ∧ sec.isUnion = false ∧
      ∃ cursor, (flatFields find sec.fields {}).eval answers = .ok cursor ∧
        closeFlat sec cursor = holdsVerdict := by
  rw [computeWireFlat] at holds ⊢
  cases isUnion : sec.isUnion with
  | true =>
      rw [isUnion, if_pos rfl] at holds
      cases holds
  | false =>
      rw [isUnion, if_neg (by decide)] at holds
      rw [if_neg (by decide)]
      rw [Query.eval_bind] at holds ⊢
      have refused : refuses ((flatFields find sec.fields {}).eval answers) :=
        (flatFields_refuses sec.fields {}).eval answers
      cases walk : (flatFields find sec.fields {}).eval answers with
      | error verdict =>
          rw [walk] at holds refused
          have ⟨cursor, impossible⟩ := refused holds
          cases impossible
      | ok cursor =>
          rw [walk] at holds
          rcases closeFlat_cases sec cursor with fails | same
          · have impossible : (closeFlat sec cursor).holds = true := holds
            rw [fails] at impossible
            cases impossible
          · exact ⟨same, rfl, cursor, rfl, same⟩

/-- The ways the wire walk goes past a field. -/
inductive FlatStep (find : TypeKey → Option SemanticSection)
    (answers : TypeKey → AliasLayoutVerdict) (field : SemanticField) (cursor : FlatCursor) :
    FlatCursor → Prop where
  | padding (isPadding : field.isPadding = true) : FlatStep find answers field cursor
      { cursor with
        offsetBits := wrappingAdd cursor.offsetBits
          (wrappingMul (elementBits field.resolvedType) (elementCount field.resolvedType)) }
  | composite {ref : SemanticTypeRef} {nested : SemanticSection}
      (payload : field.isPadding = false) (aligned : cursor.offsetBits.tmod 8 = 0)
      (fixed : isVariableLength field.resolvedType.arrayKind = false)
      (isComposite : field.resolvedType.scalarCategory = .composite)
      (found : nestedOf find field = some (ref, nested)) (flat : isFlat (answers ref.typeKey)) :
      FlatStep find answers field cursor
        (cursor.place (wrappingMul nested.maxBitLength (elementCount field.resolvedType)))
  | scalar (payload : field.isPadding = false) (aligned : cursor.offsetBits.tmod 8 = 0)
      (fixed : isVariableLength field.resolvedType.arrayKind = false)
      (notComposite : field.resolvedType.scalarCategory ≠ .composite)
      (positive : 0 < elementBits field.resolvedType)
      (whole : (wrappingMul (elementBits field.resolvedType)
        (elementCount field.resolvedType)).tmod 8 = 0) :
      FlatStep find answers field cursor
        (cursor.place (wrappingMul (elementBits field.resolvedType)
          (elementCount field.resolvedType)))

theorem flatComposite_ok {field : SemanticField} {cursor next : FlatCursor}
    (ok : (flatComposite find field cursor).eval answers = .ok next) :
    ∃ ref nested, nestedOf find field = some (ref, nested) ∧ isFlat (answers ref.typeKey) ∧
      next = cursor.place (wrappingMul nested.maxBitLength (elementCount field.resolvedType)) := by
  cases found : nestedOf find field with
  | none =>
      rw [flatComposite_of_absent found] at ok
      cases ok
  | some pair =>
      rw [flatComposite_of_nested found, Query.eval] at ok
      cases flat : (answers pair.1.typeKey).holds with
      | false =>
          rw [flat] at ok
          cases ok
      | true =>
          rw [flat] at ok
          cases ok
          exact ⟨pair.1, pair.2, rfl, flat, rfl⟩

theorem flatField_ok {field : SemanticField} {cursor next : FlatCursor}
    (ok : (flatField find field cursor).eval answers = .ok next) :
    FlatStep find answers field cursor next := by
  unfold flatField at ok
  dsimp only at ok
  split at ok
  · rename_i isPadding
    cases ok
    exact .padding isPadding
  · rename_i payload
    rw [Bool.not_eq_true] at payload
    split at ok
    · cases ok
    · rename_i aligned
      rw [not_not] at aligned
      split at ok
      · cases ok
      · rename_i fixed
        rw [Bool.not_eq_true] at fixed
        split at ok
        · rename_i isComposite
          have ⟨ref, nested, found, flat, same⟩ := flatComposite_ok ok
          rw [same]
          exact .composite payload aligned fixed isComposite found flat
        · rename_i notComposite
          split at ok
          · cases ok
          · rename_i whole
            rw [not_or, not_not] at whole
            cases ok
            exact .scalar payload aligned fixed notComposite (not_le.mp whole.1) whole.2

theorem flatFields_cons_ok {field : SemanticField} {rest : List SemanticField}
    {cursor last : FlatCursor}
    (ok : (flatFields find (field :: rest) cursor).eval answers = .ok last) :
    ∃ next, FlatStep find answers field cursor next ∧
      (flatFields find rest next).eval answers = .ok last := by
  rw [flatFields, Query.eval_bind] at ok
  cases step : (flatField find field cursor).eval answers with
  | error verdict =>
      rw [step] at ok
      cases ok
  | ok next =>
      rw [step] at ok
      exact ⟨next, flatField_ok step, ok⟩

/-- Every composite payload field of a flat section stands for a flat section. -/
theorem flatFields_composite {fields : List SemanticField} {cursor last : FlatCursor}
    (ok : (flatFields find fields cursor).eval answers = .ok last) {field : SemanticField}
    (member : field ∈ fields) (payload : field.isPadding = false)
    (isComposite : field.resolvedType.scalarCategory = .composite) :
    ∃ ref nested, nestedOf find field = some (ref, nested) ∧ isFlat (answers ref.typeKey) := by
  induction fields generalizing cursor with
  | nil => cases member
  | cons first rest ih =>
      have ⟨next, step, walk⟩ := flatFields_cons_ok ok
      rcases List.mem_cons.mp member with here | later
      · rw [← here] at step
        cases step with
        | padding isPadding =>
            rw [payload] at isPadding
            cases isPadding
        | composite _ _ _ _ found flat => exact ⟨_, _, found, flat⟩
        | scalar _ _ _ notComposite => exact absurd isComposite notComposite
      · exact ih walk later

end Wire

/-! ### The host walk -/

def isImage : Option Resolved → Prop
  | some resolved => isFlat resolved.verdict
  | none => False

section Host

variable {find : TypeKey → Option SemanticSection} {answers : TypeKey → Option Resolved}

/-- What a composite field makes of its section's image. -/
def imageExtent (field : SemanticField) : Option Resolved → Except AliasLayoutVerdict HostExtent
  | none => .error (blocked .nestedUnresolved field.name)
  | some resolved =>
      if resolved.verdict.holds then .ok resolved.extent
      else .error (blocked .nestedNotFlat field.name)

theorem imageExtent_refuses (field : SemanticField) (answer : Option Resolved) :
    refuses (imageExtent field answer) := by
  rw [imageExtent.eq_def]
  split
  · exact refuses_error rfl
  · split
    · exact refuses_ok _
    · exact refuses_error rfl

theorem imageExtent_accepts {field : SemanticField} {answer : Option Resolved}
    (isAccepted : accepts (imageExtent field answer)) : isImage answer := by
  cases answer with
  | none => exact absurd isAccepted (not_accepts rfl)
  | some resolved =>
      cases holds : resolved.verdict.holds with
      | true => exact holds
      | false =>
          rw [imageExtent, holds] at isAccepted
          exact absurd isAccepted (not_accepts rfl)

theorem hostComposite_of_nested {field : SemanticField} {ref : SemanticTypeRef}
    {nested : SemanticSection} (found : nestedOf find field = some (ref, nested)) :
    hostComposite find field = .ask ref.typeKey fun answer => .done (imageExtent field answer) := by
  rw [nestedOf] at found
  have ⟨ref', isComposite, isFound⟩ := Option.bind_eq_some_iff.mp found
  have ⟨nested', here, same⟩ := Option.map_eq_some_iff.mp isFound
  cases same
  rw [hostComposite, isComposite]
  dsimp only
  rw [here]
  apply congrArg (Query.ask ref.typeKey)
  funext answer
  cases answer with
  | none => rfl
  | some resolved =>
      have whole : (if resolved.verdict.holds then
            (pure (.ok resolved.extent) : AskHost (Except AliasLayoutVerdict HostExtent))
          else pure (.error (blocked .nestedNotFlat field.name))) =
          .done (imageExtent field (some resolved)) := by
        rw [imageExtent]
        split <;> rfl
      exact whole

theorem hostComposite_of_absent {field : SemanticField} (absent : nestedOf find field = none) :
    hostComposite find field = .done (.error (blocked .nestedUnresolved field.name)) := by
  rw [nestedOf] at absent
  rw [hostComposite]
  cases isComposite : field.resolvedType.compositeType with
  | none => rfl
  | some ref =>
      rw [isComposite, Option.bind_some, Option.map_eq_none_iff] at absent
      dsimp only
      rw [absent]
      rfl

theorem hostComposite_needs (field : SemanticField) :
    (hostComposite find field).Needs isImage accepts := by
  cases found : nestedOf find field with
  | none => rw [hostComposite_of_absent found]; trivial
  | some pair =>
      rw [hostComposite_of_nested found]
      intro answer
      refine ⟨?_, trivial⟩
      by_cases isAccepted : accepts (imageExtent field answer)
      · exact Or.inl (imageExtent_accepts isAccepted)
      · exact Or.inr isAccepted

theorem hostElement_needs (field : SemanticField) :
    (hostElement find field).Needs isImage accepts := by
  rw [hostElement]
  split
  · trivial
  · split
    · trivial
    · split
      · exact hostComposite_needs field
      · trivial

theorem hostScalar_refuses (field : SemanticField) : refuses (hostScalar field) := by
  have shape : ∃ storage extent, hostScalar field =
      if storage ≠ field.resolvedType.bitLength then .error (blocked .storageWidth field.name)
      else .ok extent := ⟨_, _, rfl⟩
  have ⟨storage, extent, same⟩ := shape
  rw [same]
  split
  · exact refuses_error rfl
  · exact refuses_ok _

theorem hostElement_refuses (field : SemanticField) :
    (hostElement find field).Holds (fun _ _ => True) refuses := by
  rw [hostElement]
  split
  · exact refuses_error rfl
  · split
    · exact refuses_error rfl
    · split
      · cases found : nestedOf find field with
        | none => rw [hostComposite_of_absent found]; exact refuses_error rfl
        | some pair =>
            rw [hostComposite_of_nested found]
            exact fun answer _ => imageExtent_refuses field answer
      · exact hostScalar_refuses field

theorem placeMember_refuses (field : SemanticField) (element : HostExtent) (cursor : HostCursor) :
    refuses (placeMember field element cursor) := by
  unfold placeMember
  dsimp only
  split
  · exact refuses_error rfl
  · exact refuses_ok _

theorem hostFields_needs (fields : List SemanticField) (cursor : HostCursor) :
    (hostFields find fields cursor).Needs isImage accepts := by
  induction fields generalizing cursor with
  | nil => trivial
  | cons field rest ih =>
      rw [hostFields]
      apply Query.Needs.bind (hostElement_needs field)
      · intro result
        cases result with
        | error verdict => trivial
        | ok element =>
            dsimp only
            cases placeMember field element cursor with
            | error verdict => trivial
            | ok next => exact ih next
      · intro result refused
        cases result with
        | error verdict => exact refused
        | ok element => exact absurd trivial refused

theorem hostFields_refuses (fields : List SemanticField) (cursor : HostCursor) :
    (hostFields find fields cursor).Holds (fun _ _ => True) refuses := by
  induction fields generalizing cursor with
  | nil => exact refuses_ok cursor
  | cons field rest ih =>
      rw [hostFields]
      apply Query.Holds.bind (hostElement_refuses field)
      intro result refused
      cases result with
      | error verdict =>
          intro holds
          have ⟨element, impossible⟩ := refused holds
          cases impossible
      | ok element =>
          dsimp only
          have placed := placeMember_refuses field element cursor
          cases place : placeMember field element cursor with
          | error verdict =>
              rw [place] at placed
              intro holds
              have ⟨next, impossible⟩ := placed holds
              cases impossible
          | ok next => exact ih next

def AsksFor (find : TypeKey → Option SemanticSection) (fields : List SemanticField)
    (key : TypeKey) : Prop :=
  ∃ field ∈ fields, field.isPadding = false ∧ field.resolvedType.scalarCategory = .composite ∧
    ∃ nested ref, nestedOf find field = some (ref, nested) ∧ ref.typeKey = key

theorem asked_hostElement {field : SemanticField} {key : TypeKey}
    (asked : key ∈ (hostElement find field).asked answers) : AsksFor find [field] key := by
  rw [hostElement] at asked
  split at asked
  · cases asked
  · rename_i payload
    split at asked
    · cases asked
    · split at asked
      · rename_i isComposite
        cases found : nestedOf find field with
        | none =>
            rw [hostComposite_of_absent found] at asked
            cases asked
        | some pair =>
            rw [hostComposite_of_nested found, Query.asked] at asked
            have same : key = pair.1.typeKey := List.mem_singleton.mp asked
            exact ⟨field, List.mem_singleton_self field, Bool.eq_false_iff.mpr payload, isComposite,
              pair.2, pair.1, found, same.symm⟩
      · cases asked

theorem asked_hostFields {fields : List SemanticField} {cursor : HostCursor} {key : TypeKey}
    (asked : key ∈ (hostFields find fields cursor).asked answers) : AsksFor find fields key := by
  induction fields generalizing cursor with
  | nil => cases asked
  | cons field rest ih =>
      rw [hostFields, Query.mem_asked_bind] at asked
      rcases asked with here | later
      · have ⟨same, member, found⟩ := asked_hostElement here
        rw [List.mem_singleton] at member
        rw [member] at found
        exact ⟨field, List.mem_cons_self, found⟩
      · cases element : (hostElement find field).eval answers with
        | error verdict =>
            rw [element] at later
            cases later
        | ok extent =>
            rw [element] at later
            dsimp only at later
            cases place : placeMember field extent cursor with
            | error verdict =>
                rw [place] at later
                cases later
            | ok next =>
                rw [place] at later
                have ⟨other, member, found⟩ := ih later
                exact ⟨other, List.mem_cons_of_mem _ member, found⟩

theorem computeHostImage_needs (flat : AliasLayoutVerdict) (sec : SemanticSection)
    (isHeld : flat.holds = true) :
    (computeHostImage find flat sec).Needs isImage fun resolved => isFlat resolved.verdict := by
  rw [computeHostImage, isHeld]
  apply Query.Needs.bind (hostFields_needs sec.fields {})
  · intro result
    cases result <;> trivial
  · intro result refused
    cases result with
    | error verdict => exact refused
    | ok cursor => exact absurd trivial refused

theorem computeHostImage_of_not_flat {flat : AliasLayoutVerdict} {sec : SemanticSection}
    (fails : flat.holds = false) : computeHostImage find flat sec = .done { verdict := flat } := by
  rw [computeHostImage, fails]
  rfl

theorem asked_computeHostImage {flat : AliasLayoutVerdict} {sec : SemanticSection} {key : TypeKey}
    (asked : key ∈ (computeHostImage find flat sec).asked answers) :
    AsksFor find sec.fields key := by
  cases isHeld : flat.holds with
  | false =>
      rw [computeHostImage_of_not_flat isHeld] at asked
      cases asked
  | true =>
      rw [computeHostImage, isHeld, Bool.not_true, if_neg (by decide),
        Query.mem_asked_bind] at asked
      rcases asked with walk | none
      · exact asked_hostFields walk
      · cases walk : (hostFields find sec.fields {}).eval answers with
        | error verdict =>
            rw [walk] at none
            cases none
        | ok cursor =>
            rw [walk] at none
            cases none

/-- A section whose image holds: it is flat, and the walk went through. -/
theorem computeHostImage_holds {flat : AliasLayoutVerdict} {sec : SemanticSection}
    (holds : isFlat ((computeHostImage find flat sec).eval answers).verdict) :
    flat.holds = true ∧ ∃ cursor, (hostFields find sec.fields {}).eval answers = .ok cursor ∧
      (computeHostImage find flat sec).eval answers = closeHost cursor := by
  cases isHeld : flat.holds with
  | false =>
      rw [computeHostImage_of_not_flat isHeld] at holds
      exact absurd isHeld (by rw [show flat.holds = true from holds]; decide)
  | true =>
      refine ⟨rfl, ?_⟩
      rw [computeHostImage, isHeld] at holds ⊢
      rw [Bool.not_true, if_neg (by decide)] at holds ⊢
      rw [Query.eval_bind] at holds ⊢
      have refused : refuses ((hostFields find sec.fields {}).eval answers) :=
        (hostFields_refuses sec.fields {}).eval answers
      cases walk : (hostFields find sec.fields {}).eval answers with
      | error verdict =>
          rw [walk] at holds refused
          have ⟨cursor, impossible⟩ := refused holds
          cases impossible
      | ok cursor => exact ⟨cursor, rfl, rfl⟩

end Host

namespace AliasIndex

variable (index : AliasIndex)

theorem sectionAt_absent : index.sectionAt index.absent = none := by
  rw [absent, sectionAt, List.getElem?_eq_none (le_refl _)]
  rfl

theorem sectionAt_locate (key : TypeKey) :
    index.sectionAt (index.wireSystem.locate key) = index.find key := by
  change index.sectionAt ((index.findRef key).getD index.absent) = _
  rw [find]
  cases index.findRef key with
  | none => exact index.sectionAt_absent
  | some ref => rfl

/-- Every section there is, and the one that no key stands for. -/
def allRefs : List SectionRef :=
  index.ownRefs ++ (List.range (index.catalogue.length + 1)).map .external

theorem mem_ownRefs {position : ℕ} {response : Bool} :
    .own position response ∈ index.ownRefs ↔ position < index.module.length := by
  rw [ownRefs, List.mem_flatMap]
  constructor
  · intro ⟨other, inRange, member⟩
    rw [List.mem_range] at inRange
    rcases List.mem_cons.mp member with same | later
    · cases same
      exact inRange
    · rw [List.mem_singleton] at later
      cases later
      exact inRange
  · intro inside
    refine ⟨position, List.mem_range.mpr inside, ?_⟩
    cases response with
    | false => exact List.mem_cons_self
    | true => exact List.mem_cons_of_mem _ (List.mem_singleton_self _)

theorem length_allRefs : index.allRefs.length = index.depth := by
  have own : index.ownRefs.length = 2 * index.module.length := by
    rw [ownRefs, List.length_flatMap]
    simp only [List.length_cons, List.length_nil, List.map_const', List.length_range,
      List.sum_replicate, smul_eq_mul]
    omega
  rw [allRefs, depth, List.length_append, own, List.length_map, List.length_range]
  omega

theorem findRef_mem {key : TypeKey} {ref : SectionRef} (found : index.findRef key = some ref) :
    ref ∈ index.allRefs := by
  rw [findRef] at found
  split at found
  · rename_i position search
    have inRange := List.mem_of_find?_eq_some search
    rw [List.mem_reverse, List.mem_range] at inRange
    cases found
    exact List.mem_append_left _ (index.mem_ownRefs.mpr inRange)
  · have ⟨position, search, same⟩ := Option.map_eq_some_iff.mp found
    have inRange := List.mem_of_find?_eq_some search
    rw [List.mem_range] at inRange
    rw [← same]
    refine List.mem_append_right _ (List.mem_map_of_mem (List.mem_range.mpr ?_))
    omega

theorem locate_mem (key : TypeKey) : index.wireSystem.locate key ∈ index.allRefs.toFinset := by
  rw [List.mem_toFinset]
  change (index.findRef key).getD index.absent ∈ _
  cases found : index.findRef key with
  | none =>
      refine List.mem_append_right _ (List.mem_map_of_mem (List.mem_range.mpr ?_))
      omega
  | some ref => exact index.findRef_mem found

theorem card_allRefs : index.allRefs.toFinset.card ≤ index.depth :=
  (List.toFinset_card_le _).trans_eq index.length_allRefs

theorem ownRefs_subset : ∀ ref ∈ index.ownRefs, ref ∈ index.allRefs.toFinset :=
  fun _ member => List.mem_toFinset.mpr (List.mem_append_left _ member)

/-! ### Wire verdicts -/

theorem wireTask_of_section {ref : SectionRef} {sec : SemanticSection}
    (here : index.sectionAt ref = some sec) : index.wireSystem.task ref =
      computeWireFlat index.find sec >>= fun verdict => pure (verdict, []) := by
  unfold wireSystem
  dsimp only
  rw [here]

theorem wireTask_of_absent {ref : SectionRef} (absent : index.sectionAt ref = none) :
    index.wireSystem.task ref = .done ({}, []) := by
  unfold wireSystem
  dsimp only
  rw [absent]
  rfl

theorem wire_verdicts : index.wireSystem.Verdicts isFlat where
  silent :=
    { task := by
        intro ref
        cases here : index.sectionAt ref with
        | none => rw [index.wireTask_of_absent here]; rfl
        | some sec =>
            rw [index.wireTask_of_section here]
            exact (Query.holds_true _ _).bind fun _ _ => rfl
      cycle := fun _ => rfl }
  cycle := fun _ impossible => Bool.noConfusion impossible
  limit := fun _ impossible => Bool.noConfusion impossible
  limitReports := fun _ impossible => List.cons_ne_nil _ _ impossible
  task := by
    intro ref
    cases here : index.sectionAt ref with
    | none => rw [index.wireTask_of_absent here]; trivial
    | some sec =>
        rw [index.wireTask_of_section here]
        exact (computeWireFlat_needs sec).bind (fun _ => trivial) fun _ refused => refused

theorem recordedFlat_eq (wire : Memo SectionRef AliasLayoutVerdict Unit) (ref : SectionRef) :
    recordedFlat wire ref = wire.answer {} ref := by
  rw [recordedFlat, Memo.answer]
  cases wire.mark ref <;> rfl

/-- A flat verdict of a section: the section is there, and its walk holds. -/
structure WireFacts (ref : SectionRef) (sec : SemanticSection) : Prop where
  here : index.sectionAt ref = some sec
  eval : (computeWireFlat index.find sec).eval
    (fun key => recordedFlat index.wireMemo (index.wireSystem.locate key)) = holdsVerdict
  certified : index.wireSystem.Certified isFlat ref holdsVerdict
  known : recordedFlat index.wireMemo ref = holdsVerdict

theorem wireFacts_of_recorded {ref : SectionRef} (flat : isFlat (recordedFlat index.wireMemo ref)) :
    ∃ sec, index.WireFacts ref sec := by
  have bad : ¬ isFlat {} := fun impossible => Bool.noConfusion impossible
  have marked : index.wireMemo.mark ref = .done (recordedFlat index.wireMemo ref) := by
    rw [recordedFlat_eq]
    apply Memo.mark_of_answer
    intro same
    rw [recordedFlat_eq, same] at flat
    exact bad flat
  have justified := justified_of_recorded index.wire_verdicts bad index.depth index.ownRefs marked
    flat
  have answers : index.wireSystem.recorded {} index.wireMemo =
      fun key => recordedFlat index.wireMemo (index.wireSystem.locate key) := by
    funext key
    rw [recorded, recordedFlat_eq]
  have outcome := justified.outcome
  cases here : index.sectionAt ref with
  | none =>
      rw [index.wireTask_of_absent here] at outcome
      have same : {} = recordedFlat index.wireMemo ref := congrArg Prod.fst outcome
      rw [← same] at flat
      exact absurd flat bad
  | some sec =>
      rw [index.wireTask_of_section here, Query.eval_bind] at outcome
      have same : (computeWireFlat index.find sec).eval
          (index.wireSystem.recorded {} index.wireMemo) = recordedFlat index.wireMemo ref :=
        congrArg Prod.fst outcome
      have holds := flat
      rw [← same] at holds
      have verdict := (computeWireFlat_holds holds).1
      rw [verdict] at same
      have certified := justified.certified
      rw [← same] at certified
      rw [answers] at verdict
      exact ⟨sec, here, verdict, certified, same.symm⟩

theorem recordedFlat_of_certified {ref : SectionRef} (own : ref ∈ index.ownRefs)
    {verdict : AliasLayoutVerdict} (certified : index.wireSystem.Certified isFlat ref verdict) :
    recordedFlat index.wireMemo ref = verdict := by
  have known := recorded_of_certified index.wire_verdicts index.locate_mem index.card_allRefs
    index.ownRefs_subset own certified
  rw [recordedFlat_eq]
  exact Memo.answer_of_mark known

/-- The section of a composite field of a flat section is flat on record. -/
theorem WireFacts.nested {ref : SectionRef} {sec : SemanticSection}
    (facts : index.WireFacts ref sec) {key : TypeKey} (asks : AsksFor index.find sec.fields key) :
    isFlat (recordedFlat index.wireMemo (index.wireSystem.locate key)) := by
  have holds : isFlat holdsVerdict := rfl
  rw [← facts.eval] at holds
  have ⟨_, _, cursor, walk, _⟩ := computeWireFlat_holds holds
  have ⟨field, member, payload, isComposite, nested, ref, found, same⟩ := asks
  have ⟨ref', nested', found', flat⟩ := flatFields_composite walk member payload isComposite
  rw [found] at found'
  cases found'
  rw [same] at flat
  exact flat

/-! ### Host images -/

/-- The wire verdict a host walk starts from. -/
def flatOf (sec : SemanticSection) : AliasLayoutVerdict :=
  (computeWireFlat index.find sec).eval fun key =>
    recordedFlat index.wireMemo (index.wireSystem.locate key)

theorem hostTask_of_section {ref : SectionRef} {sec : SemanticSection}
    (here : index.sectionAt ref = some sec) : (index.hostSystem index.wireMemo).task ref =
      computeHostImage index.find (index.flatOf sec) sec >>= fun resolved =>
        pure (some resolved, []) := by
  unfold hostSystem
  dsimp only
  rw [here]
  rfl

theorem hostTask_of_absent {ref : SectionRef} (absent : index.sectionAt ref = none) :
    (index.hostSystem index.wireMemo).task ref = .done (none, []) := by
  unfold hostSystem
  dsimp only
  rw [absent]
  rfl

theorem computeHostImage_needs_any (flat : AliasLayoutVerdict) (sec : SemanticSection) :
    (computeHostImage index.find flat sec).Needs isImage fun resolved => isFlat resolved.verdict := by
  cases isHeld : flat.holds with
  | true => exact computeHostImage_needs flat sec isHeld
  | false => rw [computeHostImage_of_not_flat isHeld]; trivial

theorem host_verdicts : (index.hostSystem index.wireMemo).Verdicts isImage where
  silent :=
    { task := by
        intro ref
        cases here : index.sectionAt ref with
        | none => rw [index.hostTask_of_absent here]; rfl
        | some sec =>
            rw [index.hostTask_of_section here]
            exact (Query.holds_true _ _).bind fun _ _ => rfl
      cycle := fun _ => rfl }
  cycle := fun _ impossible => impossible
  limit := fun _ impossible => impossible
  limitReports := fun _ impossible => List.cons_ne_nil _ _ impossible
  task := by
    intro ref
    cases here : index.sectionAt ref with
    | none => rw [index.hostTask_of_absent here]; trivial
    | some sec =>
        rw [index.hostTask_of_section here]
        exact (index.computeHostImage_needs_any _ sec).bind (fun _ => trivial)
          fun _ refused => refused

/-- A host image that holds: its section is there, flat, and its walk holds. -/
theorem hostOutcome {ref : SectionRef} {answers : TypeKey → Option Resolved}
    {result : Option Resolved} (holds : isImage result)
    (outcome : ((index.hostSystem index.wireMemo).task ref).eval answers = (result, [])) :
    ∃ sec, index.sectionAt ref = some sec ∧ index.flatOf sec = holdsVerdict ∧
      result = some ((computeHostImage index.find holdsVerdict sec).eval answers) := by
  cases here : index.sectionAt ref with
  | none =>
      rw [index.hostTask_of_absent here] at outcome
      have same : none = result := congrArg Prod.fst outcome
      rw [← same] at holds
      exact holds.elim
  | some sec =>
      rw [index.hostTask_of_section here, Query.eval_bind] at outcome
      have same : some ((computeHostImage index.find (index.flatOf sec) sec).eval answers) =
          result := congrArg Prod.fst outcome
      rw [← same] at holds
      have ⟨isHeld, _⟩ := computeHostImage_holds holds
      have ⟨verdict, _⟩ := computeWireFlat_holds isHeld
      have flat : index.flatOf sec = holdsVerdict := verdict
      rw [flat] at same
      exact ⟨sec, rfl, flat, same.symm⟩

theorem hostMemo_certified {ref : SectionRef}
    (image : isFlat (recordedHost (index.hostMemo index.wireMemo) ref).verdict) :
    (index.hostSystem index.wireMemo).Certified isImage ref
      (some (recordedHost (index.hostMemo index.wireMemo) ref)) := by
  have bad : ¬ isImage none := fun impossible => impossible
  have marked : (index.hostMemo index.wireMemo).mark ref =
      .done (some (recordedHost (index.hostMemo index.wireMemo) ref)) := by
    rw [recordedHost] at image ⊢
    split at image
    · rename_i resolved known
      exact known
    · cases image
  exact (justified_of_recorded index.host_verdicts bad index.depth index.ownRefs marked
    image).certified

theorem certified_of_flatOf {ref : SectionRef} {sec : SemanticSection}
    (here : index.sectionAt ref = some sec) (flat : index.flatOf sec = holdsVerdict) :
    index.wireSystem.Certified isFlat ref holdsVerdict := by
  have holds : isFlat (index.flatOf sec) := by
    rw [flat]
    rfl
  have good := (computeWireFlat_needs sec).asked_good holds
  refine .intro (fun key => recordedFlat index.wireMemo (index.wireSystem.locate key)) rfl ?_ ?_
  · rw [index.wireTask_of_section here, Query.eval_bind]
    exact congrArg (fun verdict => (verdict, ([] : List Unit))) flat
  · rw [index.wireTask_of_section here]
    intro key member
    rcases Query.mem_asked_bind.mp member with walk | none
    · have ⟨_, facts⟩ := index.wireFacts_of_recorded (good key walk)
      rw [facts.known]
      exact facts.certified
    · cases none

theorem flat_of_hostCertified {ref : SectionRef} (own : ref ∈ index.ownRefs)
    {result : Option Resolved}
    (certified : (index.hostSystem index.wireMemo).Certified isImage ref result) :
    isFlat (recordedFlat index.wireMemo ref) := by
  cases certified with
  | intro answers holds outcome rests =>
      have ⟨sec, here, flat, _⟩ := index.hostOutcome holds outcome
      rw [index.recordedFlat_of_certified own (index.certified_of_flatOf here flat)]
      rfl

theorem recordedHost_of_certified {ref : SectionRef} (own : ref ∈ index.ownRefs)
    {resolved : Resolved}
    (certified : (index.hostSystem index.wireMemo).Certified isImage ref (some resolved)) :
    recordedHost (index.hostMemo index.wireMemo) ref = resolved := by
  have known := recorded_of_certified index.host_verdicts index.locate_mem index.card_allRefs
    index.ownRefs_subset own certified
  have marked : (index.hostMemo index.wireMemo).mark ref = .done (some resolved) := known
  rw [recordedHost, marked]

end AliasIndex

end LlvmDsdl.Semantics
