import Mathlib
import LlvmDsdl.Runtime.Float

/-!
Contract: a serialisation plan as the body builders read it.

Owns: the steps of a plan with every fact the lowering stamped on them, generic
in what a step's nested type resolves to; the plans nested to a finite depth;
the bounds a plan states about its own length; and what makes a plan well
formed.

Does not own the bodies: no definition here reads or writes a bit.
-/

namespace LlvmDsdl.Transforms

open LlvmDsdl.Runtime

inductive ScalarCategory where
  | bool
  | byte
  | utf8
  | unsigned
  | signed
  | float
deriving DecidableEq, Repr

inductive CastMode where
  | saturated
  | truncated
deriving DecidableEq, Repr

/-- The widths the `dsdl.io` verifier and the body builder accept for a category. -/
def SupportedWidth (category : ScalarCategory) (bitLength : ℕ) : Prop :=
  match category with
  | .bool => bitLength = 1
  | .float => IsFloatWidth bitLength
  | .signed => 2 ≤ bitLength ∧ bitLength ≤ 64
  | .byte | .utf8 | .unsigned => 1 ≤ bitLength ∧ bitLength ≤ 64

instance (category : ScalarCategory) (bitLength : ℕ) :
    Decidable (SupportedWidth category bitLength) := by
  cases category <;> unfold SupportedWidth <;> infer_instance

structure ScalarType where
  category : ScalarCategory
  castMode : CastMode
  bitLength : ℕ
  supported : SupportedWidth category bitLength

def ScalarType.isSigned (type : ScalarType) : Bool :=
  type.category == .signed

variable {κ : Type}

/-- A nested type: `nested` is what the callee's symbol resolves to. -/
structure Composite (κ : Type) where
  nested : κ
  compositeSealed : Bool
  compositeExtentBits : ℕ
  heldAsView : Bool

inductive Element (κ : Type) where
  | scalar (type : ScalarType)
  | composite (composite : Composite κ)

/-- The array kind with its capacity. The two variable kinds differ in how the capacity was written
down, not in what the builders do, so they are one here. -/
inductive ArrayKind where
  | none
  | fixed (capacity : ℕ)
  | variable (capacity prefixBits : ℕ)
deriving DecidableEq, Repr

structure Field (κ : Type) where
  name : String
  element : Element κ
  arrayKind : ArrayKind
  alignmentBits : ℕ
  unionOptionIndex : ℕ

inductive PlanStep (κ : Type) where
  | align (bits : ℕ)
  | padding (bits : ℕ)
  | field (field : Field κ)

def PlanStep.field? : PlanStep κ → Option (Field κ)
  | .field member => some member
  | .align _ | .padding _ => Option.none

structure Plan (κ : Type) where
  isUnion : Bool
  unionTagBits : ℕ
  minBits : ℕ
  maxBits : ℕ
  steps : List (PlanStep κ)

def Plan.fields (plan : Plan κ) : List (Field κ) :=
  plan.steps.filterMap PlanStep.field?

def unionOptionsOf (steps : List (PlanStep κ)) : List (Field κ) :=
  (steps.filterMap PlanStep.field?).mergeSort
    fun left right => left.unionOptionIndex ≤ right.unionOptionIndex

theorem mem_unionOptionsOf {plan : Plan κ} {option : Field κ} :
    option ∈ unionOptionsOf plan.steps ↔ option ∈ plan.fields :=
  List.mem_mergeSort

theorem perm_unionOptionsOf (plan : Plan κ) : (unionOptionsOf plan.steps).Perm plan.fields :=
  List.mergeSort_perm _ _

/-- Plans nested to at most `depth` levels. -/
def NestedPlan : ℕ → Type
  | 0 => Empty
  | depth + 1 => Plan (NestedPlan depth)

/-- What a plan states about its own length. -/
structure Bounds where
  minBits : ℕ
  maxBits : ℕ

def Plan.bounds (plan : Plan κ) : Bounds := ⟨plan.minBits, plan.maxBits⟩

def NestedPlan.bounds : {depth : ℕ} → NestedPlan depth → Bounds
  | 0, plan => nomatch plan
  | depth + 1, plan => Plan.bounds (κ := NestedPlan depth) plan

/-- The one width of a nested type whose bounds agree on a whole number of bytes. -/
def Bounds.fixedBits (bounds : Bounds) : Option ℕ :=
  if bounds.maxBits = bounds.minBits ∧ bounds.maxBits % 8 = 0 then some bounds.maxBits else none

/-- The offset rounded up to a byte, as the bodies compute it. -/
def alignUp (offset : ℕ) : ℕ := (offset + 7) / 8 * 8

def delimiterHeaderBits : ℕ := 32

section Reach

variable (bounds : κ → Bounds)

def Element.maxBits : Element κ → ℕ
  | .scalar type => type.bitLength
  | .composite type =>
      if type.compositeSealed then (bounds type.nested).maxBits
      else delimiterHeaderBits + type.compositeExtentBits

def Element.minBits : Element κ → ℕ
  | .scalar type => type.bitLength
  | .composite type =>
      if type.compositeSealed then (bounds type.nested).minBits else delimiterHeaderBits

def Field.maxBits (field : Field κ) : ℕ :=
  match field.arrayKind with
  | .none => field.element.maxBits bounds
  | .fixed capacity => capacity * field.element.maxBits bounds
  | .variable capacity prefixBits => prefixBits + capacity * field.element.maxBits bounds

def Field.minBits (field : Field κ) : ℕ :=
  match field.arrayKind with
  | .none => field.element.minBits bounds
  | .fixed capacity => capacity * field.element.minBits bounds
  | .variable _ prefixBits => prefixBits

/-- Where a step ends when it begins no later than `offset`. -/
def PlanStep.reach (step : PlanStep κ) (offset : ℕ) : ℕ :=
  match step with
  | .align _ => alignUp offset
  | .padding bits => offset + bits
  | .field member => offset + member.maxBits bounds

/-- Where a step ends when it begins no earlier than `offset`. -/
def PlanStep.floor (step : PlanStep κ) (offset : ℕ) : ℕ :=
  match step with
  | .align _ => alignUp offset
  | .padding bits => offset + bits
  | .field member => offset + member.minBits bounds

def reachOf (steps : List (PlanStep κ)) (offset : ℕ) : ℕ :=
  steps.foldl (fun reached step => step.reach bounds reached) offset

def floorOf (steps : List (PlanStep κ)) (offset : ℕ) : ℕ :=
  steps.foldl (fun reached step => step.floor bounds reached) offset

def Field.optionStart (field : Field κ) (tagBits : ℕ) : ℕ :=
  if 1 < field.alignmentBits then alignUp tagBits else tagBits

end Reach

section WellFormed

variable (bounds : κ → Bounds) (nestedOk : κ → Prop)

/-- A delimited type fits its extent; a view is a sealed type of one size. -/
structure Composite.WellFormed (composite : Composite κ) : Prop where
  nested : nestedOk composite.nested
  extent : composite.compositeSealed = false →
    (bounds composite.nested).maxBits ≤ composite.compositeExtentBits
  view : composite.heldAsView = true →
    composite.compositeSealed = true ∧ (bounds composite.nested).fixedBits.isSome

/-- The prefix of a variable array counts up to its capacity. -/
def ArrayKind.WellFormed : ArrayKind → Prop
  | .none => True
  | .fixed capacity => 0 < capacity
  | .variable capacity prefixBits =>
      0 < prefixBits ∧ prefixBits ≤ 64 ∧ capacity < 2 ^ prefixBits ∧ capacity < 2 ^ 63

def ArrayKind.prefixBits : ArrayKind → ℕ
  | .none | .fixed _ => 0
  | .variable _ prefixBits => prefixBits

/-- A field that may stand at `aligned`: composites begin on a byte, behind a prefix of whole
bytes. -/
structure Field.WellFormed (aligned : Bool) (field : Field κ) : Prop where
  kind : field.arrayKind.WellFormed
  composite : ∀ composite, field.element = .composite composite →
    composite.WellFormed bounds nestedOk ∧ aligned = true ∧ field.arrayKind.prefixBits % 8 = 0

/-- Whether the offset after a field is on a byte when it was before. -/
def Field.wholeBytes (field : Field κ) : Bool :=
  field.arrayKind.prefixBits % 8 == 0 &&
    match field.element with
    | .scalar type => type.bitLength % 8 == 0
    | .composite _ => true

def PlanStep.alignedAfter (step : PlanStep κ) (aligned : Bool) : Bool :=
  match step with
  | .align _ => true
  | .padding bits => aligned && bits % 8 == 0
  | .field member => aligned && member.wholeBytes

def StepsWellFormed : Bool → List (PlanStep κ) → Prop
  | _, [] => True
  | aligned, step :: rest =>
      (∀ field, step = .field field → field.WellFormed bounds nestedOk aligned) ∧
        StepsWellFormed (step.alignedAfter aligned) rest

/-- A structure: its steps in order, within the bounds it states. -/
structure Plan.StructWellFormed (plan : Plan κ) : Prop where
  steps : StepsWellFormed bounds nestedOk true plan.steps
  reach : alignUp (reachOf bounds plan.steps 0) ≤ plan.maxBits
  floor : plan.minBits ≤ alignUp (floorOf bounds plan.steps 0)

/-- A union: distinct tags its width can carry, and options that stay within the bounds. -/
structure Plan.UnionWellFormed (plan : Plan κ) : Prop where
  tagBits : 0 < plan.unionTagBits ∧ plan.unionTagBits ≤ 64
  some : plan.fields ≠ []
  distinct : (plan.fields.map Field.unionOptionIndex).Nodup
  tags : ∀ option ∈ plan.fields, option.unionOptionIndex < 2 ^ plan.unionTagBits
  options : ∀ option ∈ plan.fields,
    option.WellFormed bounds nestedOk
      (decide (1 < option.alignmentBits) || plan.unionTagBits % 8 == 0)
  views : ∀ option ∈ plan.fields, ∀ composite, option.element = .composite composite →
    composite.heldAsView = false
  reach : ∀ option ∈ plan.fields,
    alignUp (option.optionStart plan.unionTagBits + option.maxBits bounds) ≤ plan.maxBits
  floor : ∀ option ∈ plan.fields,
    plan.minBits ≤ alignUp (option.optionStart plan.unionTagBits + option.minBits bounds)

/-- What the analysis and the verifiers leave of a plan before its bodies are built. -/
structure Plan.WellFormed (plan : Plan κ) : Prop where
  counted : plan.maxBits < 2 ^ 63
  names : (plan.fields.map Field.name).Nodup
  struct : plan.isUnion = false → plan.StructWellFormed bounds nestedOk
  union : plan.isUnion = true → plan.UnionWellFormed bounds nestedOk

end WellFormed

theorem le_alignUp (offset : ℕ) : offset ≤ alignUp offset := by
  rw [alignUp]
  omega

end LlvmDsdl.Transforms
