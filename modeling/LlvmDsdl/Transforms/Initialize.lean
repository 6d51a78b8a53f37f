import LlvmDsdl.Transforms.Object

/-!
Contract: the body `buildTypedInitializeBody` builds for a plan.

Owns: the default of each field, stored without a wire; every arm of a union;
and the body closed over its nested bodies.
-/

namespace LlvmDsdl.Transforms

open LlvmDsdl.Runtime

variable {κ ω : Type}

/-- `dsdl.clear_view`: no bytes, in every element of an array. -/
def Record.clearView (object : Record ω) (name : String) : Record ω :=
  { object with view := Function.update object.view name fun _ => [] }

/-- The initialise body of a nested type, whose storage is never null, and the code it answers. -/
abbrev InitializeCallees (κ ω : Type) := κ → Bool → ω → ErrorCode × ω

section Builders

variable (callees : InitializeCallees κ ω)

/-- Hands a nested composite to its own initialise body. -/
def initializeNested (name : String) (nested : κ) (index : ℕ)
    (carried : ErrorCode × Record ω) : ErrorCode × Record ω :=
  let answer := callees nested false (carried.2.nested name index)
  (foldError carried.1 answer.1, carried.2.storeNested name index answer.2)

/-- A fixed array of bools, read from a buffer of no bytes. -/
def initializeBits (name : String) (count : Word) (object : Record ω) : Record ω :=
  let output := getBits (fun _ => 0) (fun _ => 0) 0 0 count
  countedLoop count
    (fun index object => object.storeElement name index (if bitAt output index then 1 else 0))
    object

def initializeFixed (name : String) (element : Element κ) (count : Word)
    (carried : ErrorCode × Record ω) : ErrorCode × Record ω :=
  match element with
  | .scalar type =>
      if type.category = .bool then (carried.1, initializeBits name count carried.2)
      else
        (carried.1,
          countedLoop count (fun index object => object.storeElement name index 0) carried.2)
  | .composite composite =>
      if composite.heldAsView then (carried.1, carried.2.clearView name)
      else countedLoop count (initializeNested callees name composite.nested) carried

def buildInitializeStep (field : Field κ) (carried : ErrorCode × Record ω) :
    ErrorCode × Record ω :=
  match field.arrayKind with
  | .variable _ _ => (carried.1, carried.2.setArrayLength field.name 0)
  | .fixed capacity =>
      initializeFixed callees field.name field.element (BitVec.ofNat 64 capacity) carried
  | .none =>
      match field.element with
      | .scalar _ => (carried.1, carried.2.storeMember field.name 0)
      | .composite composite =>
          if composite.heldAsView then (carried.1, carried.2.clearView field.name)
          else initializeNested callees field.name composite.nested 0 carried

def Plan.initializedFields (plan : Plan κ) : List (Field κ) :=
  if plan.isUnion then unionOptionsOf plan.steps else plan.fields

/-- `buildTypedInitializeBody`. A union initialises every arm. -/
def Plan.initialize (plan : Plan κ) (objectNull : Bool) (object : Record ω) :
    ErrorCode × Record ω :=
  if objectNull then (-errorInvalidArgument, object)
  else
    let tagged := if plan.isUnion then object.setUnionTag 0 else object
    plan.initializedFields.foldl (fun carried field => buildInitializeStep callees field carried)
      (0, tagged)

end Builders

def NestedPlan.initialize : {depth : ℕ} → NestedPlan depth → Bool → Storage depth →
    ErrorCode × Storage depth
  | 0, plan, _, _ => nomatch plan
  | depth + 1, plan, objectNull, object =>
      Plan.initialize (κ := NestedPlan depth) (ω := Storage depth) NestedPlan.initialize plan
        objectNull object

end LlvmDsdl.Transforms
