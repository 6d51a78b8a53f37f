import Mathlib
import LlvmDsdl.Transforms.Helpers

/-!
Contract: the object a body reads from or fills, and what a body carries over it.

Owns: one record, generic in what its nested members hold; the records nested
as deep as a plan; the stores of a reader's operations; the error a body keeps; its
counted loop; the bit ranges a run touches; and the array stores a run makes.

Does not own the members' storage widths: every scalar is held as the plan's
word, which a narrower holder embeds in.
-/

namespace LlvmDsdl.Transforms

open LlvmDsdl.Runtime

variable {ω : Type}

/-- A record's members. A member that is not an array is its own element zero. -/
structure Record (ω : Type) where
  word : String → Word
  element : String → ℕ → Word
  length : String → Word
  tag : Word
  view : String → ℕ → List Byte
  nested : String → ℕ → ω

/-- The objects of plans nested to at most `depth` levels. -/
def Storage : ℕ → Type
  | 0 => Unit
  | depth + 1 => Record (Storage depth)

namespace Record

def storeMember (object : Record ω) (name : String) (value : Word) : Record ω :=
  { object with word := Function.update object.word name value }

def storeElement (object : Record ω) (name : String) (index : ℕ) (value : Word) : Record ω :=
  { object with
    element := Function.update object.element name
      (Function.update (object.element name) index value) }

def setArrayLength (object : Record ω) (name : String) (value : Word) : Record ω :=
  { object with length := Function.update object.length name value }

def setUnionTag (object : Record ω) (value : Word) : Record ω :=
  { object with tag := value }

def storeView (object : Record ω) (name : String) (index : ℕ) (bytes : List Byte) : Record ω :=
  { object with
    view := Function.update object.view name (Function.update (object.view name) index bytes) }

def storeNested (object : Record ω) (name : String) (index : ℕ) (value : ω) : Record ω :=
  { object with
    nested := Function.update object.nested name
      (Function.update (object.nested name) index value) }

end Record

def foldError (existing next : ErrorCode) : ErrorCode :=
  if existing = 0 then next else existing

/-- An `scf.for` over `[0, count)`, whose bound is signed. -/
def countedLoop {α : Type} (count : Word) (body : ℕ → α → α) (carried : α) : α :=
  (List.range count.toInt.toNat).foldl (fun carried index => body index carried) carried

/-- The bits `[start, start + length)` of memory. -/
structure BitRange where
  start : ℕ
  length : ℕ
deriving DecidableEq, Repr

/-- Every bit of the range lies in `[low, high)`. -/
def BitRange.Within (range : BitRange) (low high : ℕ) : Prop :=
  range.length = 0 ∨ low ≤ range.start ∧ range.start + range.length ≤ high

/-- A store into an array member: its count, or one of its elements. `capacity` is the declared one
and `count` the one the stores of a run are made under. -/
inductive ArrayStore where
  | length (name : String) (capacity count : ℕ)
  | element (name : String) (capacity count index : ℕ)
deriving DecidableEq, Repr

/-- A count within the capacity, an element within the count. -/
def ArrayStore.Safe : ArrayStore → Prop
  | .length _ capacity count => count ≤ capacity
  | .element _ capacity count index => index < count ∧ count ≤ capacity

end LlvmDsdl.Transforms
