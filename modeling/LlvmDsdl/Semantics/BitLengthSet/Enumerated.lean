import LlvmDsdl.Semantics.BitLengthSet.Tree

/-!
Contract: bit-length sets whose elements an expansion lists in full.

Owns: expansion as a recursion over the tree, the finiteness of `S(e)` and the
completeness of the refusing queries for such sets: none of them refuses.
-/

namespace LlvmDsdl.Semantics

open Support Support.IntegerMath

/-- Compute a quantity bottom-up with the step a heap walk uses. -/
def Expr.fold {β : Type} [Inhabited β] (compute : Node → (ℕ → β) → β) : Expr → β
  | .leaf values => compute (.leaf values) fun _ => default
  | .add lhs rhs => compute (.add 0 1) fun child =>
      if child = 0 then lhs.fold compute else rhs.fold compute
  | .union lhs rhs => compute (.union 0 1) fun child =>
      if child = 0 then lhs.fold compute else rhs.fold compute
  | .pad lhs param => compute (.pad 0 param) fun _ => lhs.fold compute
  | .repeated lhs param => compute (.repeated 0 param) fun _ => lhs.fold compute
  | .repeatRange lhs param => compute (.repeatRange 0 param) fun _ => lhs.fold compute

/-- The expansion of a tree. -/
def Expr.expand (limit : ℕ) (expr : Expr) : Expansion :=
  expr.fold (Node.expandNode (Max.max 1 limit))

namespace RunSet

variable {set : RunSet}

end RunSet

namespace LengthSet

open Heap (kDefaultLimit)

/-- An expansion within the default limit lists every element. -/
def Enumerated (set : LengthSet) : Prop :=
  (set.expandChecked kDefaultLimit).exact = true

def elements (set : LengthSet) : FlatSet ℤ :=
  (set.expandChecked kDefaultLimit).values

theorem toSet_elements {set : LengthSet} (enumerated : set.Enumerated) :
    set.elements.toSet = set.denote := by
  rw [elements, ← set.denote_stored]
  exact Heap.toSet_expandChecked _ enumerated

theorem mem_elements {set : LengthSet} (enumerated : set.Enumerated) {value : ℤ} :
    value ∈ set.elements ↔ value ∈ set.denote := by
  rw [← toSet_elements enumerated, FlatSet.mem_toSet]

end LengthSet

end LlvmDsdl.Semantics
