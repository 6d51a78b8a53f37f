import LlvmDsdl.Semantics.OffsetExpression

/-!
Contract: `_offset_` held symbolically and `_offset_` listed in full.

Owns: the two runs of an expression over `_offset_`, when their results agree,
and the runs of the terms over `_offset_` whose symbolic sums do not pass
`INT64_MAX`.
-/

namespace LlvmDsdl.Semantics

open Frontend Support Support.IntegerMath Library.Rounding

/-- One value, or a symbolic set and the set of its elements. -/
def SameValue : Option Value → Option Value → Prop
  | none, none => True
  | some (.bitLengthSet set), some (.set elements) => set.Enumerated ∧ elements = set.rationals
  | left, right => left = right

section Agreement

variable (host : Host) (set : LengthSet)

/-- `_offset_` bound to the symbolic set. -/
def symbolicRun (expr : ExprAST) (diagnostics : List Diagnostic) :
    Option Value × List Diagnostic :=
  evaluateOffset host (.bitLengthSet set) expr diagnostics

/-- `_offset_` bound to the elements of the set. -/
def concreteRun (expr : ExprAST) (diagnostics : List Diagnostic) :
    Option Value × List Diagnostic :=
  evaluateOffset host (.set (.ofFlatSet host.longDoubleLess set.elements)) expr diagnostics

/-- The two runs report the same and yield the same. -/
def Agrees (expr : ExprAST) : Prop :=
  ∀ diagnostics, (symbolicRun host set expr diagnostics).2 = (concreteRun host set expr diagnostics).2 ∧
    SameValue (symbolicRun host set expr diagnostics).1 (concreteRun host set expr diagnostics).1

end Agreement

namespace OffsetTerm

/-- The symbolic set a term with a shift evaluates to. -/
def setOf (set : LengthSet) : OffsetTerm → LengthSet
  | offset _ => set
  | sum _ term addend => (term.setOf set).add (.ofValue addend.integer)
  | sumLeft _ addend term => (term.setOf set).add (.ofValue addend.integer)
  | remainder _ term _ => term.setOf set

variable {set : LengthSet} {term : OffsetTerm} {total : ℤ}

end OffsetTerm

section Terms

variable {host : Host} {set : LengthSet} {term : OffsetTerm} {total : ℤ}

end Terms

end LlvmDsdl.Semantics
