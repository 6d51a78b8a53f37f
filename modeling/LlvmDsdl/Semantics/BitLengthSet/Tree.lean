import LlvmDsdl.Semantics.BitLengthSet.Compare

/-!
Contract: `BitLengthSet` objects as values, for code that only uses the class.

Owns: well-formed expression trees with the public constructors, their storage
in a heap, and each query as the heap's answer for the stored tree.

Node sharing changes no answer except that two objects with one root compare
equal without work; whether two objects share a root is an argument of the two
comparisons.
-/

namespace LlvmDsdl.Semantics

open Support Support.IntegerMath Library.Rounding Library.Sumset

namespace Heap

theorem node_of_prefix {heap grown : Heap} (extension : heap.nodes <+: grown.nodes) {address : ℕ}
    (inside : address < heap.nodes.length) : grown.node address = heap.node address := by
  obtain ⟨rest, joined⟩ := extension
  rw [node, node, ← joined, List.getElem?_append_left inside]

theorem expr_of_prefix {heap grown : Heap} (extension : heap.nodes <+: grown.nodes) :
    ∀ {address : ℕ}, address < heap.nodes.length → grown.expr address = heap.expr address := by
  intro address
  induction address using Nat.strong_induction_on with
  | _ address ih =>
      intro inside
      have below : ∀ {child : ℕ}, child < address → grown.expr child = heap.expr child :=
        fun lower => ih _ lower (lower.trans inside)
      have nodeWellFormed := heap.node_wellFormed inside
      rw [grown.expr_eq_unfoldNode (inside.trans_le extension.length_le),
        heap.expr_eq_unfoldNode inside, node_of_prefix extension inside]
      cases nodeEq : heap.node address <;> rw [nodeEq] at nodeWellFormed
      case leaf values => rfl
      case add lhs rhs => rw [unfoldNode, unfoldNode, below nodeWellFormed.1, below nodeWellFormed.2]
      case union lhs rhs =>
        rw [unfoldNode, unfoldNode, below nodeWellFormed.1, below nodeWellFormed.2]
      case pad lhs param => rw [unfoldNode, unfoldNode, below nodeWellFormed.1]
      case repeated lhs param => rw [unfoldNode, unfoldNode, below nodeWellFormed.1]
      case repeatRange lhs param => rw [unfoldNode, unfoldNode, below nodeWellFormed.1]

theorem prefix_allocate (heap : Heap) (node : Node)
    (wellFormed : node.WellFormed heap.nodes.length) :
    heap.nodes <+: (heap.allocate node wellFormed).1.nodes := by
  rw [nodes_allocate]
  exact List.prefix_append _ _

theorem expr_allocate (heap : Heap) (node : Node)
    (wellFormed : node.WellFormed heap.nodes.length) :
    (heap.allocate node wellFormed).1.expr (heap.allocate node wellFormed).2 =
      heap.unfoldNode node := by
  have extension := heap.prefix_allocate node wellFormed
  have stored : (heap.allocate node wellFormed).1.node heap.nodes.length = node := by
    rw [Heap.node, nodes_allocate, List.getElem?_append_right le_rfl]
    simp
  rw [expr_eq_unfoldNode _ (heap.allocate node wellFormed).2.isLt]
  rw [show ((heap.allocate node wellFormed).2 : ℕ) = heap.nodes.length from rfl, stored]
  cases node with
  | leaf values => rfl
  | add lhs rhs =>
      rw [unfoldNode, unfoldNode, expr_of_prefix extension wellFormed.1,
        expr_of_prefix extension wellFormed.2]
  | union lhs rhs =>
      rw [unfoldNode, unfoldNode, expr_of_prefix extension wellFormed.1,
        expr_of_prefix extension wellFormed.2]
  | pad lhs param => rw [unfoldNode, unfoldNode, expr_of_prefix extension wellFormed.1]
  | repeated lhs param => rw [unfoldNode, unfoldNode, expr_of_prefix extension wellFormed.1]
  | repeatRange lhs param => rw [unfoldNode, unfoldNode, expr_of_prefix extension wellFormed.1]

/-- A heap grown from `base` that holds `expr` at `root`. -/
structure Stored (base : Heap) (expr : Expr) where
  heap : Heap
  extension : base.nodes <+: heap.nodes
  root : BitLengthSet heap
  holds : heap.expr root = expr

def Stored.ofNode {base grown : Heap} (extension : base.nodes <+: grown.nodes) (node : Node)
    (wellFormed : node.WellFormed grown.nodes.length) {expr : Expr}
    (unfolds : grown.unfoldNode node = expr) : Stored base expr :=
  { heap := (grown.allocate node wellFormed).1
    extension := extension.trans (grown.prefix_allocate node wellFormed)
    root := (grown.allocate node wellFormed).2
    holds := (grown.expr_allocate node wellFormed).trans unfolds }

end Heap

/-- Allocate the nodes of a tree, operands first. -/
def Expr.store : (expr : Expr) → expr.WellFormed → (base : Heap) → Heap.Stored base expr
  | .leaf values, wellFormed, base =>
      .ofNode (List.prefix_rfl) (.leaf values) wellFormed rfl
  | .add lhs rhs, wellFormed, base =>
      let left := lhs.store wellFormed.1 base
      let right := rhs.store wellFormed.2 left.heap
      .ofNode (left.extension.trans right.extension) (.add left.root right.root)
        ⟨left.root.isLt.trans_le right.extension.length_le, right.root.isLt⟩ (by
          rw [Heap.unfoldNode, Heap.expr_of_prefix right.extension left.root.isLt, left.holds,
            right.holds])
  | .union lhs rhs, wellFormed, base =>
      let left := lhs.store wellFormed.1 base
      let right := rhs.store wellFormed.2 left.heap
      .ofNode (left.extension.trans right.extension) (.union left.root right.root)
        ⟨left.root.isLt.trans_le right.extension.length_le, right.root.isLt⟩ (by
          rw [Heap.unfoldNode, Heap.expr_of_prefix right.extension left.root.isLt, left.holds,
            right.holds])
  | .pad lhs param, wellFormed, base =>
      let inner := lhs.store wellFormed.1 base
      .ofNode inner.extension (.pad inner.root param) ⟨inner.root.isLt, wellFormed.2⟩ (by
        rw [Heap.unfoldNode, inner.holds])
  | .repeated lhs param, wellFormed, base =>
      let inner := lhs.store wellFormed.1 base
      .ofNode inner.extension (.repeated inner.root param) ⟨inner.root.isLt, wellFormed.2⟩ (by
        rw [Heap.unfoldNode, inner.holds])
  | .repeatRange lhs param, wellFormed, base =>
      let inner := lhs.store wellFormed.1 base
      .ofNode inner.extension (.repeatRange inner.root param) ⟨inner.root.isLt, wellFormed.2⟩ (by
        rw [Heap.unfoldNode, inner.holds])

/-- A `BitLengthSet` object, without the sharing of its nodes. -/
structure LengthSet where
  expr : Expr
  wellFormed : expr.WellFormed

namespace LengthSet

/-- `BitLengthSet(values)`. -/
def ofValues (values : List Int64) : LengthSet :=
  ⟨.leaf (Heap.leafValues values), Heap.leafValues_wellFormed values 0⟩

/-- `BitLengthSet(value)` for a value the caller keeps inside 64 bits. -/
def ofValue (value : ℤ) : LengthSet :=
  ofValues [Int64.ofInt value]

/-- `lhs + rhs`. -/
def add (lhs rhs : LengthSet) : LengthSet :=
  ⟨.add lhs.expr rhs.expr, lhs.wellFormed, rhs.wellFormed⟩

/-- `lhs | rhs`. -/
def union (lhs rhs : LengthSet) : LengthSet :=
  ⟨.union lhs.expr rhs.expr, lhs.wellFormed, rhs.wellFormed⟩

/-- Bring an argument into the range its type has. -/
def toInt64 (value : ℤ) : ℤ :=
  (Int64.ofInt value).toInt

theorem toInt64_inInt64 (value : ℤ) : InInt64 (toInt64 value) :=
  Heap.toInt_inInt64 _

def padToAlignment (set : LengthSet) (alignment : ℤ) : LengthSet :=
  ⟨.pad set.expr (max 1 (toInt64 alignment)), set.wellFormed, le_max_left _ _,
    max_le (by decide) (toInt64_inInt64 alignment).2⟩

/-- Counts below zero are clamped to zero. -/
def repeated (set : LengthSet) (count : ℤ) : LengthSet :=
  ⟨.repeated set.expr (max 0 (toInt64 count)), set.wellFormed, le_max_left _ _,
    max_le int64Max_pos.le (toInt64_inInt64 count).2⟩

/-- Counts below zero are clamped to zero. -/
def repeatRange (set : LengthSet) (countMax : ℤ) : LengthSet :=
  ⟨.repeatRange set.expr (max 0 (toInt64 countMax)), set.wellFormed, le_max_left _ _,
    max_le int64Max_pos.le (toInt64_inInt64 countMax).2⟩

theorem wellFormed_nil (address : ℕ) (node : Node)
    (found : ([] : List Node)[address]? = some node) : node.WellFormed address := by
  rw [List.getElem?_nil] at found
  cases found

/-- The object's nodes in a heap of their own. -/
def stored (set : LengthSet) : Heap.Stored ⟨[], wellFormed_nil⟩ set.expr :=
  set.expr.store set.wellFormed _

/-- `S(e)`. -/
def denote (set : LengthSet) : Set ℤ :=
  set.expr.denote

def min (set : LengthSet) : ℤ :=
  set.stored.heap.min set.stored.root

def max (set : LengthSet) : ℤ :=
  set.stored.heap.max set.stored.root

/-- The extrema coincide. -/
def fixed (set : LengthSet) : Bool :=
  set.min == set.max

def runSet (set : LengthSet) : Option RunSet :=
  set.stored.heap.runSet set.stored.root

def expandChecked (set : LengthSet) (limit : ℕ) : Expansion :=
  set.stored.heap.expandChecked limit set.stored.root

def modulo (set : LengthSet) (divisor : ℤ) : Option (FlatSet ℤ) :=
  set.stored.heap.modulo divisor set.stored.root

/-- Both objects in one heap, at one root when they share it. -/
def storedPair (sameRoot : Bool) (lhs rhs : LengthSet) :
    (heap : Heap) × BitLengthSet heap × BitLengthSet heap :=
  match sameRoot with
  | true => ⟨lhs.stored.heap, lhs.stored.root, lhs.stored.root⟩
  | false =>
      let left := lhs.stored
      let right := rhs.expr.store rhs.wellFormed left.heap
      ⟨right.heap, ⟨left.root, left.root.isLt.trans_le right.extension.length_le⟩, right.root⟩

def equalsExact (sameRoot : Bool) (lhs rhs : LengthSet) : Option Bool :=
  let pair := storedPair sameRoot lhs rhs
  pair.1.equalsExact pair.2.1 pair.2.2

def isSubsetOfExact (sameRoot : Bool) (lhs rhs : LengthSet) : Option Bool :=
  let pair := storedPair sameRoot lhs rhs
  pair.1.isSubsetOfExact pair.2.1 pair.2.2

theorem denote_stored (set : LengthSet) :
    set.stored.heap.denote set.stored.root = set.denote := by
  rw [Heap.denote, set.stored.holds, denote]

theorem min_isLeast (set : LengthSet) : IsLeast set.denote set.min :=
  set.denote_stored ▸ set.stored.heap.min_isLeast set.stored.root

theorem max_isGreatest (set : LengthSet) : IsGreatest set.denote set.max :=
  set.denote_stored ▸ set.stored.heap.max_isGreatest set.stored.root

theorem denote_range (set : LengthSet) {value : ℤ} (member : value ∈ set.denote) :
    0 ≤ value ∧ value ≤ int64Max :=
  Expr.denote_range set.wellFormed member

theorem denote_nonempty (set : LengthSet) : set.denote.Nonempty :=
  set.min_isLeast.nonempty

theorem runSet_denotes {set : LengthSet} {runs : RunSet} (found : set.runSet = some runs) :
    runs.Denotes set.denote :=
  set.denote_stored ▸ set.stored.heap.runSet_denotes found

theorem modulo_eq_some {set : LengthSet} {divisor : ℤ} (positive : 0 < divisor)
    {out : FlatSet ℤ} (found : set.modulo divisor = some out) :
    out.toSet = (· % divisor) '' set.denote := by
  rw [← set.denote_stored]
  exact Heap.modulo_eq_some positive found

theorem expr_storedPair {sameRoot : Bool} {lhs rhs : LengthSet}
    (consistent : sameRoot = true → lhs = rhs) :
    (storedPair sameRoot lhs rhs).1.expr (storedPair sameRoot lhs rhs).2.1 = lhs.expr ∧
      (storedPair sameRoot lhs rhs).1.expr (storedPair sameRoot lhs rhs).2.2 = rhs.expr := by
  cases sameRoot with
  | true =>
      rw [← consistent rfl]
      exact ⟨lhs.stored.holds, lhs.stored.holds⟩
  | false =>
      constructor
      · have kept := Heap.expr_of_prefix
          (rhs.expr.store rhs.wellFormed lhs.stored.heap).extension lhs.stored.root.isLt
        exact kept.trans lhs.stored.holds
      · exact (rhs.expr.store rhs.wellFormed lhs.stored.heap).holds

theorem denote_storedPair {sameRoot : Bool} {lhs rhs : LengthSet}
    (consistent : sameRoot = true → lhs = rhs) :
    (storedPair sameRoot lhs rhs).1.denote (storedPair sameRoot lhs rhs).2.1 = lhs.denote ∧
      (storedPair sameRoot lhs rhs).1.denote (storedPair sameRoot lhs rhs).2.2 = rhs.denote := by
  obtain ⟨left, right⟩ := expr_storedPair consistent
  exact ⟨congrArg Expr.denote left, congrArg Expr.denote right⟩

theorem equalsExact_eq_some {sameRoot : Bool} {lhs rhs : LengthSet} {answer : Bool}
    (consistent : sameRoot = true → lhs = rhs)
    (answered : equalsExact sameRoot lhs rhs = some answer) :
    answer = true ↔ lhs.denote = rhs.denote := by
  obtain ⟨left, right⟩ := denote_storedPair consistent
  rw [← left, ← right]
  exact Heap.equalsExact_eq_some _ answered

theorem isSubsetOfExact_eq_some {sameRoot : Bool} {lhs rhs : LengthSet} {answer : Bool}
    (consistent : sameRoot = true → lhs = rhs)
    (answered : isSubsetOfExact sameRoot lhs rhs = some answer) :
    answer = true ↔ lhs.denote ⊆ rhs.denote := by
  obtain ⟨left, right⟩ := denote_storedPair consistent
  rw [← left, ← right]
  exact Heap.isSubsetOfExact_eq_some _ answered

end LengthSet

end LlvmDsdl.Semantics
