import Mathlib
import LlvmDsdl.Semantics.BitLengthSet.Bounds

/-!
Contract: symbolic residues of a bit-length expression.

Owns: the dense residue mask and its modular sums, the cycle-detecting
iterations, the walk over `(node, modulus)` contexts, and the theorem that the
residues it reports are those of the saturating denotation.

A mask is one natural number, bit `i` set when residue `i` is present; the
split into a first word and further words is storage only.
-/

namespace LlvmDsdl.Semantics

open Support Support.IntegerMath Library.PostOrder Library.Rounding Library.Sumset

def kResidueModulusCap : ℤ := 2 ^ 16

/-- A dense bitmask over `{0, ..., modulus - 1}`. -/
structure ResidueSet where
  modulus : ℤ
  bits : ℕ
  deriving DecidableEq, Inhabited

namespace ResidueSet

/-- The empty mask. -/
def ofModulus (m : ℤ) : ResidueSet := ⟨m, 0⟩

def add (set : ResidueSet) (residue : ℤ) : ResidueSet :=
  { set with bits := set.bits ||| 1 <<< residue.toNat }

def unionWith (set other : ResidueSet) : ResidueSet :=
  { set with bits := set.bits ||| other.bits }

/-- The present residues in ascending order, as `forEach` visits them. -/
def elements (set : ResidueSet) : List ℤ :=
  ((List.range set.modulus.toNat).filter set.bits.testBit).map Int.ofNat

/-- The singleton mask `{0}`. -/
def zeroResidue (m : ℤ) : ResidueSet :=
  (ofModulus m).add 0

/-- `{ (x + y) mod m }`; each operand is below `m`. -/
def minkowskiSumMod (a b : ResidueSet) : ResidueSet :=
  a.elements.foldl (fun out x => b.elements.foldl (fun out y =>
    let s := x + y
    out.add (if s ≥ a.modulus then s - a.modulus else s)) out) (ofModulus a.modulus)

/-- The loop of `exactlyKSumMod`: `seq` holds the terms before `cur` is next. -/
def exactlyKSumLoop (r : ResidueSet) (count : ℕ) : ℕ → List ResidueSet → ResidueSet → ResidueSet
  | 0, _, cur => cur
  | remaining + 1, seq, cur =>
      let next := minkowskiSumMod cur r
      match seq.findIdx? (·.bits == next.bits) with
      | some j =>
          let period := seq.length - j
          seq.getD (j + (count - j) % period) next
      | none => exactlyKSumLoop r count remaining (seq ++ [next]) next

/-- Residues of the `count`-fold self-sum. -/
def exactlyKSumMod (r : ResidueSet) (count m : ℤ) : ResidueSet :=
  let cur := zeroResidue m
  if count ≤ 0 then cur else exactlyKSumLoop r count.toNat count.toNat [cur] cur

/-- The loop of `unionUpToKSumMod`; it stops at the first repeated term. -/
def unionUpToKSumLoop (r : ResidueSet) :
    ℕ → List ResidueSet → ResidueSet → ResidueSet → ResidueSet
  | 0, _, u, _ => u
  | remaining + 1, seen, u, cur =>
      let next := minkowskiSumMod cur r
      let grown := u.unionWith next
      if seen.any (·.bits == next.bits) then grown
      else unionUpToKSumLoop r remaining (seen ++ [next]) grown next

/-- Residues of the self-sums of at most `countMax` draws. -/
def unionUpToKSumMod (r : ResidueSet) (countMax m : ℤ) : ResidueSet :=
  let u := zeroResidue m
  if countMax ≤ 0 then u else unionUpToKSumLoop r countMax.toNat [u] u u

def toFlatSet (set : ResidueSet) : FlatSet ℤ :=
  set.elements.foldl (fun out r => out.insert r) FlatSet.empty

/-- The mask holds exactly the residues in `values`, all of them below `m`. -/
structure Represents (set : ResidueSet) (m : ℤ) (values : Set ℤ) : Prop where
  modulus : set.modulus = m
  range : ∀ x ∈ values, 0 ≤ x ∧ x < m
  bits : ∀ i : ℕ, set.bits.testBit i = true ↔ (i : ℤ) ∈ values

variable {set other : ResidueSet} {m : ℤ} {values otherValues : Set ℤ}

theorem Represents.congr (represents : set.Represents m values) (same : values = otherValues) :
    set.Represents m otherValues :=
  same ▸ represents

theorem represents_ofModulus (m : ℤ) : (ofModulus m).Represents m ∅ :=
  ⟨rfl, fun _ member => member.elim, fun i => by simp [ofModulus]⟩

theorem Represents.add (represents : set.Represents m values) {residue : ℤ}
    (range : 0 ≤ residue ∧ residue < m) :
    (set.add residue).Represents m (insert residue values) := by
  refine ⟨represents.modulus, ?_, fun i => ?_⟩
  · rintro x (rfl | member)
    · exact range
    · exact represents.range x member
  · rw [ResidueSet.add, Nat.testBit_or, Nat.one_shiftLeft, Nat.testBit_two_pow, Bool.or_eq_true,
      represents.bits, decide_eq_true_eq, Set.mem_insert_iff, or_comm]
    exact or_congr_left (by omega)

theorem Represents.unionWith (represents : set.Represents m values)
    (otherRepresents : other.Represents m otherValues) :
    (set.unionWith other).Represents m (values ∪ otherValues) := by
  refine ⟨represents.modulus, ?_, fun i => ?_⟩
  · rintro x (left | right)
    · exact represents.range x left
    · exact otherRepresents.range x right
  · rw [ResidueSet.unionWith, Nat.testBit_or, Bool.or_eq_true, represents.bits,
      otherRepresents.bits]
    rfl

theorem Represents.mem_elements (represents : set.Represents m values) (x : ℤ) :
    x ∈ set.elements ↔ x ∈ values := by
  simp only [elements, List.mem_map, List.mem_filter, List.mem_range, represents.modulus]
  constructor
  · rintro ⟨i, ⟨_, present⟩, rfl⟩
    exact (represents.bits i).mp present
  · intro member
    obtain ⟨nonneg, below⟩ := represents.range x member
    refine ⟨x.toNat, ⟨by omega, (represents.bits _).mpr ?_⟩, Int.toNat_of_nonneg nonneg⟩
    rwa [Int.toNat_of_nonneg nonneg]

theorem Represents.bits_eq_iff (represents : set.Represents m values)
    (otherRepresents : other.Represents m otherValues) :
    set.bits = other.bits ↔ values = otherValues := by
  constructor
  · intro same
    ext x
    rw [← represents.mem_elements, ← otherRepresents.mem_elements, elements, elements,
      represents.modulus, otherRepresents.modulus, same]
  · rintro rfl
    refine Nat.eq_of_testBit_eq fun i => ?_
    rw [Bool.eq_iff_iff, represents.bits, otherRepresents.bits]

theorem Represents.foldl_add (f : ℤ → ℤ) (list : List ℤ)
    (range : ∀ x ∈ list, 0 ≤ f x ∧ f x < m) :
    ∀ {set : ResidueSet} {values : Set ℤ}, set.Represents m values →
      (list.foldl (fun out x => out.add (f x)) set).Represents m
        (values ∪ f '' {x | x ∈ list}) := by
  induction list with
  | nil => intro set values represents; exact represents.congr (by simp)
  | cons first rest ih =>
      intro set values represents
      refine (ih (fun x member => range x (by simp [member]))
        (represents.add (range first (by simp)))).congr ?_
      ext x
      simp only [Set.mem_union, Set.mem_insert_iff, Set.mem_image, Set.mem_ofPred_eq,
        List.mem_cons, exists_eq_or_imp, eq_comm (a := x)]
      tauto

/-- Addition modulo `m`. -/
abbrev addMod (m x y : ℤ) : ℤ := (x + y) % m

theorem Represents.minkowskiSumMod (left : set.Represents m values)
    (right : other.Represents m otherValues) :
    (minkowskiSumMod set other).Represents m (Set.image2 (addMod m) values otherValues) := by
  have reduce : ∀ x ∈ values, ∀ y ∈ otherValues,
      (if x + y ≥ m then x + y - m else x + y) = addMod m x y := by
    intro x inLeft y inRight
    have xRange := left.range x inLeft
    have yRange := right.range y inRight
    rw [addMod]
    split
    · rw [← Int.sub_emod_right, Int.emod_eq_of_lt (by omega) (by omega)]
    · rw [Int.emod_eq_of_lt (by omega) (by omega)]
  have rows : ∀ lefts : List ℤ, (∀ x ∈ lefts, x ∈ values) →
      ∀ {start : ResidueSet} {reached : Set ℤ}, start.Represents m reached →
        (lefts.foldl (fun out x => other.elements.foldl (fun out y =>
          out.add (if x + y ≥ m then x + y - m else x + y)) out) start).Represents m
            (reached ∪ Set.image2 (addMod m) {x | x ∈ lefts} otherValues) := by
    intro lefts
    induction lefts with
    | nil => intro _ start reached represents; exact represents.congr (by simp)
    | cons first rest ih =>
        intro inLeft start reached represents
        have firstIn := inLeft first (by simp)
        have row := Represents.foldl_add
          (fun y => if first + y ≥ m then first + y - m else first + y)
          other.elements (fun y member => by
            have yIn := (right.mem_elements y).mp member
            have xRange := left.range first firstIn
            have yRange := right.range y yIn
            split <;> omega) represents
        refine (ih (fun x member => inLeft x (by simp [member])) row).congr ?_
        have rowImage : (fun y => if first + y ≥ m then first + y - m else first + y) ''
            {y | y ∈ other.elements} = addMod m first '' otherValues := by
          have same : {y | y ∈ other.elements} = otherValues := Set.ext right.mem_elements
          rw [same]
          exact Set.image_congr (reduce first firstIn)
        have split : {x | x ∈ first :: rest} = {first} ∪ {x | x ∈ rest} := by
          ext x
          simp
        rw [rowImage, split, Set.image2_union_left, Set.image2_singleton_left, Set.union_assoc]
  have all := rows set.elements (fun x member => (left.mem_elements x).mp member)
    (represents_ofModulus m)
  have same : {x | x ∈ set.elements} = values := Set.ext left.mem_elements
  rw [same, Set.empty_union] at all
  rw [ResidueSet.minkowskiSumMod, left.modulus]
  exact all

theorem represents_zeroResidue (positive : 0 < m) : (zeroResidue m).Represents m {0} :=
  ((represents_ofModulus m).add ⟨le_rfl, positive⟩).congr (by simp)

variable {r : ResidueSet} {draws : Set ℤ}

/-- The walk over the terms `A_k` meets each only once before it closes. -/
theorem exactlyKSumLoop_represents (drawn : r.Represents m draws) (count remaining : ℕ) :
    ∀ {done : ℕ} {seq : List ResidueSet} {cur : ResidueSet}, done + remaining = count →
      seq.length = done + 1 →
      (∀ (k : ℕ) (term : ResidueSet), seq[k]? = some term →
        term.Represents m (foldSums (addMod m) 0 draws k)) →
      cur.Represents m (foldSums (addMod m) 0 draws done) →
        (exactlyKSumLoop r count remaining seq cur).Represents m
          (foldSums (addMod m) 0 draws count) := by
  induction remaining with
  | zero =>
      intro done seq cur total _ _ current
      have same : done = count := total
      exact same ▸ current
  | succ remaining ih =>
      intro done seq cur total length terms current
      have next : (minkowskiSumMod cur r).Represents m (foldSums (addMod m) 0 draws (done + 1)) :=
        current.minkowskiSumMod drawn
      rw [exactlyKSumLoop]
      dsimp only
      cases found : seq.findIdx? (·.bits == (minkowskiSumMod cur r).bits) with
      | some j =>
          obtain ⟨inside, sameBits, _⟩ := List.findIdx?_eq_some_iff_getElem.mp found
          have jTerm := terms j _ (List.getElem?_eq_getElem inside)
          have cycle := (jTerm.bits_eq_iff next).mp (by simpa using sameBits)
          have closes : foldSums (addMod m) 0 draws (j + (seq.length - j)) =
              foldSums (addMod m) 0 draws j := by
            rw [Nat.add_sub_cancel' inside.le, length, cycle]
          have wrapped := foldSums_cycle closes (count - j)
          rw [Nat.add_sub_cancel' (by omega)] at wrapped
          have small := Nat.mod_lt (count - j) (show 0 < seq.length - j by omega)
          have indexInside : j + (count - j) % (seq.length - j) < seq.length := by omega
          rw [wrapped]
          dsimp only
          rw [List.getD_eq_getElem?_getD, List.getElem?_eq_getElem indexInside]
          exact terms _ _ (List.getElem?_eq_getElem indexInside)
      | none =>
          refine ih (by omega) (by simp [length]) (fun k term present => ?_) next
          rcases Nat.lt_or_ge k seq.length with old | new
          · rw [List.getElem?_append_left old] at present
            exact terms k term present
          · rw [List.getElem?_append_right new, List.getElem?_singleton] at present
            split at present
            · rename_i atEnd
              have position : k = done + 1 := by omega
              rw [position, ← Option.some.inj present]
              exact next
            · exact absurd present (by simp)

theorem exactlyKSumMod_represents (positive : 0 < m) (drawn : r.Represents m draws) (count : ℤ) :
    (exactlyKSumMod r count m).Represents m (foldSums (addMod m) 0 draws count.toNat) := by
  have zero := represents_zeroResidue positive
  rw [exactlyKSumMod]
  split
  · rename_i none
    rw [Int.toNat_eq_zero.mpr none]
    exact zero
  · refine exactlyKSumLoop_represents drawn count.toNat count.toNat (Nat.zero_add _) rfl ?_ zero
    intro k term present
    rw [List.getElem?_singleton] at present
    split at present
    · rename_i first
      rw [first, ← Option.some.inj present]
      exact zero
    · exact absurd present (by simp)

theorem unionUpToKSumLoop_represents (drawn : r.Represents m draws) (remaining : ℕ) :
    ∀ {done : ℕ} {seen : List ResidueSet} {u cur : ResidueSet},
      (∀ term ∈ seen, ∃ k ≤ done, term.Represents m (foldSums (addMod m) 0 draws k)) →
      u.Represents m (foldSumsUpTo (addMod m) 0 draws done) →
      cur.Represents m (foldSums (addMod m) 0 draws done) →
        (unionUpToKSumLoop r remaining seen u cur).Represents m
          (foldSumsUpTo (addMod m) 0 draws (done + remaining)) := by
  induction remaining with
  | zero => intro done seen u cur _ union _; exact union
  | succ remaining ih =>
      intro done seen u cur terms union current
      have next : (minkowskiSumMod cur r).Represents m (foldSums (addMod m) 0 draws (done + 1)) :=
        current.minkowskiSumMod drawn
      have grown := (union.unionWith next).congr (foldSumsUpTo_succ done).symm
      rw [unionUpToKSumLoop]
      split
      · rename_i met
        obtain ⟨term, member, sameBits⟩ := List.any_eq_true.mp met
        obtain ⟨k, low, represents⟩ := terms term member
        have cycle := (represents.bits_eq_iff next).mp (by simpa using sameBits)
        exact grown.congr (foldSumsUpTo_of_cycle (Nat.lt_succ_of_le low) (by omega)
          cycle.symm).symm
      · have extended : ∀ term ∈ seen ++ [minkowskiSumMod cur r], ∃ k ≤ done + 1,
            term.Represents m (foldSums (addMod m) 0 draws k) := by
          intro term member
          rcases List.mem_append.mp member with old | new
          · exact (terms term old).imp fun k bound => ⟨bound.1.trans (Nat.le_succ _), bound.2⟩
          · exact ⟨done + 1, le_rfl, List.mem_singleton.mp new ▸ next⟩
        have later := ih extended grown next
        rwa [Nat.add_right_comm, Nat.add_assoc] at later

theorem unionUpToKSumMod_represents (positive : 0 < m) (drawn : r.Represents m draws)
    (countMax : ℤ) :
    (unionUpToKSumMod r countMax m).Represents m
      (foldSumsUpTo (addMod m) 0 draws countMax.toNat) := by
  have zero := represents_zeroResidue positive
  have zeroUnion : (zeroResidue m).Represents m (foldSumsUpTo (addMod m) 0 draws 0) :=
    zero.congr foldSumsUpTo_zero.symm
  rw [unionUpToKSumMod]
  split
  · rename_i none
    rw [Int.toNat_eq_zero.mpr none]
    exact zeroUnion
  · have all := unionUpToKSumLoop_represents drawn countMax.toNat
      (fun term member => ⟨0, le_rfl, List.mem_singleton.mp member ▸ zero⟩) zeroUnion zero
    rwa [Nat.zero_add] at all

theorem Represents.mem_toFlatSet (represents : set.Represents m values) (x : ℤ) :
    x ∈ set.toFlatSet ↔ x ∈ values := by
  have inserted : ∀ (list : List ℤ) (out : FlatSet ℤ),
      x ∈ list.foldl (fun out r => out.insert r) out ↔ x ∈ out ∨ x ∈ list := by
    intro list
    induction list with
    | nil => intro out; simp
    | cons first rest ih =>
        intro out
        rw [List.foldl_cons, ih, FlatSet.mem_insert, List.mem_cons]
        tauto
  rw [toFlatSet, inserted, represents.mem_elements]
  exact or_iff_right List.not_mem_nil

end ResidueSet

open ResidueSet

namespace Node

/-- The `(node, modulus)` contexts one context needs. Padding widens the
modulus, and a modulus past the cap refuses. -/
def residueChildren (mod : ℤ) (node : Node) : Option (List (ℕ × ℤ)) :=
  if mod > kResidueModulusCap then none
  else
    match node with
    | leaf _ => some []
    | add lhs rhs => some [(rhs, mod), (lhs, mod)]
    | union lhs rhs => some [(rhs, mod), (lhs, mod)]
    | pad lhs param =>
        (lcmAtMost (max 1 param) mod kResidueModulusCap).map fun widened => [(lhs, widened)]
    | repeated lhs _ => some [(lhs, mod)]
    | repeatRange lhs _ => some [(lhs, mod)]

/-- The residues of one context from those of the contexts it needs. -/
def residueStep (mod : ℤ) : Node → (ℕ × ℤ → ResidueSet) → ResidueSet
  | leaf values, _ =>
      let rs := values.data.foldl (fun rs v => rs.add (euclideanModulo v mod)) (ofModulus mod)
      if values.data.isEmpty then rs.add 0 else rs
  | add lhs rhs, memo => minkowskiSumMod (memo (lhs, mod)) (memo (rhs, mod))
  | union lhs rhs, memo =>
      ((ofModulus mod).unionWith (memo (lhs, mod))).unionWith (memo (rhs, mod))
  | pad lhs param, memo =>
      let a := max 1 param
      let widened := (lcmAtMost a mod kResidueModulusCap).getD 0
      (memo (lhs, widened)).elements.foldl (fun rs r =>
        let rem := r.tmod a
        let padded := if rem = 0 then r else r + (a - rem)
        rs.add (padded.tmod mod)) (ofModulus mod)
  | repeated lhs param, memo =>
      (ofModulus mod).unionWith (exactlyKSumMod (memo (lhs, mod)) (max 0 param) mod)
  | repeatRange lhs param, memo =>
      (ofModulus mod).unionWith (unionUpToKSumMod (memo (lhs, mod)) (max 0 param) mod)

end Node

namespace Heap

variable (heap : Heap)

def residueGraph : Graph (ℕ × ℤ) :=
  ⟨fun context => (heap.node context.1).residueChildren context.2⟩

/-- `Node::residues(modulus, out)`: `none` when the strategy does not apply. -/
def residues (modulus : ℤ) (out : ResidueSet) (set : BitLengthSet heap) : Option ResidueSet :=
  if heap.saturationReachable set then none
  else
    (heap.residueGraph.postOrder (set + 1) (set, modulus)).map fun order =>
      out.unionWith (Graph.fetch (Graph.evaluate (fun context memo =>
        (heap.node context.1).residueStep context.2 memo) order) (set, modulus))

def ResidueContext (context : ℕ × ℤ) : Prop :=
  context.1 < heap.nodes.length ∧ 0 < context.2

theorem residueGraph_descending : heap.residueGraph.Descending heap.ResidueContext Prod.fst := by
  have lower : ∀ {context : ℕ × ℤ} {below : List (ℕ × ℤ)} {child : ℕ × ℤ},
      heap.ResidueContext context → heap.residueGraph.children context = some below →
        child ∈ below → child.1 < context.1 ∧ 0 < child.2 := by
    rintro ⟨address, mod⟩ below child ⟨inside, positive⟩ childrenEq member
    have wellFormed := heap.node_wellFormed inside
    simp only [residueGraph, Node.residueChildren] at childrenEq
    split at childrenEq
    · exact absurd childrenEq (by simp)
    · cases nodeEq : heap.node address <;> rw [nodeEq] at childrenEq wellFormed <;>
        simp only [Node.WellFormed] at wellFormed
      case leaf values =>
        rw [← Option.some.inj childrenEq] at member
        exact absurd member List.not_mem_nil
      case pad lhs param =>
        obtain ⟨widened, widenedEq, rfl⟩ := Option.map_eq_some_iff.mp childrenEq
        rw [List.mem_singleton.mp member]
        exact ⟨wellFormed.1, (lcmAtMost_eq_some widenedEq).1⟩
      all_goals
        rw [← Option.some.inj childrenEq] at member
        simp only [List.mem_cons, List.not_mem_nil, or_false] at member
      case add lhs rhs => rcases member with rfl | rfl <;> exact ⟨by simp [wellFormed], positive⟩
      case union lhs rhs => rcases member with rfl | rfl <;> exact ⟨by simp [wellFormed], positive⟩
      case repeated lhs param => exact member ▸ ⟨wellFormed.1, positive⟩
      case repeatRange lhs param => exact member ▸ ⟨wellFormed.1, positive⟩
  exact ⟨fun context childrenEq member =>
    ⟨(lower context childrenEq member).1.trans context.1, (lower context childrenEq member).2⟩,
    fun context childrenEq member => (lower context childrenEq member).1⟩

def residueSpec (expr : Expr) (mod : ℤ) : Set ℤ :=
  (· % mod) '' expr.exactDenote

theorem residueSpec_sums {expr : Expr} (mod : ℤ) (count : ℕ) :
    foldSums (addMod mod) 0 (residueSpec expr mod) count =
      (· % mod) '' sums expr.exactDenote count := by
  have carried := image_foldSums (· % mod) (addMod mod) (Set.mem_univ 0)
    (Set.subset_univ expr.exactDenote) (fun x _ y _ => Set.mem_univ (x + y))
    (fun x _ y _ => Int.add_emod x y mod) count
  rw [Int.zero_emod] at carried
  exact carried.symm

theorem residueSpec_sumsUpTo {expr : Expr} (mod : ℤ) (bound : ℕ) :
    foldSumsUpTo (addMod mod) 0 (residueSpec expr mod) bound =
      (· % mod) '' sumsUpTo expr.exactDenote bound := by
  have carried := image_foldSumsUpTo (· % mod) (addMod mod) (Set.mem_univ 0)
    (Set.subset_univ expr.exactDenote) (fun x _ y _ => Set.mem_univ (x + y))
    (fun x _ y _ => Int.add_emod x y mod) bound
  rw [Int.zero_emod] at carried
  exact carried.symm

theorem padResidue_eq {r a : ℤ} (nonneg : 0 ≤ r) (positive : 0 < a) :
    (if r.tmod a = 0 then r else r + (a - r.tmod a)) = roundUp r a := by
  split
  · rename_i aligned
    exact (roundUp_of_dvd (Int.dvd_of_tmod_eq_zero aligned)).symm
  · rename_i unaligned
    rw [roundUp, neg_emod_eq_sub_tmod nonneg positive unaligned]

theorem residueStep_represents (node : Node) {mod : ℤ} (positive : 0 < mod)
    {below : List (ℕ × ℤ)} (childrenEq : node.residueChildren mod = some below)
    (memo : ℕ × ℤ → ResidueSet) (wellFormed : (heap.unfoldNode node).WellFormed)
    (recorded : ∀ child ∈ below,
      (memo child).Represents child.2 (residueSpec (heap.expr child.1) child.2)) :
    (node.residueStep mod memo).Represents mod (residueSpec (heap.unfoldNode node) mod) := by
  unfold Node.residueChildren at childrenEq
  split at childrenEq
  · exact absurd childrenEq (by simp)
  cases node with
  | leaf values =>
      have added := Represents.foldl_add (fun v => euclideanModulo v mod) values.data
        (fun v _ => by
          rw [euclideanModulo_eq positive]
          exact ⟨Int.emod_nonneg v (ne_of_gt positive), Int.emod_lt_of_pos v positive⟩)
        (represents_ofModulus mod)
      have nonempty : values.data.isEmpty = false := by simpa using wellFormed.1
      rw [Node.residueStep, nonempty, if_neg (by simp)]
      refine added.congr ?_
      rw [Set.empty_union]
      exact Set.image_congr fun v _ => euclideanModulo_eq positive
  | add lhs rhs =>
      have childrenAre := Option.some.inj childrenEq
      have left := recorded (lhs, mod) (by simp [← childrenAre])
      have right := recorded (rhs, mod) (by simp [← childrenAre])
      refine (left.minkowskiSumMod right).congr ?_
      rw [residueSpec, residueSpec, residueSpec, Set.image2_image_left, Set.image2_image_right]
      change _ = (· % mod) '' Set.image2 (fun x y => x + y) (heap.expr lhs).exactDenote
        (heap.expr rhs).exactDenote
      rw [Set.image_image2]
      exact Set.image2_congr fun x _ y _ => (Int.add_emod x y mod).symm
  | union lhs rhs =>
      have childrenAre := Option.some.inj childrenEq
      have left := recorded (lhs, mod) (by simp [← childrenAre])
      have right := recorded (rhs, mod) (by simp [← childrenAre])
      refine (((represents_ofModulus mod).unionWith left).unionWith right).congr ?_
      rw [Set.empty_union, residueSpec, residueSpec, ← Set.image_union]
      rfl
  | pad lhs param =>
      obtain ⟨widened, widenedEq, rfl⟩ := Option.map_eq_some_iff.mp childrenEq
      have child := recorded (lhs, widened) (by simp)
      obtain ⟨_, _, alignmentDivides, modulusDivides⟩ := lcmAtMost_eq_some widenedEq
      have padPositive : 0 < param := wellFormed.2.1
      rw [max_eq_right wellFormed.2.1] at widenedEq alignmentDivides
      have step : ∀ r ∈ (memo (lhs, widened)).elements,
          (if r.tmod param = 0 then r else r + (param - r.tmod param)).tmod mod =
            roundUp r param % mod := by
        intro r member
        have nonneg := (child.range r ((child.mem_elements r).mp member)).1
        rw [padResidue_eq nonneg padPositive,
          Int.tmod_eq_emod_of_nonneg (nonneg.trans (le_roundUp padPositive r))]
      have added := Represents.foldl_add (fun r =>
          (if r.tmod param = 0 then r else r + (param - r.tmod param)).tmod mod)
        (memo (lhs, widened)).elements
        (fun r member => by
          rw [step r member]
          exact ⟨Int.emod_nonneg _ (ne_of_gt positive), Int.emod_lt_of_pos _ positive⟩)
        (represents_ofModulus mod)
      rw [Node.residueStep, max_eq_right wellFormed.2.1, widenedEq]
      refine added.congr ?_
      have stepImage : (fun r =>
          (if r.tmod param = 0 then r else r + (param - r.tmod param)).tmod mod) ''
            {r | r ∈ (memo (lhs, widened)).elements} =
          (fun r => roundUp r param % mod) '' residueSpec (heap.expr lhs) widened := by
        rw [show {r | r ∈ (memo (lhs, widened)).elements} =
          residueSpec (heap.expr lhs) widened from Set.ext child.mem_elements]
        exact Set.image_congr fun r member => step r ((child.mem_elements r).mpr member)
      rw [Set.empty_union, stepImage, residueSpec, Set.image_image]
      change _ = (· % mod) '' ((fun v => roundUp v param) '' (heap.expr lhs).exactDenote)
      rw [Set.image_image]
      exact Set.image_congr fun v _ => roundUp_emod v alignmentDivides modulusDivides
  | repeated lhs param =>
      have childrenAre := Option.some.inj childrenEq
      have child := recorded (lhs, mod) (by simp [← childrenAre])
      have summed := exactlyKSumMod_represents positive child param
      rw [residueSpec_sums] at summed
      rw [Node.residueStep, max_eq_right wellFormed.2.1]
      exact ((represents_ofModulus mod).unionWith summed).congr (Set.empty_union _)
  | repeatRange lhs param =>
      have childrenAre := Option.some.inj childrenEq
      have child := recorded (lhs, mod) (by simp [← childrenAre])
      have summed := unionUpToKSumMod_represents positive child param
      rw [residueSpec_sumsUpTo] at summed
      rw [Node.residueStep, max_eq_right wellFormed.2.1]
      exact ((represents_ofModulus mod).unionWith summed).congr (Set.empty_union _)

theorem residues_represents {modulus : ℤ} (positive : 0 < modulus) (set : BitLengthSet heap)
    {result : ResidueSet} (answered : heap.residues modulus (ofModulus modulus) set = some result) :
    result.Represents modulus ((· % modulus) '' heap.denote set) := by
  rw [residues] at answered
  split at answered
  · exact absurd answered (by simp)
  · rename_i unsaturated
    obtain ⟨order, walked, rfl⟩ := Option.map_eq_some_iff.mp answered
    have root : heap.ResidueContext (set, modulus) := ⟨set.isLt, positive⟩
    have evaluated := Graph.fetch_holds
      (fun (context : ℕ × ℤ) (rs : ResidueSet) =>
        rs.Represents context.2 (residueSpec (heap.expr context.1) context.2))
      heap.residueGraph_descending
      (fun context below inContext childrenEq memo recorded => by
        have wellFormed := heap.expr_wellFormed inContext.1
        rw [heap.expr_eq_unfoldNode inContext.1] at wellFormed ⊢
        exact heap.residueStep_represents _ inContext.2 childrenEq memo wellFormed recorded)
      root walked
    refine ((represents_ofModulus modulus).unionWith evaluated).congr ?_
    rw [Set.empty_union, residueSpec,
      heap.denote_eq_exactDenote set (by simpa using unsaturated)]

end Heap

end LlvmDsdl.Semantics
