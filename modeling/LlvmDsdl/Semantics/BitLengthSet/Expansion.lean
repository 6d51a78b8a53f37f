import LlvmDsdl.Semantics.BitLengthSet.Bounds

/-!
Contract: materialising a bit-length expression under a size limit.

Owns: `expandNode` with its capped loops, `expandChecked`, and the theorem that
an expansion is a non-empty part of the denotation within the limit, and all of
it when it is reported exact.

Every loop is described by the set of values it has visited: what it keeps is
part of that set, and all of it unless something was dropped.
-/

namespace LlvmDsdl.Semantics

open Support Support.IntegerMath Library.PostOrder Library.Rounding Library.Sumset

/-- `{values, exact}`. -/
structure Expansion where
  values : FlatSet ℤ
  exact : Bool
  deriving DecidableEq

instance : Inhabited Expansion := ⟨⟨FlatSet.singleton 0, true⟩⟩

namespace Expansion

/-! ### Loops -/

/-- Insert a value and drop the greatest one if that exceeds the limit. -/
def keep (limit : ℕ) (out : FlatSet ℤ) (value : ℤ) : FlatSet ℤ × Bool :=
  let inserted := out.insert value
  if inserted.size > limit then (inserted.eraseLast, true) else (inserted, false)

/-- The inner loop of `Add`: one left value against the right values. -/
def addRow (limit : ℕ) (lv : ℤ) : List ℤ → FlatSet ℤ → Bool → FlatSet ℤ × Bool
  | [], out, overflow => (out, overflow)
  | rv :: rest, out, overflow =>
      let s := saturatingAddNonNegative lv rv
      if limit ≤ out.size ∧ s > out.back 0 then (out, true)
      else
        let (kept, dropped) := keep limit out s
        addRow limit lv rest kept (overflow || dropped)

/-- The outer loop of `Add`. -/
def addRows (limit : ℕ) (rmin : ℤ) (right : List ℤ) :
    List ℤ → FlatSet ℤ → Bool → FlatSet ℤ × Bool
  | [], out, overflow => (out, overflow)
  | lv :: rest, out, overflow =>
      if limit ≤ out.size ∧ saturatingAddNonNegative lv rmin > out.back 0 then (out, true)
      else
        let (kept, dropped) := addRow limit lv right out overflow
        addRows limit rmin right rest kept dropped

/-- `while (out.size() > limit)` erase the last element. -/
def trim (limit : ℕ) : ℕ → FlatSet ℤ → Bool → FlatSet ℤ × Bool
  | 0, out, overflow => (out, overflow)
  | fuel + 1, out, overflow =>
      if out.size > limit then trim limit fuel out.eraseLast true else (out, overflow)

/-- The inner loop of a repetition round; it stops at the first dropped value. -/
def roundRow (limit : ℕ) (a : ℤ) : List ℤ → FlatSet ℤ → FlatSet ℤ × Bool
  | [], next => (next, false)
  | b :: rest, next =>
      match keep limit next (saturatingAddNonNegative a b) with
      | (kept, true) => (kept, true)
      | (kept, false) => roundRow limit a rest kept

/-- One repetition round: `acc` plus one more draw. -/
def round (limit : ℕ) (shifted : List ℤ) : List ℤ → FlatSet ℤ → FlatSet ℤ × Bool
  | [], next => (next, false)
  | a :: rest, next =>
      match roundRow limit a shifted next with
      | (kept, true) => (kept, true)
      | (kept, false) => round limit shifted rest kept

/-- The loop of `Repeat`: it stops at `remaining = 0` or at a fixed point. -/
def repeatLoop (limit : ℕ) (shifted : FlatSet ℤ) : ℕ → FlatSet ℤ → Bool → FlatSet ℤ × Bool
  | 0, acc, exact => (acc, exact)
  | remaining + 1, acc, exact =>
      let (next, overflow) := round limit shifted.data acc.data FlatSet.empty
      let stillExact := exact && !overflow
      if next = acc then (next, stillExact) else repeatLoop limit shifted remaining next stillExact

/-- Insert every shifted value, keeping within the limit. -/
def keepShifted (limit : ℕ) (shift : ℤ) : List ℤ → FlatSet ℤ → Bool → FlatSet ℤ × Bool
  | [], out, overflow => (out, overflow)
  | x :: rest, out, overflow =>
      let (kept, dropped) := keep limit out (saturatingAddNonNegative shift x)
      keepShifted limit shift rest kept (overflow || dropped)

def repeatRangeLoop (limit : ℕ) (base : ℤ) (shifted : FlatSet ℤ) :
    ℕ → ℤ → FlatSet ℤ → FlatSet ℤ → Bool → FlatSet ℤ × Bool
  | 0, _, out, _, exact => (out, exact)
  | remaining + 1, i, out, acc, exact =>
      let shift := saturatingMultiplyNonNegative i base
      if base > 0 ∧ limit ≤ out.size ∧ shift > out.back 0 then (out, false)
      else
        let (next, overflow) := round limit shifted.data acc.data FlatSet.empty
        let (grown, dropped) := keepShifted limit shift next.data out overflow
        let stillExact := exact && !dropped
        if base = 0 ∧ next = acc then (grown, stillExact)
        else repeatRangeLoop limit base shifted remaining (i + 1) grown next stillExact

/-- `V' = { v - base }`. -/
def shiftDown (item : FlatSet ℤ) (base : ℤ) : FlatSet ℤ :=
  item.data.foldl (fun shifted v => shifted.insert (v - base)) FlatSet.empty

end Expansion

open Expansion in
/-- One node's expansion from its operands' expansions. -/
def Node.expandNode (limit : ℕ) : Node → (ℕ → Expansion) → Expansion
  | leaf values, _ =>
      if values.size ≤ limit then ⟨values, true⟩ else ⟨values.take limit, false⟩
  | add lhs rhs, memo =>
      let l := memo lhs
      let r := memo rhs
      let rmin := r.values.front 0
      let (out, overflow) := addRows limit rmin r.values.data l.values.data FlatSet.empty false
      ⟨out, l.exact && r.exact && !overflow⟩
  | union lhs rhs, memo =>
      let l := memo lhs
      let r := memo rhs
      let merged := l.values.insertRange r.values.data
      let (out, overflow) := trim limit merged.size merged false
      ⟨out, l.exact && r.exact && !overflow⟩
  | pad lhs param, memo =>
      let l := memo lhs
      let a := max 1 param
      ⟨l.values.data.foldl (fun out v =>
        out.insert (saturatingRoundUpToMultipleNonNegative v a)) FlatSet.empty, l.exact⟩
  | repeated lhs param, memo =>
      if param ≤ 0 then ⟨FlatSet.singleton 0, true⟩
      else
        let item := memo lhs
        let base := item.values.front 0
        let shifted := shiftDown item.values base
        let (acc, exact) :=
          repeatLoop limit shifted param.toNat (FlatSet.singleton 0) item.exact
        let shift := saturatingMultiplyNonNegative param base
        ⟨acc.data.foldl (fun out x => out.insert (saturatingAddNonNegative shift x))
          FlatSet.empty, exact⟩
  | repeatRange lhs param, memo =>
      let maxCount := max 0 param
      if maxCount = 0 then ⟨FlatSet.singleton 0, true⟩
      else
        let item := memo lhs
        let base := item.values.front 0
        let shifted := shiftDown item.values base
        let (out, exact) := repeatRangeLoop limit base shifted maxCount.toNat 1
          (FlatSet.singleton 0) (FlatSet.singleton 0) item.exact
        ⟨out, exact⟩

/-- `BitLengthSet::expandChecked`: the limit is clamped to at least one. -/
def Heap.expandChecked (heap : Heap) (limit : ℕ) (set : BitLengthSet heap) : Expansion :=
  heap.evaluate (Node.expandNode (Max.max 1 limit)) set

namespace Expansion

/-! ### What a capped loop keeps -/

/-- `out` is a capped part of `visited`, and all of it if nothing was dropped. -/
structure Kept (limit : ℕ) (visited : Set ℤ) (out : FlatSet ℤ) (dropped : Bool) : Prop where
  within : out.toSet ⊆ visited
  small : out.size ≤ limit
  nonempty : visited.Nonempty ∨ dropped = true → out.data ≠ []
  complete : dropped = false → visited ⊆ out.toSet

/-- A loop that stops early has visited only part of what it was given. -/
theorem Kept.stop {limit : ℕ} {visited all : Set ℤ} {out : FlatSet ℤ} {dropped : Bool}
    (kept : Kept limit visited out dropped) (part : visited ⊆ all) (nonempty : out.data ≠ []) :
    Kept limit all out true :=
  ⟨kept.within.trans part, kept.small, fun _ => nonempty, fun absurd => by simp at absurd⟩

theorem Kept.congr {limit : ℕ} {visited other : Set ℤ} {out : FlatSet ℤ} {dropped : Bool}
    (kept : Kept limit visited out dropped) (same : visited = other) :
    Kept limit other out dropped :=
  same ▸ kept

theorem kept_empty (limit : ℕ) : Kept limit ∅ FlatSet.empty false :=
  ⟨fun _ member => absurd member List.not_mem_nil, Nat.zero_le _, by simp,
    fun _ => Set.empty_subset _⟩

theorem ne_nil_of_limit_le {limit : ℕ} {out : FlatSet ℤ} (positive : 0 < limit)
    (full : limit ≤ out.size) : out.data ≠ [] :=
  List.ne_nil_of_length_pos (positive.trans_le full)

theorem keep_kept {limit : ℕ} {visited : Set ℤ} {out : FlatSet ℤ} {dropped : Bool}
    (positive : 0 < limit) (kept : Kept limit visited out dropped) (value : ℤ) :
    Kept limit (insert value visited) (keep limit out value).1
      (dropped || (keep limit out value).2) := by
  have inserted : (out.insert value).toSet ⊆ insert value visited := fun x member =>
    (FlatSet.mem_insert.mp member).imp id fun old => kept.within old
  have sizeLe := FlatSet.size_insert_le out value
  have outSmall := kept.small
  unfold keep
  dsimp only
  split
  · rename_i large
    refine ⟨fun x member => inserted (FlatSet.mem_of_mem_eraseLast member), ?_, fun _ => ?_, ?_⟩
    · rw [FlatSet.size_eraseLast]
      omega
    · refine List.ne_nil_of_length_pos ?_
      rw [← FlatSet.size, FlatSet.size_eraseLast]
      omega
    · simp
  · rename_i fits
    refine ⟨inserted, not_lt.mp fits, fun _ => ?_, fun unset x member => ?_⟩
    · exact List.ne_nil_of_mem (FlatSet.mem_insert.mpr (Or.inl rfl))
    · simp only [Bool.or_false] at unset
      exact FlatSet.mem_insert.mpr (member.imp id fun old => kept.complete unset old)

private theorem union_image_cons (visited : Set ℤ) (f : ℤ → ℤ) (first : ℤ) (rest : List ℤ) :
    insert (f first) visited ∪ f '' {v | v ∈ rest} = visited ∪ f '' {v | v ∈ first :: rest} := by
  ext x
  simp only [Set.mem_union, Set.mem_insert_iff, Set.mem_image, Set.mem_ofPred_eq, List.mem_cons,
    exists_eq_or_imp, eq_comm (a := x)]
  tauto

private theorem union_image2_cons (visited : Set ℤ) (f : ℤ → ℤ → ℤ) (first : ℤ)
    (rest right : List ℤ) :
    (visited ∪ f first '' {v | v ∈ right}) ∪ Set.image2 f {v | v ∈ rest} {v | v ∈ right} =
      visited ∪ Set.image2 f {v | v ∈ first :: rest} {v | v ∈ right} := by
  have split : {v | v ∈ first :: rest} = {first} ∪ {v | v ∈ rest} := by
    ext x
    simp
  rw [split, Set.image2_union_left, Set.image2_singleton_left, Set.union_assoc]

section Loops

variable {limit : ℕ} (positive : 0 < limit)

include positive

theorem addRow_kept (lv : ℤ) (right : List ℤ) :
    ∀ {visited : Set ℤ} {out : FlatSet ℤ} {overflow : Bool}, Kept limit visited out overflow →
      Kept limit (visited ∪ saturatingAddNonNegative lv '' {v | v ∈ right})
        (addRow limit lv right out overflow).1 (addRow limit lv right out overflow).2 := by
  induction right with
  | nil => intro visited out overflow kept; exact kept.congr (by simp)
  | cons rv rest ih =>
      intro visited out overflow kept
      rw [addRow]
      split
      · rename_i past
        exact kept.stop Set.subset_union_left (ne_nil_of_limit_le positive past.1)
      · exact (ih (keep_kept positive kept _)).congr (union_image_cons ..)

theorem addRows_kept (rmin : ℤ) (right left : List ℤ) :
    ∀ {visited : Set ℤ} {out : FlatSet ℤ} {overflow : Bool}, Kept limit visited out overflow →
      Kept limit (visited ∪ Set.image2 saturatingAddNonNegative {v | v ∈ left} {v | v ∈ right})
        (addRows limit rmin right left out overflow).1
        (addRows limit rmin right left out overflow).2 := by
  induction left with
  | nil => intro visited out overflow kept; exact kept.congr (by simp)
  | cons lv rest ih =>
      intro visited out overflow kept
      rw [addRows]
      split
      · rename_i past
        exact kept.stop Set.subset_union_left (ne_nil_of_limit_le positive past.1)
      · exact (ih (addRow_kept positive lv right kept)).congr
          (union_image2_cons ..)

theorem trim_kept (fuel : ℕ) {visited : Set ℤ} :
    ∀ {out : FlatSet ℤ} {overflow : Bool}, out.size ≤ fuel → out.toSet ⊆ visited →
      out.data ≠ [] → (overflow = false → visited ⊆ out.toSet) →
        Kept limit visited (trim limit fuel out overflow).1 (trim limit fuel out overflow).2 := by
  induction fuel with
  | zero =>
      intro out overflow size within nonempty complete
      exact ⟨within, size.trans (Nat.zero_le _), fun _ => nonempty, complete⟩
  | succ fuel ih =>
      intro out overflow size within nonempty complete
      rw [trim]
      split
      · rename_i large
        have shrunk := FlatSet.size_eraseLast out
        refine ih (by omega)
          (fun x member => within (FlatSet.mem_of_mem_eraseLast member)) ?_ (by simp)
        exact List.ne_nil_of_length_pos (by rw [← FlatSet.size]; omega)
      · exact ⟨within, not_lt.mp ‹_›, fun _ => nonempty, complete⟩

theorem roundRow_kept (a : ℤ) (right : List ℤ) :
    ∀ {visited : Set ℤ} {next : FlatSet ℤ}, Kept limit visited next false →
      Kept limit (visited ∪ saturatingAddNonNegative a '' {v | v ∈ right})
        (roundRow limit a right next).1 (roundRow limit a right next).2 := by
  induction right with
  | nil => intro visited next kept; exact kept.congr (by simp)
  | cons b rest ih =>
      intro visited next kept
      have step := keep_kept positive kept (saturatingAddNonNegative a b)
      rw [Bool.false_or] at step
      rw [roundRow, ← union_image_cons]
      cases kept' : keep limit next (saturatingAddNonNegative a b) with
      | mk out dropped =>
          rw [kept'] at step
          cases dropped with
          | true => exact step.stop Set.subset_union_left (step.nonempty (Or.inr rfl))
          | false => exact ih step

theorem round_kept (shifted left : List ℤ) :
    ∀ {visited : Set ℤ} {next : FlatSet ℤ}, Kept limit visited next false →
      Kept limit (visited ∪ Set.image2 saturatingAddNonNegative {v | v ∈ left} {v | v ∈ shifted})
        (round limit shifted left next).1 (round limit shifted left next).2 := by
  induction left with
  | nil => intro visited next kept; exact kept.congr (by simp)
  | cons a rest ih =>
      intro visited next kept
      have step := roundRow_kept positive a shifted kept
      rw [round, ← union_image2_cons]
      cases row : roundRow limit a shifted next with
      | mk out dropped =>
          rw [row] at step
          cases dropped with
          | true => exact step.stop Set.subset_union_left (step.nonempty (Or.inr rfl))
          | false => exact ih step

theorem keepShifted_kept (shift : ℤ) (values : List ℤ) :
    ∀ {visited : Set ℤ} {out : FlatSet ℤ} {overflow : Bool}, Kept limit visited out overflow →
      Kept limit (visited ∪ saturatingAddNonNegative shift '' {v | v ∈ values})
        (keepShifted limit shift values out overflow).1
        (keepShifted limit shift values out overflow).2 := by
  induction values with
  | nil => intro visited out overflow kept; exact kept.congr (by simp)
  | cons x rest ih =>
      intro visited out overflow kept
      rw [keepShifted]
      exact (ih (keep_kept positive kept _)).congr (union_image_cons ..)

omit positive in
theorem keepShifted_dropped (shift : ℤ) (values : List ℤ) : ∀ out : FlatSet ℤ,
    (keepShifted limit shift values out true).2 = true := by
  induction values with
  | nil => intro out; rfl
  | cons x rest ih => intro out; exact ih _

end Loops

/-! ### Repetition -/

/-- A capped part of a target set, and all of it when flagged exact. -/
structure Part (limit : ℕ) (target : Set ℤ) (out : FlatSet ℤ) (exact : Bool) : Prop where
  within : out.toSet ⊆ target
  small : out.size ≤ limit
  nonempty : out.data ≠ []
  complete : exact = true → target ⊆ out.toSet

theorem Part.toSet_eq {limit : ℕ} {target : Set ℤ} {out : FlatSet ℤ}
    (part : Part limit target out true) : out.toSet = target :=
  part.within.antisymm (part.complete rfl)

/-- The visited values of a finished loop, read as a part of their target. -/
theorem Kept.part {limit : ℕ} {visited target : Set ℤ} {out : FlatSet ℤ} {dropped exact : Bool}
    (kept : Kept limit visited out dropped) (nonempty : visited.Nonempty)
    (within : visited ⊆ target) (complete : exact = true → target ⊆ visited) :
    Part limit target out (exact && !dropped) := by
  refine ⟨kept.within.trans within, kept.small, kept.nonempty (Or.inl nonempty), fun set => ?_⟩
  simp only [Bool.and_eq_true, Bool.not_eq_true'] at set
  exact (complete set.1).trans (kept.complete set.2)

theorem nonempty_toSet {set : FlatSet ℤ} (nonempty : set.data ≠ []) : set.toSet.Nonempty :=
  List.exists_mem_of_ne_nil _ nonempty

/-- On values that are not negative the helper is the clamped sum. -/
theorem image2_saturatingAdd {left right : Set ℤ} (leftNonneg : ∀ x ∈ left, 0 ≤ x)
    (rightNonneg : ∀ y ∈ right, 0 ≤ y) :
    Set.image2 saturatingAddNonNegative left right = Set.image2 clampSum left right :=
  Set.image2_congr fun x inLeft y inRight =>
    saturatingAddNonNegative_eq (leftNonneg x inLeft) (rightNonneg y inRight)

/-- Undoing the shift: sums of shifted draws, plus the shift for each draw. -/
theorem unshift_clampSums {item : Set ℤ} {base : ℤ} (baseNonneg : 0 ≤ base)
    (lower : ∀ v ∈ item, base ≤ v) (upper : ∀ v ∈ item, v ≤ int64Max) (count : ℕ) :
    (fun x => clampSum (clamp int64Max (count * base)) x) ''
        clampSums ((· - base) '' item) count = clampSums item count := by
  have shiftedNonneg : ∀ x ∈ (· - base) '' item, 0 ≤ x := by
    rintro _ ⟨v, member, rfl⟩
    exact sub_nonneg.mpr (lower v member)
  have shiftedUpper : ∀ x ∈ (· - base) '' item, x ≤ int64Max := by
    rintro _ ⟨v, member, rfl⟩
    have := upper v member
    dsimp only
    omega
  have itemEq : (· + base) '' ((· - base) '' item) = item := by
    rw [Set.image_image]
    simp
  have itemNonneg : ∀ v ∈ item, 0 ≤ v := fun v member => baseNonneg.trans (lower v member)
  have productNonneg : 0 ≤ (count : ℤ) * base :=
    mul_nonneg (Int.natCast_nonneg count) baseNonneg
  calc (fun x => clampSum (clamp int64Max (count * base)) x) ''
        clampSums ((· - base) '' item) count
      = (fun x => clampSum (clamp int64Max (count * base)) x) ''
          (clamp int64Max '' sums ((· - base) '' item) count) := by
        rw [← clampSums_image shiftedNonneg, clamp_image_of_le shiftedUpper]
    _ = clamp int64Max '' ((· + count * base) '' sums ((· - base) '' item) count) := by
        rw [Set.image_image, Set.image_image]
        refine Set.image_congr fun x member => ?_
        rw [clampSum, clamp_add_clamp int64Max_pos.le productNonneg
          (sums_nonneg shiftedNonneg x member), add_comm]
    _ = clampSums item count := by
        rw [← sums_shift, itemEq, ← clampSums_image itemNonneg, clamp_image_of_le upper]

section Repetition

variable {limit : ℕ} (positive : 0 < limit) {shifted : FlatSet ℤ}
  (shiftedNonneg : ∀ x ∈ shifted, 0 ≤ x) (zeroIn : (0 : ℤ) ∈ shifted)

include positive shiftedNonneg zeroIn

omit positive in
theorem clampSums_mono : Monotone (clampSums shifted.toSet) :=
  foldSums_mono zeroIn fun count x member => by
    rw [clampSum, add_zero, clamp_of_le (clampSums_range shiftedNonneg count member).2]

theorem round_part {done : ℕ} {acc : FlatSet ℤ} {exact : Bool}
    (part : Part limit (clampSums shifted.toSet done) acc exact) :
    Part limit (clampSums shifted.toSet (done + 1))
      (round limit shifted.data acc.data FlatSet.empty).1
      (exact && !(round limit shifted.data acc.data FlatSet.empty).2) := by
  have accNonneg : ∀ x ∈ acc.toSet, 0 ≤ x := fun x member =>
    (clampSums_range shiftedNonneg done (part.within member)).1
  have kept := round_kept positive shifted.data acc.data (kept_empty limit)
  rw [Set.empty_union] at kept
  have visited : Set.image2 saturatingAddNonNegative acc.toSet shifted.toSet =
      Set.image2 clampSum acc.toSet shifted.toSet :=
    image2_saturatingAdd accNonneg shiftedNonneg
  refine (kept.congr visited).part ((nonempty_toSet part.nonempty).image2 ⟨0, zeroIn⟩)
    (Set.image2_subset part.within subset_rfl) fun set => ?_
  exact Set.image2_subset (part.complete set) subset_rfl

theorem round_fixed {done : ℕ} {acc : FlatSet ℤ} {exact : Bool}
    (part : Part limit (clampSums shifted.toSet done) acc exact)
    (fixed : (round limit shifted.data acc.data FlatSet.empty).1 = acc)
    (stillExact : (exact && !(round limit shifted.data acc.data FlatSet.empty).2) = true) :
    clampSums shifted.toSet (done + 1) = clampSums shifted.toSet done := by
  have next := round_part positive shiftedNonneg zeroIn part
  rw [fixed, stillExact] at next
  simp only [Bool.and_eq_true] at stillExact
  rw [stillExact.1] at part
  rw [← next.toSet_eq, part.toSet_eq]

theorem repeatLoop_part (remaining : ℕ) : ∀ {done : ℕ} {acc : FlatSet ℤ} {exact : Bool},
    Part limit (clampSums shifted.toSet done) acc exact →
      Part limit (clampSums shifted.toSet (done + remaining))
        (repeatLoop limit shifted remaining acc exact).1
        (repeatLoop limit shifted remaining acc exact).2 := by
  induction remaining with
  | zero => intro done acc exact part; exact part
  | succ remaining ih =>
      intro done acc exact part
      have next := round_part positive shiftedNonneg zeroIn part
      rw [repeatLoop]
      dsimp only
      split
      · rename_i fixed
        refine ⟨?_, next.small, next.nonempty, fun stillExact => ?_⟩
        · rw [fixed]
          exact part.within.trans (clampSums_mono shiftedNonneg zeroIn (Nat.le_add_right _ _))
        · have stable := round_fixed positive shiftedNonneg zeroIn part fixed stillExact
          have later := foldSums_cycle stable (remaining + 1)
          rw [Nat.mod_one] at later
          exact (later.trans stable.symm).le.trans (next.complete stillExact)
      · have later := ih next
        rwa [Nat.add_right_comm, Nat.add_assoc] at later

/-- What `RepeatRange` relies on: `item` shifted down by its least element. -/
structure Shifted (item : Set ℤ) (base : ℤ) (shifted : FlatSet ℤ) : Prop where
  least : IsLeast item base
  nonneg : 0 ≤ base
  upper : ∀ v ∈ item, v ≤ int64Max
  values : shifted.toSet = (· - base) '' item

omit positive shiftedNonneg zeroIn in
theorem repeatLoop_exact (remaining : ℕ) : ∀ {acc : FlatSet ℤ} {exact : Bool},
    (repeatLoop limit shifted remaining acc exact).2 = true → exact = true := by
  induction remaining with
  | zero => intro acc exact set; exact set
  | succ remaining ih =>
      intro acc exact set
      rw [repeatLoop] at set
      dsimp only at set
      split at set
      · exact (Bool.and_eq_true _ _ ▸ set : _ ∧ _).1
      · exact (Bool.and_eq_true _ _ ▸ ih set : _ ∧ _).1

omit positive shiftedNonneg zeroIn in
theorem repeatRangeLoop_exact (base : ℤ) (remaining : ℕ) :
    ∀ {i : ℤ} {out acc : FlatSet ℤ} {exact : Bool},
      (repeatRangeLoop limit base shifted remaining i out acc exact).2 = true → exact = true := by
  induction remaining with
  | zero => intro i out acc exact set; exact set
  | succ remaining ih =>
      intro i out acc exact set
      rw [repeatRangeLoop] at set
      dsimp only at set
      split at set
      · exact absurd set (by simp)
      · split at set
        · exact (Bool.and_eq_true _ _ ▸ set : _ ∧ _).1
        · exact (Bool.and_eq_true _ _ ▸ ih set : _ ∧ _).1

end Repetition

section Range

variable {limit : ℕ} (positive : 0 < limit) {item : Set ℤ} {base : ℤ} {shifted : FlatSet ℤ}
  (shift : Shifted item base shifted)

include shift

theorem Shifted.shifted_nonneg : ∀ x ∈ shifted, 0 ≤ x := by
  intro x member
  rw [← FlatSet.mem_toSet, shift.values] at member
  obtain ⟨v, inItem, rfl⟩ := member
  exact sub_nonneg.mpr (shift.least.2 inItem)

theorem Shifted.zero_mem : (0 : ℤ) ∈ shifted := by
  rw [← FlatSet.mem_toSet, shift.values]
  exact ⟨base, shift.least.1, sub_self base⟩

theorem Shifted.unshift (count : ℕ) :
    saturatingAddNonNegative (saturatingMultiplyNonNegative count base) ''
        clampSums shifted.toSet count = clampSums item count := by
  rw [← unshift_clampSums shift.nonneg (fun _ member => shift.least.2 member) shift.upper count,
    ← shift.values]
  refine Set.image_congr fun x member => ?_
  have productNonneg := mul_nonneg (Int.natCast_nonneg count) shift.nonneg
  rw [saturatingMultiplyNonNegative_eq (Int.natCast_nonneg count) shift.nonneg,
    saturatingAddNonNegative_eq (clamp_nonneg int64Max_pos.le productNonneg)
      (clampSums_range shift.shifted_nonneg count member).1]

include positive

theorem repeatRangeLoop_part (remaining : ℕ) :
    ∀ {done : ℕ} {out acc : FlatSet ℤ} {exact : Bool},
      Part limit (clampSumsUpTo item done) out exact →
      Part limit (clampSums shifted.toSet done) acc exact →
        Part limit (clampSumsUpTo item (done + remaining))
          (repeatRangeLoop limit base shifted remaining (done + 1) out acc exact).1
          (repeatRangeLoop limit base shifted remaining (done + 1) out acc exact).2 := by
  induction remaining with
  | zero => intro done out acc exact outPart _; exact outPart
  | succ remaining ih =>
      intro done out acc exact outPart accPart
      have wider : clampSumsUpTo item done ⊆ clampSumsUpTo item (done + (remaining + 1)) :=
        foldSumsUpTo_mono (Nat.le_add_right _ _)
      have next := round_part positive shift.shifted_nonneg shift.zero_mem accPart
      rw [repeatRangeLoop]
      dsimp only
      split
      · exact ⟨outPart.within.trans wider, outPart.small, outPart.nonempty, by simp⟩
      · -- One more term: what the round kept, shifted back, joins the union.
        generalize roundEq : round limit shifted.data acc.data FlatSet.empty = rounded at next ⊢
        obtain ⟨kept, overflow⟩ := rounded
        dsimp only at next ⊢
        have grown := keepShifted_kept positive
          (saturatingMultiplyNonNegative (done + 1) base) kept.data
          (show Kept limit out.toSet out overflow from
            ⟨subset_rfl, outPart.small, fun _ => outPart.nonempty, fun _ => subset_rfl⟩)
        have flagged : overflow = true → (keepShifted limit
            (saturatingMultiplyNonNegative (done + 1) base) kept.data out overflow).2 = true := by
          rintro rfl
          exact keepShifted_dropped _ _ _
        generalize keepShifted limit (saturatingMultiplyNonNegative (done + 1) base) kept.data out
          overflow = grownResult at grown flagged ⊢
        obtain ⟨union, dropped⟩ := grownResult
        dsimp only at grown flagged ⊢
        have term := shift.unshift (done + 1)
        rw [Nat.cast_add, Nat.cast_one] at term
        have unionPart : Part limit (clampSumsUpTo item (done + 1)) union (exact && !dropped) := by
          rw [clampSumsUpTo, foldSumsUpTo_succ, ← clampSumsUpTo, ← clampSums, ← term]
          refine ⟨grown.within.trans (Set.union_subset_union outPart.within
            (Set.image_mono next.within)), grown.small, ?_, fun set => ?_⟩
          · exact grown.nonempty (Or.inl ((nonempty_toSet outPart.nonempty).inl))
          · simp only [Bool.and_eq_true, Bool.not_eq_true'] at set
            have roundExact : overflow = false := by
              by_contra overflowed
              simp [flagged (by simpa using overflowed)] at set
            refine Set.Subset.trans ?_ (grown.complete set.2)
            exact Set.union_subset_union (outPart.complete set.1)
              (Set.image_mono (next.complete (by simp [set.1, roundExact])))
        have nextPart : Part limit (clampSums shifted.toSet (done + 1)) kept
            (exact && !dropped) := by
          refine ⟨next.within, next.small, next.nonempty, fun set => next.complete ?_⟩
          simp only [Bool.and_eq_true, Bool.not_eq_true'] at set ⊢
          refine ⟨set.1, ?_⟩
          by_contra overflowed
          simp [flagged (by simpa using overflowed)] at set
        split
        · rename_i fixed
          refine ⟨unionPart.within.trans (foldSumsUpTo_mono (by omega)), unionPart.small,
            unionPart.nonempty, fun set => ?_⟩
          -- Without a shift a repeated term closes the union.
          have same : shifted.toSet = item := by rw [shift.values, fixed.1]; simp
          have stable : clampSums item (done + 1) = clampSums item done := by
            replace set : (exact && !dropped) = true := set
            have exactly : exact = true := by
              simp only [Bool.and_eq_true] at set
              exact set.1
            rw [set, fixed.2] at nextPart
            rw [exactly] at accPart
            rw [← same, ← nextPart.toSet_eq, accPart.toSet_eq]
          rw [clampSumsUpTo, foldSumsUpTo_of_cycle (Nat.lt_succ_self done) (by omega) stable]
          exact unionPart.complete set
        · have later := ih unionPart nextPart
          rw [Nat.cast_add, Nat.cast_one, Nat.add_right_comm, Nat.add_assoc] at later
          exact later

end Range

/-! ### One node -/

theorem foldl_insert_spec (f : ℤ → ℤ) (values : List ℤ) (out : FlatSet ℤ) :
    (values.foldl (fun out v => out.insert (f v)) out).toSet = out.toSet ∪ f '' {v | v ∈ values} ∧
      (values.foldl (fun out v => out.insert (f v)) out).size ≤ out.size + values.length := by
  induction values generalizing out with
  | nil => simp
  | cons first rest ih =>
      obtain ⟨setEq, sizeLe⟩ := ih (out.insert (f first))
      have step := FlatSet.size_insert_le out (f first)
      rw [List.foldl_cons, List.length_cons]
      refine ⟨setEq.trans ?_, by omega⟩
      rw [← union_image_cons]
      congr 1
      ext x
      simp

/-- Mapping every element neither grows the set nor loses an image. -/
theorem foldl_insert_part {limit : ℕ} {target : Set ℤ} {out : FlatSet ℤ} {exact : Bool}
    (part : Part limit target out exact) (f : ℤ → ℤ) :
    Part limit (f '' target)
      (out.data.foldl (fun mapped v => mapped.insert (f v)) FlatSet.empty) exact := by
  obtain ⟨setEq, sizeLe⟩ := foldl_insert_spec f out.data FlatSet.empty
  have mapped : (out.data.foldl (fun mapped v => mapped.insert (f v)) FlatSet.empty).toSet =
      f '' out.toSet := by
    rw [setEq]
    ext x
    simp [FlatSet.empty, FlatSet.mem_def, FlatSet.toSet]
  have outSmall := part.small
  refine ⟨mapped ▸ Set.image_mono part.within, ?_, fun empty => ?_, fun set => ?_⟩
  · have : (FlatSet.empty : FlatSet ℤ).size = 0 := rfl
    rw [FlatSet.size] at outSmall
    omega
  · obtain ⟨v, member⟩ := (nonempty_toSet part.nonempty).image f
    rw [← mapped, FlatSet.mem_toSet, FlatSet.mem_def, empty] at member
    exact absurd member List.not_mem_nil
  · exact mapped ▸ Set.image_mono (part.complete set)

theorem shiftDown_shifted {item : FlatSet ℤ} (nonempty : item.data ≠ [])
    (range : ∀ v ∈ item, 0 ≤ v ∧ v ≤ int64Max) :
    Shifted item.toSet (item.front 0) (shiftDown item (item.front 0)) := by
  have least := FlatSet.isLeast_front nonempty 0
  refine ⟨least, (range _ least.1).1, fun v member => (range v member).2, ?_⟩
  rw [shiftDown, (foldl_insert_spec (· - item.front 0) item.data FlatSet.empty).1]
  ext x
  simp [FlatSet.empty, FlatSet.mem_def, FlatSet.toSet]

theorem zero_part {limit : ℕ} (positive : 0 < limit) (exact : Bool) :
    Part limit {0} (FlatSet.singleton 0) exact :=
  ⟨fun _ member => FlatSet.mem_singleton.mp member, positive, by simp [FlatSet.singleton],
    fun _ _ member => FlatSet.mem_singleton.mpr member⟩

theorem zero_part_upTo {limit : ℕ} (positive : 0 < limit) (item : Set ℤ) (exact : Bool) :
    Part limit (clampSumsUpTo item 0) (FlatSet.singleton 0) exact := by
  rw [clampSumsUpTo, foldSumsUpTo_zero]
  exact zero_part positive exact

theorem Part.weaken {limit : ℕ} {item target : Set ℤ} {out : FlatSet ℤ} {exact known : Bool}
    (part : Part limit item out known) (inclusion : item ⊆ target)
    (complete : exact = true → known = true ∧ target ⊆ item) : Part limit target out exact :=
  ⟨part.within.trans inclusion, part.small, part.nonempty, fun set =>
    (complete set).2.trans (part.complete (complete set).1)⟩

end Expansion

open Expansion

namespace Heap

variable (heap : Heap)

theorem expandNode_part {limit : ℕ} (positive : 0 < limit) (node : Node) (memo : ℕ → Expansion)
    (wellFormed : (heap.unfoldNode node).WellFormed)
    (recorded : ∀ child ∈ node.children,
      Part limit (heap.expr child).denote (memo child).values (memo child).exact) :
    Part limit (heap.unfoldNode node).denote (node.expandNode limit memo).values
      (node.expandNode limit memo).exact := by
  cases node with
  | leaf values =>
      rw [Node.expandNode]
      split
      · rename_i fits
        exact ⟨subset_rfl, fits, wellFormed.1, fun _ => subset_rfl⟩
      · rename_i large
        refine ⟨fun _ member => FlatSet.mem_of_mem_take member, ?_, ?_, by simp⟩
        · exact List.length_take_le _ _
        · refine List.ne_nil_of_length_pos ?_
          have : limit < values.data.length := not_le.mp large
          rw [FlatSet.take, List.length_take]
          omega
  | add lhs rhs =>
      have left := recorded lhs (by simp [Node.children])
      have right := recorded rhs (by simp [Node.children])
      have kept := addRows_kept positive ((memo rhs).values.front 0) (memo rhs).values.data
        (memo lhs).values.data (kept_empty limit)
      rw [Set.empty_union] at kept
      have visited : Set.image2 saturatingAddNonNegative (memo lhs).values.toSet
          (memo rhs).values.toSet =
            Set.image2 clampSum (memo lhs).values.toSet (memo rhs).values.toSet :=
        image2_saturatingAdd
          (fun x member => (Expr.denote_range wellFormed.1 (left.within member)).1)
          (fun y member => (Expr.denote_range wellFormed.2 (right.within member)).1)
      refine (kept.congr visited).part
        ((nonempty_toSet left.nonempty).image2 (nonempty_toSet right.nonempty))
        (Set.image2_subset left.within right.within) fun set => ?_
      simp only [Bool.and_eq_true] at set
      exact Set.image2_subset (left.complete set.1) (right.complete set.2)
  | union lhs rhs =>
      have left := recorded lhs (by simp [Node.children])
      have right := recorded rhs (by simp [Node.children])
      have merged : ((memo lhs).values.insertRange (memo rhs).values.data).toSet =
          (memo lhs).values.toSet ∪ (memo rhs).values.toSet := by
        ext x
        exact FlatSet.mem_insertRange
      have nonempty := nonempty_toSet left.nonempty
      have kept := trim_kept positive _ le_rfl merged.le
        (fun empty => by
          obtain ⟨x, member⟩ := nonempty
          have inMerged := merged.ge (Or.inl member)
          rw [FlatSet.mem_toSet, FlatSet.mem_def, empty] at inMerged
          exact absurd inMerged List.not_mem_nil)
        (fun _ : false = false => merged.ge)
      refine kept.part nonempty.inl (Set.union_subset_union left.within right.within) fun set => ?_
      simp only [Bool.and_eq_true] at set
      exact Set.union_subset_union (left.complete set.1) (right.complete set.2)
  | pad lhs param =>
      have child := recorded lhs (by simp [Node.children])
      have mapped := foldl_insert_part child
        fun v => saturatingRoundUpToMultipleNonNegative v (Max.max 1 param)
      have sameImage : (fun v => saturatingRoundUpToMultipleNonNegative v (Max.max 1 param)) ''
          (heap.expr lhs).denote = (heap.unfoldNode (.pad lhs param)).denote := by
        refine Set.image_congr fun v member => ?_
        have range := Expr.denote_range wellFormed.1 member
        rw [max_eq_right wellFormed.2.1,
          saturatingRoundUpToMultipleNonNegative_eq range.1 range.2 wellFormed.2.1]
      exact sameImage ▸ mapped
  | repeated lhs param =>
      rw [Node.expandNode]
      rcases wellFormed.2.1.lt_or_eq with counted | rfl
      · rw [if_neg (not_le.mpr counted)]
        have child := recorded lhs (by simp [Node.children])
        have range : ∀ v ∈ (memo lhs).values, 0 ≤ v ∧ v ≤ int64Max := fun v member =>
          Expr.denote_range wellFormed.1 (child.within member)
        have shift := shiftDown_shifted child.nonempty range
        have part := repeatLoop_part positive shift.shifted_nonneg shift.zero_mem param.toNat
          (show Part limit (clampSums _ 0) (FlatSet.singleton 0) (memo lhs).exact from
            zero_part positive _)
        have mapped := foldl_insert_part part
          (saturatingAddNonNegative (saturatingMultiplyNonNegative param.toNat
            ((memo lhs).values.front 0)))
        rw [Nat.zero_add, shift.unshift, Int.toNat_of_nonneg counted.le] at mapped
        refine mapped.weaken (foldSums_subset child.within _) fun set => ⟨set, ?_⟩
        exact foldSums_subset (child.complete (repeatLoop_exact _ set)) _
      · exact zero_part positive true
  | repeatRange lhs param =>
      simp only [Node.expandNode]
      rw [max_eq_right wellFormed.2.1]
      rcases wellFormed.2.1.lt_or_eq with counted | rfl
      · rw [if_neg (ne_of_gt counted)]
        have child := recorded lhs (by simp [Node.children])
        have range : ∀ v ∈ (memo lhs).values, 0 ≤ v ∧ v ≤ int64Max := fun v member =>
          Expr.denote_range wellFormed.1 (child.within member)
        have shift := shiftDown_shifted child.nonempty range
        have part := repeatRangeLoop_part positive shift param.toNat
          (zero_part_upTo positive _ (memo lhs).exact)
          (show Part limit (clampSums _ 0) (FlatSet.singleton 0) (memo lhs).exact from
            zero_part positive _)
        rw [Nat.zero_add] at part
        refine part.weaken (foldSumsUpTo_subset child.within _) fun set => ⟨set, ?_⟩
        exact foldSumsUpTo_subset (child.complete (repeatRangeLoop_exact _ _ set)) _
      · rw [if_pos rfl]
        exact zero_part_upTo positive _ true

/-- An expansion is a capped part of `S(e)`, and all of it when flagged exact. -/
theorem expandChecked_part (limit : ℕ) (set : BitLengthSet heap) :
    Part (Max.max 1 limit) (heap.denote set) (heap.expandChecked limit set).values
      (heap.expandChecked limit set).exact :=
  heap.evaluate_rule (fun (expr : Expr) (expansion : Expansion) =>
    Part (Max.max 1 limit) expr.denote expansion.values expansion.exact)
    (heap.expandNode_part (le_max_left 1 limit)) set

/-- **Sound under-approximation.** For a positive limit the expansion is
non-empty, within the limit and inside `S(e)`; reported exact, it is `S(e)`. -/
theorem expandChecked_sound (limit : ℕ) (positive : 0 < limit) (set : BitLengthSet heap) :
    (heap.expandChecked limit set).values.toSet.Nonempty ∧
      (heap.expandChecked limit set).values.size ≤ limit ∧
      (heap.expandChecked limit set).values.toSet ⊆ heap.denote set ∧
      ((heap.expandChecked limit set).exact = true →
        (heap.expandChecked limit set).values.toSet = heap.denote set) := by
  have part := heap.expandChecked_part limit set
  rw [max_eq_right (show 1 ≤ limit from positive)] at part
  exact ⟨nonempty_toSet part.nonempty, part.small, part.within,
    fun exact => part.within.antisymm (part.complete exact)⟩

/-- Two padded arrays behind a header, or one alone: all of it at limit 32, four of its values at
limit 4. A sum that saturates is exact as well. -/
theorem expandChecked_sound_records :
    (((records 2).1.expandChecked 32 (records 2).2).exact = true ∧
      ((records 2).1.expandChecked 32 (records 2).2).values.toSet =
        (records 2).1.denote (records 2).2) ∧
    (((records 2).1.expandChecked 4 (records 2).2).exact = false ∧
      ((records 2).1.expandChecked 4 (records 2).2).values.size ≤ 4 ∧
      ((records 2).1.expandChecked 4 (records 2).2).values.toSet ⊆
        (records 2).1.denote (records 2).2) ∧
    (saturated.1.expandChecked 2 saturated.2).exact = true ∧
      (saturated.1.expandChecked 2 saturated.2).values.toSet = saturated.1.denote saturated.2 := by
  have whole : ((records 2).1.expandChecked 32 (records 2).2).exact = true := by decide +kernel
  have cut : ((records 2).1.expandChecked 4 (records 2).2).exact = false := by decide +kernel
  have clamped : (saturated.1.expandChecked 2 saturated.2).exact = true := by decide +kernel
  obtain ⟨_, small, within, _⟩ := (records 2).1.expandChecked_sound 4 (by decide) (records 2).2
  exact ⟨⟨whole, ((records 2).1.expandChecked_sound 32 (by decide) (records 2).2).2.2.2 whole⟩,
    ⟨cut, small, within⟩, clamped,
    (saturated.1.expandChecked_sound 2 (by decide) saturated.2).2.2.2 clamped⟩

end Heap

end LlvmDsdl.Semantics
