import LlvmDsdl.Support.FlatSet
import LlvmDsdl.Support.Rational

/-!
Contract: `std::set<Rational>`.

Owns: the ordered sequence kept by `operator<`, insertion and lookup by that
order, and their meaning where every comparison is exact: on integers, and
between rationals whose cross products fit 128 bits.
-/

namespace LlvmDsdl.Support

/-- The elements in the order `operator<` keeps them. -/
structure RationalSet where
  elements : List Rational
  deriving DecidableEq

namespace RationalSet

open Rational

section Operations

variable (longDoubleLess : Rational → Rational → Bool)

/-- Insert before the first element that is not less, unless the two are equivalent. -/
def insertOrdered (value : Rational) : List Rational → List Rational
  | [] => [value]
  | first :: rest =>
      if less longDoubleLess first value then first :: insertOrdered value rest
      else if less longDoubleLess value first then value :: first :: rest
      else first :: rest

def insert (set : RationalSet) (value : Rational) : RationalSet :=
  ⟨insertOrdered longDoubleLess value set.elements⟩

def insertAll (set : RationalSet) (values : List Rational) : RationalSet :=
  values.foldl (insert longDoubleLess) set

/-- `contains`: the first element that is not less must be equivalent. -/
def containsOrdered (value : Rational) : List Rational → Bool
  | [] => false
  | first :: rest =>
      if less longDoubleLess first value then containsOrdered value rest
      else !less longDoubleLess value first

def contains (set : RationalSet) (value : Rational) : Bool :=
  containsOrdered longDoubleLess value set.elements

/-- An element with the parts of the value. -/
def hasEqual (set : RationalSet) (value : Rational) : Bool :=
  set.elements.any fun element => Rational.equal element value

/-- `operator==`: element by element. -/
def equal (lhs rhs : RationalSet) : Bool :=
  lhs.elements.length == rhs.elements.length &&
    (lhs.elements.zip rhs.elements).all fun pair => Rational.equal pair.1 pair.2

def empty : RationalSet := ⟨[]⟩

def singleton (value : Rational) : RationalSet := ⟨[value]⟩

def size (set : RationalSet) : ℕ := set.elements.length

/-- `toRationalSet`: each integer as a rational. -/
def ofFlatSet (values : FlatSet ℤ) : RationalSet :=
  empty.insertAll longDoubleLess (values.data.map ofInteger)

end Operations

def integers (values : FlatSet ℤ) : RationalSet :=
  ⟨values.data.map ofInteger⟩

def Fits (values : FlatSet ℤ) : Prop :=
  ∀ value ∈ values, InInt128 value

variable (longDoubleLess : Rational → Rational → Bool)

/-- A fold of insertions leaves what was there and what was inserted. -/
theorem mem_foldl_insert {α : Type} [LinearOrder α] (added : List α) :
    ∀ {values : FlatSet α} {value : α},
      value ∈ added.foldl FlatSet.insert values ↔ value ∈ values ∨ value ∈ added := by
  induction added with
  | nil => intro values value; simp
  | cons first rest ih =>
      intro values value
      rw [List.foldl_cons, ih, FlatSet.mem_insert, List.mem_cons,
        or_assoc, or_left_comm]

/-- The sequence is ascending and every comparison inside it is exact. -/
structure Ordered (set : RationalSet) : Prop where
  ascending : set.elements.Pairwise Below
  crossFits : ∀ left ∈ set.elements, ∀ right ∈ set.elements, CrossFits left right

/-- The value can be compared exactly with every element. -/
def ComparesWith (set : RationalSet) (value : Rational) : Prop :=
  ∀ element ∈ set.elements, CrossFits element value

theorem contains_iff {set : RationalSet} (ordered : set.Ordered) {value : Rational}
    (compares : set.ComparesWith value) :
    set.contains longDoubleLess value = true ↔
      ∃ element ∈ set.elements, Rational.equal element value = true := by
  obtain ⟨elements⟩ := set
  have ascending := ordered.ascending
  simp only [contains, ComparesWith] at ascending compares ⊢
  clear ordered
  induction elements with
  | nil => simp [containsOrdered]
  | cons first rest ih =>
      obtain ⟨lower, restAscending⟩ := List.pairwise_cons.mp ascending
      have firstFits := compares first (by simp)
      have tail := ih
        (fun element member => compares element (by simp [member])) restAscending
      have equalParts : ∀ {left right : Rational}, Rational.equal left right = true →
          left.numerator = right.numerator ∧ left.denominator = right.denominator := by
        intro left right same
        simpa [Rational.equal] using same
      rw [containsOrdered]
      split
      · rename_i before
        have below := (less_iff longDoubleLess firstFits).mp before
        refine tail.trans ?_
        constructor
        · intro found
          obtain ⟨element, member, same⟩ := found
          exact ⟨element, by simp [member], same⟩
        · intro found
          obtain ⟨element, member, same⟩ := found
          rcases List.mem_cons.mp member with rfl | inRest
          · obtain ⟨numerators, denominators⟩ := equalParts same
            unfold Below at below
            rw [numerators, denominators] at below
            exact absurd below (lt_irrefl _)
          · exact ⟨element, inRest, same⟩
      · rename_i notBefore
        have notBelow : ¬Below first value := fun below =>
          notBefore ((less_iff longDoubleLess firstFits).mpr below)
        rw [Bool.not_eq_true', Bool.eq_false_iff, Ne, less_iff longDoubleLess firstFits.symm]
        constructor
        · intro notAbove
          exact ⟨first, by simp, equal_of_not_below notBelow notAbove⟩
        · intro found above
          obtain ⟨element, member, same⟩ := found
          obtain ⟨numerators, denominators⟩ := equalParts same
          have belowElement : Below value element := by
            rcases List.mem_cons.mp member with rfl | inRest
            · exact above
            · exact above.trans (lower element inRest)
          unfold Below at belowElement
          rw [numerators, denominators] at belowElement
          exact lt_irrefl _ belowElement

/-- Insertion keeps an ordered set ordered and adds at most the value. -/
theorem Ordered.insert {set : RationalSet} (ordered : set.Ordered) {value : Rational}
    (compares : set.ComparesWith value) (selfFits : CrossFits value value) :
    (set.insert longDoubleLess value).Ordered ∧
      (∀ element ∈ (set.insert longDoubleLess value).elements,
        element = value ∨ element ∈ set.elements) := by
  have inserted : ∀ elements : List Rational, elements.Pairwise Below →
      (∀ element ∈ elements, CrossFits element value) →
      (insertOrdered longDoubleLess value elements).Pairwise Below ∧
        ∀ element ∈ insertOrdered longDoubleLess value elements,
          element = value ∨ element ∈ elements := by
    intro elements
    induction elements with
    | nil => intro _ _; simp [insertOrdered]
    | cons first rest ih =>
        intro ascending fits
        obtain ⟨lower, restAscending⟩ := List.pairwise_cons.mp ascending
        have firstFits := fits first (by simp)
        obtain ⟨tailAscending, tailSource⟩ := ih restAscending
          fun element member => fits element (by simp [member])
        rw [insertOrdered]
        split
        · rename_i before
          have below := (less_iff longDoubleLess firstFits).mp before
          constructor
          · refine List.pairwise_cons.mpr ⟨fun element member => ?_, tailAscending⟩
            rcases tailSource element member with rfl | inRest
            · exact below
            · exact lower element inRest
          · intro element member
            rcases List.mem_cons.mp member with rfl | inTail
            · simp
            · rcases tailSource element inTail with same | inRest
              · exact Or.inl same
              · exact Or.inr (by simp [inRest])
        · split
          · rename_i before
            have below := (less_iff longDoubleLess firstFits.symm).mp before
            constructor
            · refine List.pairwise_cons.mpr ⟨fun element member => ?_, ascending⟩
              rcases List.mem_cons.mp member with rfl | inRest
              · exact below
              · exact below.trans (lower element inRest)
            · intro element member
              exact List.mem_cons.mp member
          · exact ⟨ascending, fun element member => Or.inr member⟩
  obtain ⟨ascending, source⟩ := inserted set.elements ordered.ascending compares
  refine ⟨⟨ascending, fun left leftIn right rightIn => ?_⟩, source⟩
  rcases source left leftIn with rfl | leftOld <;> rcases source right rightIn with rfl | rightOld
  · exact selfFits
  · exact (compares right rightOld).symm
  · exact compares left leftOld
  · exact ordered.crossFits left leftOld right rightOld

def Built (set : RationalSet) : Prop :=
  ∃ values, set = RationalSet.empty.insertAll longDoubleLess values

/-- An insertion moves no element, and a value it does not place leaves the sequence. -/
theorem insertOrdered_sublist (value : Rational) (elements : List Rational) :
    elements.Sublist (insertOrdered longDoubleLess value elements) ∧
      (value ∈ insertOrdered longDoubleLess value elements ∨
        insertOrdered longDoubleLess value elements = elements) := by
  induction elements with
  | nil => simp [insertOrdered]
  | cons first rest ih =>
      obtain ⟨kept, placed⟩ := ih
      rw [insertOrdered]
      split
      · refine ⟨kept.cons_cons first, ?_⟩
        rcases placed with inTail | same
        · exact Or.inl (List.mem_cons_of_mem _ inTail)
        · exact Or.inr (by rw [same])
      · split
        · exact ⟨List.sublist_cons_self .., Or.inl List.mem_cons_self⟩
        · exact ⟨List.Sublist.refl _, Or.inr rfl⟩

theorem insertAll_sublist (values : List Rational) : ∀ set : RationalSet,
    set.elements.Sublist (set.insertAll longDoubleLess values).elements := by
  induction values with
  | nil => exact fun set => List.Sublist.refl _
  | cons first rest ih =>
      intro set
      rw [insertAll, List.foldl_cons, ← insertAll]
      exact (insertOrdered_sublist longDoubleLess first set.elements).1.trans
        (ih (set.insert longDoubleLess first))

/-- A built set whose elements compare exactly is ordered: a value that was
never placed moved nothing. -/
theorem Built.ordered {set : RationalSet} (built : set.Built longDoubleLess)
    (crossFits : ∀ left ∈ set.elements, ∀ right ∈ set.elements, CrossFits left right) :
    set.Ordered := by
  have build : ∀ (values : List Rational) (start : RationalSet), start.Ordered →
      (∀ left ∈ (start.insertAll longDoubleLess values).elements,
        ∀ right ∈ (start.insertAll longDoubleLess values).elements, CrossFits left right) →
      (start.insertAll longDoubleLess values).Ordered := by
    intro values
    induction values with
    | nil => exact fun start ordered _ => ordered
    | cons first rest ih =>
        intro start ordered fits
        rw [insertAll, List.foldl_cons, ← insertAll] at fits ⊢
        refine ih _ ?_ fits
        have kept := (insertAll_sublist longDoubleLess rest
          (start.insert longDoubleLess first)).subset
        obtain ⟨stay, placed⟩ := insertOrdered_sublist longDoubleLess first start.elements
        rcases placed with inStep | same
        · have firstIn := kept inStep
          exact (ordered.insert longDoubleLess
            (fun element member => fits element (kept (stay.subset member)) first firstIn)
            (fits first firstIn first firstIn)).1
        · have unmoved : start.insert longDoubleLess first = start := congrArg RationalSet.mk same
          rwa [unmoved]
  obtain ⟨values, rfl⟩ := built
  exact build values empty ⟨List.Pairwise.nil, by simp [empty]⟩ crossFits

def Ordered.toRats {set : RationalSet} (ordered : set.Ordered) : FlatSet ℚ :=
  ⟨set.elements.map toRat, List.pairwise_map.mpr (ordered.ascending.imp below_iff_toRat.mp)⟩

theorem Ordered.contains_iff {set : RationalSet} (ordered : set.Ordered) {value : Rational}
    (compares : set.ComparesWith value) :
    set.contains longDoubleLess value = true ↔ value.toRat ∈ ordered.toRats := by
  rw [RationalSet.contains_iff longDoubleLess ordered compares, FlatSet.mem_def]
  simp only [toRats, List.mem_map, equal_iff_toRat]

/-- Two sets compare equal when they hold the same fractions in the same order. -/
theorem equal_toRat (left right : RationalSet) : left.equal right = true ↔
    left.elements.map toRat = right.elements.map toRat := by
  have lists : ∀ leftList rightList : List Rational,
      (leftList.length == rightList.length &&
        (leftList.zip rightList).all fun pair => Rational.equal pair.1 pair.2) = true ↔
      leftList.map toRat = rightList.map toRat := by
    intro leftList
    induction leftList with
    | nil => intro rightList; cases rightList <;> simp
    | cons first rest ih =>
        intro rightList
        cases rightList with
        | nil => simp
        | cons second others =>
            have tail := ih others
            simp only [List.map_cons, List.length_cons, List.zip_cons_cons, List.all_cons,
              Bool.and_eq_true, beq_iff_eq, Nat.add_right_cancel_iff, List.cons.injEq,
              equal_iff_toRat] at tail ⊢
            tauto
  exact lists left.elements right.elements

/-- Two ordered sets compare equal when they represent the same fractions. -/
theorem Ordered.equal_iff {left right : RationalSet} (leftOrdered : left.Ordered)
    (rightOrdered : right.Ordered) :
    left.equal right = true ↔ leftOrdered.toRats = rightOrdered.toRats := by
  rw [equal_toRat]
  constructor
  · intro same
    apply FlatSet.ext_mem
    intro value
    simp only [FlatSet.mem_def, toRats, same]
  · intro same
    exact congrArg FlatSet.data same

end RationalSet

end LlvmDsdl.Support
