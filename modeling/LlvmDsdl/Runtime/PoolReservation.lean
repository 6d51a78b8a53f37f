import Mathlib

/-!
Contract: pool-backed reservation of variable-length arrays.

Owns: `usize` arithmetic, the memory contract and the storage of an array, the
budget pool, `reserve_with_pool`, runs of calls of any number of arrays against
one pool, the pool's accounting over every run, and exactly which runs are
atomic.

Does not own the elements, of which an array is only the count, nor the
allocator: what it answers to a growth of the storage is an input of each call.
-/

namespace LlvmDsdl.Runtime.PoolReservation

abbrev Usize (w : ℕ) := BitVec w

variable {w : ℕ}

def saturatingAdd (a b : Usize w) : Usize w :=
  if a.toNat + b.toNat < 2 ^ w then a + b else BitVec.allOnes w

def saturatingMul (a b : Usize w) : Usize w :=
  if a.toNat * b.toNat < 2 ^ w then a * b else BitVec.allOnes w

def checkedAdd (a b : Usize w) : Option (Usize w) :=
  if a.toNat + b.toNat < 2 ^ w then some (a + b) else none

/-- `isize::MAX`, the most bytes one allocation may have. -/
def isizeMax (w : ℕ) : ℕ := 2 ^ (w - 1) - 1

inductive DsdlMemoryMode where
  | maxInline
  | inlineThenPool
  deriving DecidableEq

abbrev AllocationClassId := BitVec 32

structure VarArrayMemoryContract (w : ℕ) where
  mode : DsdlMemoryMode
  inlineThresholdBytes : Usize w
  allocationClass : AllocationClassId
  deriving DecidableEq

inductive AllocationErrorKind where
  | outOfMemory
  | invalidRequest
  deriving DecidableEq

structure AllocationError (w : ℕ) where
  kind : AllocationErrorKind
  classId : AllocationClassId
  requestedBytes : Usize w
  deriving DecidableEq

structure BudgetPoolProvider (w : ℕ) where
  remainingBytes : Usize w
  totalAllocatedBytes : Usize w
  allocations : BitVec 64
  nextHandle : BitVec 64
  deriving DecidableEq

def BudgetPoolProvider.new (totalBudgetBytes : Usize w) : BudgetPoolProvider w :=
  ⟨totalBudgetBytes, 0, 0, 1⟩

/-- `align_up`: refuses an alignment that is no power of two, and a sum past `usize`. -/
def alignUp (value align : Usize w) : Option (Usize w) :=
  if ¬align.toNat.isPowerOfTwo then none
  else
    let mask := align - 1
    (checkedAdd value mask).map fun v => v &&& ~~~mask

/-- The pool after it granted `alignedBytes`. -/
def BudgetPoolProvider.charged (pool : BudgetPoolProvider w) (alignedBytes : Usize w) :
    BudgetPoolProvider w where
  remainingBytes := pool.remainingBytes - alignedBytes
  totalAllocatedBytes := pool.totalAllocatedBytes + alignedBytes
  allocations := pool.allocations + 1
  nextHandle := pool.nextHandle + 1

/-- `BudgetPoolProvider::alloc`, with the pool it leaves. -/
def BudgetPoolProvider.alloc (pool : BudgetPoolProvider w) (classId : AllocationClassId)
    (bytes align : Usize w) : Except (AllocationError w) (BitVec 64) × BudgetPoolProvider w :=
  match alignUp bytes align with
  | none => (.error ⟨.invalidRequest, classId, bytes⟩, pool)
  | some alignedBytes =>
      if alignedBytes > pool.remainingBytes then
        (.error ⟨.outOfMemory, classId, alignedBytes⟩, pool)
      else (.ok pool.nextHandle, pool.charged alignedBytes)

structure ElementLayout (w : ℕ) where
  size : Usize w
  align : Usize w
  isPowerOfTwo : align.toNat.isPowerOfTwo

/-- An array of some element type: its length, its capacity and its contract. -/
structure VarArray (w : ℕ) where
  element : ElementLayout w
  len : Usize w
  capacity : Usize w
  contract : VarArrayMemoryContract w
  len_le : len.toNat ≤ capacity.toNat

/-- What the allocator answers when the storage must grow: the capacity it came to, or nothing. -/
abbrev Growth (w : ℕ) := Option (Usize w)

/-- A capacity the storage can have after making room for `additional` more elements. -/
def VarArray.Serves (array : VarArray w) (additional capacity : Usize w) : Prop :=
  array.len.toNat + additional.toNat ≤ capacity.toNat ∧
    capacity.toNat * array.element.size.toNat ≤ isizeMax w

instance (array : VarArray w) (additional capacity : Usize w) :
    Decidable (array.Serves additional capacity) :=
  inferInstanceAs (Decidable (_ ∧ _))

/-- `Vec::try_reserve`: nothing where there is room already, otherwise what the allocator gives. -/
def VarArray.vecTryReserve (array : VarArray w) (additional : Usize w) (growth : Growth w) :
    Option (VarArray w) :=
  if additional.toNat ≤ array.capacity.toNat - array.len.toNat then some array
  else
    growth.bind fun capacity =>
      if serves : array.Serves additional capacity then
        some { array with
          capacity := capacity
          len_le := (Nat.le_add_right _ _).trans serves.1 }
      else none

def VarArray.tryReserve (array : VarArray w) (additional : Usize w) (growth : Growth w) :
    Except (AllocationError w) Unit × VarArray w :=
  match array.vecTryReserve additional growth with
  | some reserved => (.ok (), reserved)
  | none =>
      (.error ⟨.outOfMemory, array.contract.allocationClass,
        saturatingMul additional array.element.size⟩, array)

/-- The bytes an array of the contract's mode asks its pool for, if it asks. -/
def VarArray.poolRequest (array : VarArray w) (additional : Usize w) : Option (Usize w) :=
  if array.contract.mode = .inlineThenPool ∧ array.element.size ≠ 0 then
    let targetLen := saturatingAdd array.len additional
    let targetBytes := saturatingMul targetLen array.element.size
    if targetBytes > array.contract.inlineThresholdBytes then
      some (targetBytes - array.contract.inlineThresholdBytes)
    else none
  else none

/-- `VarArray::reserve_with_pool` against a budget pool. -/
def VarArray.reserveWithPool (array : VarArray w) (additional : Usize w)
    (pool : BudgetPoolProvider w) (growth : Growth w) :
    Except (AllocationError w) Unit × VarArray w × BudgetPoolProvider w :=
  match array.poolRequest additional with
  | none =>
      let (outcome, reserved) := array.tryReserve additional growth
      (outcome, reserved, pool)
  | some requested =>
      -- an alignment is at least one, so the source's `max(1)` changes nothing
      match pool.alloc array.contract.allocationClass requested array.element.align with
      | (.error error, after) => (.error error, array, after)
      | (.ok _, after) =>
          let (outcome, reserved) := array.tryReserve additional growth
          (outcome, reserved, after)

/-- Arrays that reserve against one pool. -/
structure State (ι : Type) (w : ℕ) where
  arrays : ι → VarArray w
  pool : BudgetPoolProvider w

/-- A reservation, or any other operation on one of the arrays. -/
inductive Event (ι : Type) (w : ℕ) where
  | reserve (index : ι) (additional : Usize w) (growth : Growth w)
  | replace (index : ι) (array : VarArray w)

variable {ι : Type} [DecidableEq ι]

/-- A reservation of one of the arrays, with its outcome. -/
def State.reserve (state : State ι w) (index : ι) (additional : Usize w) (growth : Growth w) :
    Except (AllocationError w) Unit × State ι w :=
  let (outcome, array, pool) :=
    (state.arrays index).reserveWithPool additional state.pool growth
  (outcome, ⟨Function.update state.arrays index array, pool⟩)

def State.next (state : State ι w) : Event ι w → State ι w
  | .reserve index additional growth => (state.reserve index additional growth).2
  | .replace index array => { state with arrays := Function.update state.arrays index array }

/-- Every byte of the budget is either left or accounted for. -/
def BudgetPoolProvider.Balanced (budget : Usize w) (pool : BudgetPoolProvider w) : Prop :=
  pool.remainingBytes.toNat + pool.totalAllocatedBytes.toNat = budget.toNat

/-- What a reservation keeps: an error changes nothing, the budget stays balanced and is drawn on
without wrapping, and success leaves room. -/
structure Kept (budget : Usize w) (state : State ι w) (index : ι) (additional : Usize w)
    (growth : Growth w) : Prop where
  atomic : ∀ error, (state.reserve index additional growth).1 = .error error →
    (state.reserve index additional growth).2 = state
  balanced : (state.reserve index additional growth).2.pool.Balanced budget
  drawn : (state.reserve index additional growth).2.pool.remainingBytes.toNat ≤
    state.pool.remainingBytes.toNat
  room : (state.reserve index additional growth).1 = .ok () →
    ((state.reserve index additional growth).2.arrays index).len.toNat + additional.toNat ≤
      ((state.reserve index additional growth).2.arrays index).capacity.toNat

def RunKept (budget : Usize w) (state : State ι w) : List (Event ι w) → Prop
  | [] => True
  | event :: rest =>
      (match event with
        | .reserve index additional growth => Kept budget state index additional growth
        | .replace _ _ => True) ∧ RunKept budget (state.next event) rest

/-- The storage has to grow and the allocator gives no capacity that serves. -/
def VarArray.CannotGrow (array : VarArray w) (additional : Usize w) (growth : Growth w) : Prop :=
  array.capacity.toNat - array.len.toNat < additional.toNat ∧
    ∀ capacity, growth = some capacity → ¬array.Serves additional capacity

/-- The pool can grant what the array asks for, and then the storage cannot grow. -/
def State.Strands (state : State ι w) (index : ι) (additional : Usize w) (growth : Growth w) :
    Prop :=
  (∃ requested alignedBytes, (state.arrays index).poolRequest additional = some requested ∧
    alignUp requested (state.arrays index).element.align = some alignedBytes ∧
    alignedBytes.toNat ≤ state.pool.remainingBytes.toNat) ∧
  (state.arrays index).CannotGrow additional growth

/-- No reservation of the run charges the pool for storage it does not get. -/
def RunUnstranded (state : State ι w) : List (Event ι w) → Prop
  | [] => True
  | event :: rest =>
      (match event with
        | .reserve index additional growth => ¬state.Strands index additional growth
        | .replace _ _ => True) ∧ RunUnstranded (state.next event) rest

theorem poolRequest_pos {array : VarArray w} {additional requested : Usize w}
    (asked : array.poolRequest additional = some requested) : 0 < requested.toNat := by
  rw [VarArray.poolRequest] at asked
  split at asked
  · dsimp only at asked
    split at asked
    · rename_i crossing
      rw [← Option.some.inj asked, BitVec.toNat_sub_of_le (BitVec.le_of_lt crossing)]
      exact Nat.sub_pos_of_lt crossing
    · cases asked
  · cases asked

theorem alignUp_pos {value align alignedBytes : Usize w}
    (rounded : alignUp value align = some alignedBytes) (positive : 0 < value.toNat) :
    0 < alignedBytes.toNat := by
  rw [alignUp] at rounded
  split at rounded
  · cases rounded
  rename_i powerOfTwo
  obtain ⟨k, alignIs⟩ := not_not.mp powerOfTwo
  obtain ⟨sum, added, rfl⟩ := Option.map_eq_some_iff.mp rounded
  rw [checkedAdd] at added
  split at added
  · rename_i fits
    have unitLe : (1 : Usize w).toNat ≤ align.toNat := by
      rw [alignIs]
      exact (Nat.mod_le 1 _).trans Nat.one_le_two_pow
    have maskIs : (align - 1).toNat = 2 ^ k - 1 := by
      have small : (1 : Usize w).toNat = 1 := by
        have nonempty : 1 < 2 ^ w := by
          have bound := value.isLt
          omega
        exact Nat.mod_eq_of_lt nonempty
      rw [BitVec.toNat_sub_of_le unitLe, small, alignIs]
    have sumIs : sum.toNat = value.toNat + (2 ^ k - 1) := by
      rw [← Option.some.inj added, BitVec.toNat_add, Nat.mod_eq_of_lt fits, maskIs]
    by_contra zero
    have below : sum.toNat < 2 ^ k := by
      refine Nat.lt_pow_two_of_testBit _ fun i high => ?_
      have cleared : (sum &&& ~~~(align - 1)).getLsbD i = false := by
        rw [BitVec.getLsbD, Nat.eq_zero_of_not_pos zero, Nat.zero_testBit]
      have unmasked : (align - 1).getLsbD i = false := by
        rw [BitVec.getLsbD, maskIs, Nat.testBit_two_pow_sub_one]
        exact decide_eq_false (by omega)
      rw [BitVec.getLsbD_and, BitVec.getLsbD_not, unmasked] at cleared
      by_cases inside : i < w
      · simpa [inside, BitVec.getLsbD] using cleared
      · exact Nat.testBit_lt_two_pow (sum.isLt.trans_le
          (Nat.pow_le_pow_right two_pos (by omega)))
    omega
  · cases added

theorem tryReserve_error_iff {array : VarArray w} {additional : Usize w} {growth : Growth w} :
    (∃ error, (array.tryReserve additional growth).1 = .error error) ↔
      array.CannotGrow additional growth := by
  rw [VarArray.tryReserve, VarArray.vecTryReserve, VarArray.CannotGrow]
  by_cases roomy : additional.toNat ≤ array.capacity.toNat - array.len.toNat
  · simp [roomy]
  · cases growth with
    | none =>
        simp [roomy]
        omega
    | some capacity =>
        by_cases serves : array.Serves additional capacity <;> simp [roomy, serves]
        omega

theorem tryReserve_unchanged {array : VarArray w} {additional : Usize w} {growth : Growth w}
    {error : AllocationError w} (refused : (array.tryReserve additional growth).1 = .error error) :
    (array.tryReserve additional growth).2 = array := by
  rw [VarArray.tryReserve] at refused ⊢
  split at refused
  · cases refused
  · rfl

theorem tryReserve_room {array : VarArray w} {additional : Usize w} {growth : Growth w}
    (reserved : (array.tryReserve additional growth).1 = .ok ()) :
    (array.tryReserve additional growth).2.len.toNat + additional.toNat ≤
      (array.tryReserve additional growth).2.capacity.toNat := by
  rw [VarArray.tryReserve] at reserved ⊢
  split at reserved
  · rename_i result granted
    dsimp only
    rw [VarArray.vecTryReserve] at granted
    split at granted
    · rename_i roomy
      have within := array.len_le
      rw [← Option.some.inj granted]
      omega
    · obtain ⟨capacity, _, grown⟩ := Option.bind_eq_some_iff.mp granted
      split at grown
      · rename_i serves
        rw [← Option.some.inj grown]
        exact serves.1
      · cases grown
  · cases reserved

section Accounting

variable {budget alignedBytes : Usize w} {pool : BudgetPoolProvider w}

theorem remaining_charged (within : alignedBytes.toNat ≤ pool.remainingBytes.toNat) :
    (pool.charged alignedBytes).remainingBytes.toNat =
      pool.remainingBytes.toNat - alignedBytes.toNat :=
  BitVec.toNat_sub_of_le within

/-- Charging moves bytes from what is left to what is accounted for. -/
theorem balanced_charged (balanced : pool.Balanced budget)
    (within : alignedBytes.toNat ≤ pool.remainingBytes.toNat) :
    (pool.charged alignedBytes).Balanced budget := by
  have bound := budget.isLt
  rw [BudgetPoolProvider.Balanced] at balanced ⊢
  have total : (pool.charged alignedBytes).totalAllocatedBytes.toNat =
      pool.totalAllocatedBytes.toNat + alignedBytes.toNat := by
    refine (BitVec.toNat_add _ _).trans (Nat.mod_eq_of_lt ?_)
    omega
  rw [remaining_charged within, total]
  omega

theorem balanced_new : (BudgetPoolProvider.new budget).Balanced budget := by
  simp [BudgetPoolProvider.Balanced, BudgetPoolProvider.new]

end Accounting

/-- A reservation reaches the storage without the pool, stops at the pool, or charges it first. -/
theorem reserveWithPool_cases (array : VarArray w) (additional : Usize w)
    (pool : BudgetPoolProvider w) (growth : Growth w) :
    (array.poolRequest additional = none ∧ array.reserveWithPool additional pool growth =
      ((array.tryReserve additional growth).1, (array.tryReserve additional growth).2, pool)) ∨
    (∃ requested error, array.poolRequest additional = some requested ∧
      (∀ alignedBytes, alignUp requested array.element.align = some alignedBytes →
        ¬alignedBytes.toNat ≤ pool.remainingBytes.toNat) ∧
      array.reserveWithPool additional pool growth = (.error error, array, pool)) ∨
    ∃ requested alignedBytes, array.poolRequest additional = some requested ∧
      alignUp requested array.element.align = some alignedBytes ∧
      alignedBytes.toNat ≤ pool.remainingBytes.toNat ∧
      array.reserveWithPool additional pool growth =
        ((array.tryReserve additional growth).1, (array.tryReserve additional growth).2,
          pool.charged alignedBytes) := by
  rw [VarArray.reserveWithPool]
  cases asked : array.poolRequest additional with
  | none => exact Or.inl ⟨rfl, rfl⟩
  | some requested =>
      dsimp only
      rw [BudgetPoolProvider.alloc]
      cases rounded : alignUp requested array.element.align with
      | none =>
          refine Or.inr (Or.inl ⟨requested, _, rfl, fun alignedBytes same => ?_, rfl⟩)
          rw [rounded] at same
          cases same
      | some alignedBytes =>
          dsimp only
          by_cases beyond : alignedBytes > pool.remainingBytes
          · rw [if_pos beyond]
            refine Or.inr (Or.inl ⟨requested, _, rfl, fun other same => ?_, rfl⟩)
            rw [rounded] at same
            rw [← Option.some.inj same]
            exact Nat.not_le_of_lt beyond
          · rw [if_neg beyond]
            exact Or.inr (Or.inr ⟨requested, alignedBytes, rfl, rounded,
              Nat.le_of_not_lt beyond, rfl⟩)

variable {budget : Usize w} {state : State ι w}

/-- **One reservation keeps what it should exactly when it does not strand a charge.** -/
theorem kept_iff (balanced : state.pool.Balanced budget) (index : ι) (additional : Usize w)
    (growth : Growth w) :
    Kept budget state index additional growth ↔ ¬state.Strands index additional growth := by
  have unchanged : (⟨Function.update state.arrays index (state.arrays index), state.pool⟩ :
      State ι w) = state := by
    rw [Function.update_eq_self]
  rcases reserveWithPool_cases (state.arrays index) additional state.pool growth with
    ⟨unasked, whole⟩ | ⟨requested, error, asked, refused, whole⟩ |
    ⟨requested, alignedBytes, asked, rounded, within, whole⟩
  · refine iff_of_true ⟨fun error failed => ?_, ?_, ?_, fun reserved => ?_⟩ ?_
    · rw [State.reserve, whole] at failed ⊢
      dsimp only
      rw [tryReserve_unchanged failed]
      exact unchanged
    · rw [State.reserve, whole]
      exact balanced
    · rw [State.reserve, whole]
    · rw [State.reserve, whole] at reserved ⊢
      simpa only [Function.update_self] using tryReserve_room reserved
    · rintro ⟨⟨requested, _, asked, _⟩, _⟩
      rw [unasked] at asked
      cases asked
  · refine iff_of_true ⟨fun _ _ => ?_, ?_, ?_, fun reserved => ?_⟩ ?_
    · rw [State.reserve, whole]
      exact unchanged
    · rw [State.reserve, whole]
      exact balanced
    · rw [State.reserve, whole]
    · rw [State.reserve, whole] at reserved
      cases reserved
    · rintro ⟨⟨other, alignedBytes, otherAsked, rounded, within⟩, _⟩
      rw [asked] at otherAsked
      rw [← Option.some.inj otherAsked] at rounded
      exact refused alignedBytes rounded within
  · have granted : state.Strands index additional growth ↔
        (state.arrays index).CannotGrow additional growth :=
      and_iff_right ⟨requested, alignedBytes, asked, rounded, within⟩
    rw [granted]
    constructor
    · intro kept stuck
      obtain ⟨error, failed⟩ := tryReserve_error_iff.mpr stuck
      have same := kept.atomic error (by rw [State.reserve, whole]; exact failed)
      rw [State.reserve, whole] at same
      have samePool : state.pool.charged alignedBytes = state.pool := congrArg State.pool same
      have left := remaining_charged within
      have positive := alignUp_pos rounded (poolRequest_pos asked)
      rw [samePool] at left
      omega
    · intro served
      refine ⟨fun error failed => ?_, ?_, ?_, fun reserved => ?_⟩
      · rw [State.reserve, whole] at failed
        exact absurd (tryReserve_error_iff.mp ⟨error, failed⟩) served
      · rw [State.reserve, whole]
        exact balanced_charged balanced within
      · rw [State.reserve, whole]
        exact (remaining_charged within).trans_le (Nat.sub_le _ _)
      · rw [State.reserve, whole] at reserved ⊢
        simpa only [Function.update_self] using tryReserve_room reserved

theorem balanced_next (balanced : state.pool.Balanced budget) (event : Event ι w) :
    (state.next event).pool.Balanced budget := by
  cases event with
  | replace index array => exact balanced
  | reserve index additional growth =>
      rw [State.next, State.reserve]
      rcases reserveWithPool_cases (state.arrays index) additional state.pool growth with
        ⟨_, whole⟩ | ⟨_, _, _, _, whole⟩ | ⟨_, _, _, _, within, whole⟩
      · rw [whole]
        exact balanced
      · rw [whole]
        exact balanced
      · rw [whole]
        exact balanced_charged balanced within

theorem runKept_iff (balanced : state.pool.Balanced budget) (events : List (Event ι w)) :
    RunKept budget state events ↔ RunUnstranded state events := by
  induction events generalizing state with
  | nil => exact Iff.rfl
  | cons event rest ih =>
      have later := ih (balanced_next balanced event)
      cases event with
      | replace index array => exact and_congr Iff.rfl later
      | reserve index additional growth =>
          exact and_congr (kept_iff balanced index additional growth) later

/-- **Pool-backed reservation is atomic in exactly the runs that strand no charge**: those in which
no reservation is granted its bytes by the pool and then refused its storage. -/
theorem reservation_atomic_iff (budget : Usize w) (arrays : ι → VarArray w)
    (events : List (Event ι w)) :
    RunKept budget ⟨arrays, .new budget⟩ events ↔ RunUnstranded ⟨arrays, .new budget⟩ events :=
  runKept_iff balanced_new events

/-- Bytes with no inline part, on a target with 64-bit pointers. -/
def pooledBytes : VarArray 64 where
  element := ⟨1, 1, 0, rfl⟩
  len := 0
  capacity := 0
  contract := ⟨.inlineThenPool, 0, 0⟩
  len_le := Nat.le_refl _

/-- Half of the address space is charged to the pool and then no storage can have that size. -/
theorem reservation_strands :
    ¬RunKept (BitVec.allOnes 64)
      ⟨fun _ : Unit => pooledBytes, .new (BitVec.allOnes 64)⟩
      [.reserve () 0x8000000000000000#64 none] := by
  intro kept
  refine ((runKept_iff balanced_new _).mp kept).1
    ⟨⟨0x8000000000000000#64, 0x8000000000000000#64, ?_, ?_, ?_⟩, ?_, ?_⟩
  · decide
  · decide
  · decide
  · decide
  · intro capacity given
    cases given

end LlvmDsdl.Runtime.PoolReservation
