import Mathlib

/-!
Contract: breadth-first traversal that marks an element when it is taken.

Owns: the order in which a queue's elements are first taken, and the proof that
enough rounds take exactly what the queue reaches.

An element may wait in the queue more than once; only its first turn counts.
-/

namespace LlvmDsdl.Library

namespace Traversal

variable {α : Type} [DecidableEq α]

/-- The elements taken so far and those taken in `rounds` more turns of the queue. -/
def order (successors : α → List α) : ℕ → List α → List α → List α
  | 0, _, taken => taken
  | _ + 1, [], taken => taken
  | rounds + 1, front :: rest, taken =>
      if front ∈ taken then order successors rounds rest taken
      else order successors rounds (rest ++ successors front) (taken ++ [front])

variable (successors : α → List α)

theorem subset_order (rounds : ℕ) (queue taken : List α) :
    taken ⊆ order successors rounds queue taken := by
  induction rounds generalizing queue taken with
  | zero => exact List.Subset.refl taken
  | succ rounds ih =>
      cases queue with
      | nil => exact List.Subset.refl taken
      | cons front rest =>
          rw [order]
          split
          · exact ih rest taken
          · exact List.Subset.trans (List.subset_append_left taken [front]) (ih _ _)

/-- What holds of the queue and passes to successors holds of everything taken. -/
theorem order_induction {P : α → Prop}
    (step : ∀ element next, P element → next ∈ successors element → P next) (rounds : ℕ)
    {queue taken : List α} (queued : ∀ element ∈ queue, P element)
    (before : ∀ element ∈ taken, P element) :
    ∀ element ∈ order successors rounds queue taken, P element := by
  induction rounds generalizing queue taken with
  | zero => exact before
  | succ rounds ih =>
      cases queue with
      | nil => exact before
      | cons front rest =>
          have frontHolds := queued front List.mem_cons_self
          have restHolds : ∀ element ∈ rest, P element :=
            fun element member => queued element (List.mem_cons_of_mem _ member)
          rw [order]
          split
          · exact ih restHolds before
          · refine ih ?_ ?_
            · intro element member
              rcases List.mem_append.mp member with inRest | isNext
              · exact restHolds element inRest
              · exact step front element frontHolds isNext
            · intro element member
              rcases List.mem_append.mp member with earlier | here
              · exact before element earlier
              · rw [List.mem_singleton.mp here]
                exact frontHolds

/-- What is left to do: the queue, and the successors of what has not been taken. -/
def weight (whole : Finset α) (queue taken : List α) : ℕ :=
  queue.length + ∑ element ∈ whole \ taken.toFinset, (successors element).length

theorem weight_take {whole : Finset α} {front : α} (rest : List α) {taken : List α}
    (inside : front ∈ whole) (new : front ∉ taken) :
    weight successors whole (rest ++ successors front) (taken ++ [front]) + 1 =
      weight successors whole (front :: rest) taken := by
  have present : front ∈ whole \ taken.toFinset :=
    Finset.mem_sdiff.mpr ⟨inside, fun member => new (List.mem_toFinset.mp member)⟩
  have left : whole \ (taken ++ [front]).toFinset = (whole \ taken.toFinset).erase front := by
    ext element
    simp only [Finset.mem_sdiff, List.mem_toFinset, List.mem_append, List.mem_singleton, not_or,
      Finset.mem_erase]
    tauto
  rw [weight, weight, left, List.length_append, List.length_cons,
    ← Finset.add_sum_erase _ _ present]
  omega

/-- Everything taken has its successors taken or in the queue. -/
def Expanded (queue taken : List α) : Prop :=
  ∀ element ∈ taken, ∀ next ∈ successors element, next ∈ taken ∨ next ∈ queue

theorem order_closed {whole : Finset α}
    (inside : ∀ element ∈ whole, ∀ next ∈ successors element, next ∈ whole) (rounds : ℕ)
    {queue taken : List α} (queued : ∀ element ∈ queue, element ∈ whole)
    (expanded : Expanded successors queue taken)
    (enough : weight successors whole queue taken ≤ rounds) :
    queue ⊆ order successors rounds queue taken ∧
      ∀ element ∈ order successors rounds queue taken,
        ∀ next ∈ successors element, next ∈ order successors rounds queue taken := by
  induction rounds generalizing queue taken with
  | zero =>
      have empty : queue = [] := by
        rw [weight] at enough
        exact List.eq_nil_of_length_eq_zero (by omega)
      subst empty
      refine ⟨List.nil_subset _, fun element member next isNext => ?_⟩
      exact (expanded element member next isNext).resolve_right List.not_mem_nil
  | succ rounds ih =>
      cases queue with
      | nil =>
          refine ⟨List.nil_subset _, fun element member next isNext => ?_⟩
          exact (expanded element member next isNext).resolve_right List.not_mem_nil
      | cons front rest =>
          have frontInside := queued front List.mem_cons_self
          have restInside : ∀ element ∈ rest, element ∈ whole :=
            fun element member => queued element (List.mem_cons_of_mem _ member)
          rw [order]
          by_cases known : front ∈ taken
          · rw [if_pos known]
            have less : weight successors whole rest taken ≤ rounds := by
              rw [weight, List.length_cons] at enough
              rw [weight]
              omega
            have stays : Expanded successors rest taken := by
              intro element member next isNext
              rcases expanded element member next isNext with there | waiting
              · exact Or.inl there
              · rcases List.mem_cons.mp waiting with same | later
                · rw [same]
                  exact Or.inl known
                · exact Or.inr later
            obtain ⟨restTaken, closed⟩ := ih restInside stays less
            refine ⟨List.cons_subset.mpr ⟨?_, restTaken⟩, closed⟩
            exact subset_order successors rounds rest taken known
          · rw [if_neg known]
            have less : weight successors whole (rest ++ successors front) (taken ++ [front]) ≤
                rounds := by
              have one := weight_take successors rest frontInside known
              omega
            have grows : Expanded successors (rest ++ successors front) (taken ++ [front]) := by
              intro element member next isNext
              rcases List.mem_append.mp member with earlier | here
              · rcases expanded element earlier next isNext with there | waiting
                · exact Or.inl (List.mem_append_left _ there)
                · rcases List.mem_cons.mp waiting with same | later
                  · rw [same]
                    exact Or.inl (List.mem_append_right _ (List.mem_singleton_self front))
                  · exact Or.inr (List.mem_append_left _ later)
              · rw [List.mem_singleton.mp here] at isNext
                exact Or.inr (List.mem_append_right _ isNext)
            have allInside : ∀ element ∈ rest ++ successors front, element ∈ whole := by
              intro element member
              rcases List.mem_append.mp member with inRest | isNext
              · exact restInside element inRest
              · exact inside front frontInside element isNext
            obtain ⟨queueTaken, closed⟩ := ih allInside grows less
            refine ⟨List.cons_subset.mpr ⟨?_, ?_⟩, closed⟩
            · exact subset_order successors rounds _ _
                (List.mem_append_right _ (List.mem_singleton_self front))
            · exact List.Subset.trans (List.subset_append_left rest _) queueTaken

/-- **The traversal takes exactly what the queue reaches.** -/
theorem mem_order_iff {whole : Finset α}
    (inside : ∀ element ∈ whole, ∀ next ∈ successors element, next ∈ whole) {start : List α}
    (queued : ∀ element ∈ start, element ∈ whole) {rounds : ℕ}
    (enough : weight successors whole start [] ≤ rounds) {element : α} :
    element ∈ order successors rounds start [] ↔
      ∃ first ∈ start,
        Relation.ReflTransGen (fun one next => next ∈ successors one) first element := by
  constructor
  · have step : ∀ one next, (∃ first ∈ start,
        Relation.ReflTransGen (fun one next => next ∈ successors one) first one) →
          next ∈ successors one → ∃ first ∈ start,
            Relation.ReflTransGen (fun one next => next ∈ successors one) first next := by
      rintro one next ⟨first, isFirst, path⟩ isNext
      exact ⟨first, isFirst, path.tail isNext⟩
    exact order_induction successors step rounds (fun first isFirst => ⟨first, isFirst, .refl⟩)
      (fun _ absent => absurd absent List.not_mem_nil) element
  · rintro ⟨first, isFirst, path⟩
    obtain ⟨taken, closed⟩ := order_closed successors inside rounds queued
      (fun _ absent => absurd absent List.not_mem_nil) enough
    induction path with
    | refl => exact taken isFirst
    | tail _ isNext ih => exact closed _ ih _ isNext

end Traversal

end LlvmDsdl.Library
