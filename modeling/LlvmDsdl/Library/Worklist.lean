import Mathlib

/-!
Contract: breadth-first marking with a queue.

Owns: the marking of everything that can be reached from the marked elements of a
queue, and the proof that the loop ends with a closed set.
-/

namespace LlvmDsdl.Library

variable {α : Type} [DecidableEq α]

/-- The marked elements and the queue of those not expanded so far. -/
structure Worklist (α : Type) where
  marked : Finset α
  queue : List α

namespace Worklist

/-- Mark and enqueue an element met for the first time. -/
def meet (work : Worklist α) (element : α) : Worklist α :=
  if element ∈ work.marked then work
  else ⟨insert element work.marked, work.queue ++ [element]⟩

/-- The loop: expand the front of the queue until it is empty. -/
def run (successors : α → List α) : ℕ → Worklist α → Finset α
  | 0, work => work.marked
  | rounds + 1, work =>
      match work.queue with
      | [] => work.marked
      | front :: rest => run successors rounds ((successors front).foldl meet ⟨work.marked, rest⟩)

theorem meet_of_marked {work : Worklist α} {element : α} (known : element ∈ work.marked) :
    work.meet element = work := by
  rw [meet, if_pos known]

theorem meet_of_new {work : Worklist α} {element : α} (new : element ∉ work.marked) :
    work.meet element = ⟨insert element work.marked, work.queue ++ [element]⟩ := by
  rw [meet, if_neg new]

theorem mem_marked_foldl {elements : List α} {work : Worklist α} {other : α} :
    other ∈ (elements.foldl meet work).marked ↔ other ∈ work.marked ∨ other ∈ elements := by
  induction elements generalizing work with
  | nil => simp only [List.foldl_nil, List.not_mem_nil, or_false]
  | cons element rest ih =>
      rw [List.foldl_cons, ih, List.mem_cons]
      by_cases known : element ∈ work.marked
      · rw [meet_of_marked known]
        constructor
        · exact fun either => either.imp_right Or.inr
        · rintro (marked | same | later)
          · exact Or.inl marked
          · rw [same]
            exact Or.inl known
          · exact Or.inr later
      · rw [meet_of_new known, Finset.mem_insert, or_comm (a := other = element), or_assoc]

theorem mem_queue_foldl {elements : List α} {work : Worklist α} {other : α} :
    other ∈ (elements.foldl meet work).queue ↔
      other ∈ work.queue ∨ other ∈ elements ∧ other ∉ work.marked := by
  induction elements generalizing work with
  | nil => simp only [List.foldl_nil, List.not_mem_nil, false_and, or_false]
  | cons element rest ih =>
      rw [List.foldl_cons, ih, List.mem_cons]
      by_cases known : element ∈ work.marked
      · rw [meet_of_marked known]
        constructor
        · exact fun either => either.imp_right fun new => ⟨Or.inr new.1, new.2⟩
        · rintro (queued | ⟨same | later, new⟩)
          · exact Or.inl queued
          · rw [same] at new
            exact absurd known new
          · exact Or.inr ⟨later, new⟩
      · rw [meet_of_new known, List.mem_append, List.mem_singleton, Finset.mem_insert, not_or]
        by_cases same : other = element
        · rw [same]
          simp only [known, not_false_eq_true, true_and, not_true_eq_false, false_and, and_false,
            or_true, true_or]
        · simp only [same, or_false, false_or, not_false_eq_true, true_and]

variable (whole : Finset α) (successors : α → List α)

/-- What is left to do: the queue, and what can still be enqueued. -/
def weight (work : Worklist α) : ℕ :=
  work.queue.length + (whole \ work.marked).card

variable {whole successors}

theorem weight_meet {work : Worklist α} {element : α} (inside : element ∈ whole) :
    (work.meet element).weight whole = work.weight whole := by
  by_cases known : element ∈ work.marked
  · rw [meet_of_marked known]
  · rw [meet_of_new known, weight, weight, List.length_append, List.length_singleton,
      Finset.sdiff_insert]
    have present : element ∈ whole \ work.marked := Finset.mem_sdiff.mpr ⟨inside, known⟩
    rw [Finset.card_erase_of_mem present]
    have positive := Finset.card_pos.mpr ⟨element, present⟩
    omega

theorem weight_foldl {elements : List α} {work : Worklist α}
    (inside : ∀ element ∈ elements, element ∈ whole) :
    (elements.foldl meet work).weight whole = work.weight whole := by
  induction elements generalizing work with
  | nil => rfl
  | cons element rest ih =>
      rw [List.foldl_cons, ih fun other member =>
        inside other (List.mem_cons_of_mem _ member), weight_meet (inside element List.mem_cons_self)]

variable (successors) in
/-- Marked elements that are not queued have marked successors. -/
structure Expanded (work : Worklist α) : Prop where
  queued : ∀ element ∈ work.queue, element ∈ work.marked
  expanded : ∀ element ∈ work.marked, element ∉ work.queue →
    ∀ next ∈ successors element, next ∈ work.marked

theorem Expanded.round {marked : Finset α} {front : α} {rest : List α}
    (invariant : Expanded successors ⟨marked, front :: rest⟩) :
    Expanded successors ((successors front).foldl meet ⟨marked, rest⟩) where
  queued element member := by
    rw [mem_marked_foldl]
    rcases mem_queue_foldl.mp member with queued | ⟨new, _⟩
    · exact Or.inl (invariant.queued element (List.mem_cons_of_mem _ queued))
    · exact Or.inr new
  expanded element member idle next isNext := by
    rw [mem_queue_foldl, not_or, not_and_or, not_not] at idle
    rw [mem_marked_foldl] at member ⊢
    have wasMarked : element ∈ marked := by
      rcases member with marked | new
      · exact marked
      · exact idle.2.resolve_left fun absent => absent new
    by_cases same : element = front
    · rw [same] at isNext
      exact Or.inr isNext
    · left
      refine invariant.expanded element wasMarked ?_ next isNext
      intro queued
      rcases List.mem_cons.mp queued with here | later
      · exact same here
      · exact idle.1 later

theorem run_marked (rounds : ℕ) (work : Worklist α) : work.marked ⊆ run successors rounds work := by
  induction rounds generalizing work with
  | zero => exact subset_rfl
  | succ rounds ih =>
      rw [run]
      split
      · exact subset_rfl
      · rename_i front rest _
        intro element member
        exact ih _ (mem_marked_foldl.mpr (Or.inl member))

theorem run_closed (rounds : ℕ) (work : Worklist α) (invariant : Expanded successors work)
    (inside : ∀ element, ∀ next ∈ successors element, next ∈ whole)
    (enough : work.weight whole ≤ rounds) {element next : α}
    (member : element ∈ run successors rounds work) (isNext : next ∈ successors element) :
    next ∈ run successors rounds work := by
  induction rounds generalizing work with
  | zero =>
      have empty : work.queue = [] := by
        rw [weight] at enough
        exact List.eq_nil_of_length_eq_zero (by omega)
      refine invariant.expanded element member ?_ next isNext
      rw [empty]
      exact List.not_mem_nil
  | succ rounds ih =>
      rw [run] at member ⊢
      split at member
      · rename_i empty
        refine invariant.expanded element member ?_ next isNext
        rw [empty]
        exact List.not_mem_nil
      · rename_i front rest queue
        have invariant' : Expanded successors ⟨work.marked, front :: rest⟩ := by
          rw [← queue]
          exact invariant
        refine ih _ invariant'.round ?_ member
        rw [weight_foldl (inside front)]
        rw [weight, queue, List.length_cons] at enough
        rw [weight]
        dsimp only
        omega

theorem run_reached {P : α → Prop} (step : ∀ element next, P element → next ∈ successors element →
      P next) (rounds : ℕ) (work : Worklist α) (queued : ∀ element ∈ work.queue, P element)
    (start : ∀ element ∈ work.marked, P element) {element : α}
    (member : element ∈ run successors rounds work) : P element := by
  induction rounds generalizing work with
  | zero => exact start element member
  | succ rounds ih =>
      rw [run] at member
      split at member
      · exact start element member
      · rename_i front rest queue
        rw [queue] at queued
        have front_ := queued front List.mem_cons_self
        refine ih _ ?_ ?_ member
        · intro other inQueue
          rcases mem_queue_foldl.mp inQueue with before | ⟨new, _⟩
          · exact queued other (List.mem_cons_of_mem _ before)
          · exact step front other front_ new
        · intro other inMarked
          rcases mem_marked_foldl.mp inMarked with before | new
          · exact start other before
          · exact step front other front_ new

/-- **The loop marks exactly what the start reaches.** -/
theorem mem_run_iff {start : List α} {rounds : ℕ}
    (inside : ∀ element, ∀ next ∈ successors element, next ∈ whole)
    (enough : start.length + whole.card ≤ rounds) {element : α} :
    element ∈ run successors rounds ⟨start.toFinset, start⟩ ↔
      ∃ first ∈ start, Relation.ReflTransGen (fun one next => next ∈ successors one) first element := by
  constructor
  · intro member
    have step : ∀ one next, (∃ first ∈ start,
        Relation.ReflTransGen (fun one next => next ∈ successors one) first one) →
          next ∈ successors one → ∃ first ∈ start,
            Relation.ReflTransGen (fun one next => next ∈ successors one) first next := by
      intro one next ⟨first, isFirst, path⟩ isNext
      exact ⟨first, isFirst, path.tail isNext⟩
    exact run_reached step rounds _ (fun first isFirst => ⟨first, isFirst, .refl⟩)
      (fun first isFirst => ⟨first, List.mem_toFinset.mp isFirst, .refl⟩) member
  · intro ⟨first, isFirst, path⟩
    have invariant : Expanded successors ⟨start.toFinset, start⟩ :=
      ⟨fun _ member => List.mem_toFinset.mpr member,
        fun _ member idle => absurd (List.mem_toFinset.mp member) idle⟩
    have few : (⟨start.toFinset, start⟩ : Worklist α).weight whole ≤ rounds := by
      have less := Finset.card_le_card (Finset.sdiff_subset (s := whole) (t := start.toFinset))
      rw [weight]
      dsimp only
      omega
    induction path with
    | refl => exact run_marked rounds _ (List.mem_toFinset.mpr isFirst)
    | tail _ isNext ih =>
        exact run_closed rounds _ invariant inside few ih isNext

end Worklist

end LlvmDsdl.Library
