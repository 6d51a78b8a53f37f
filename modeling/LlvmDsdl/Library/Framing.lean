import Mathlib.Data.List.Basic

/-!
Contract: reading a stream one frame after another.

Owns: the outcomes of consecutive reads, reads of consecutive encodings, and the
frames that consecutive reads split off.
-/

namespace LlvmDsdl.Library.Framing

variable {σ ο μ β : Type*}

/-- The outcomes of `count` reads, and the stream after them. -/
def readMany (read : σ → ο × σ) : ℕ → σ → List ο × σ
  | 0, stream => ([], stream)
  | count + 1, stream =>
      let first := read stream
      let later := readMany read count first.2
      (first.1 :: later.1, later.2)

theorem readMany_encoded (read : σ → ο × σ) (load : List β → σ) (encode : μ → List β)
    (outcome : μ → ο) (messages : List μ)
    (roundTrip : ∀ message ∈ messages, ∀ rest,
      read (load (encode message ++ rest)) = (outcome message, load rest)) (rest : List β) :
    readMany read messages.length (load (messages.flatMap encode ++ rest)) =
      (messages.map outcome, load rest) := by
  induction messages with
  | nil => rfl
  | cons message others ih =>
      have here := roundTrip message List.mem_cons_self (others.flatMap encode ++ rest)
      have later := ih fun other member =>
        roundTrip other (List.mem_cons_of_mem _ member)
      rw [List.flatMap_cons, List.append_assoc, List.length_cons, readMany, here]
      dsimp only
      rw [later]
      rfl

/-- When every good read splits one frame off, good reads split off as many frames. -/
theorem readMany_frames {read : σ → ο × σ} {load : List β → σ} {frame : μ → ο → Prop}
    {bytes : μ → List β} {good : ο → Prop}
    (splits : ∀ stream outcome next, read (load stream) = (outcome, next) → good outcome →
      ∃ taken rest, frame taken outcome ∧ stream = bytes taken ++ rest ∧ next = load rest)
    {count : ℕ} {stream : List β} {outcomes : List ο} {final : σ}
    (ran : readMany read count (load stream) = (outcomes, final))
    (allGood : ∀ outcome ∈ outcomes, good outcome) :
    ∃ frames rest, List.Forall₂ frame frames outcomes ∧
      stream = frames.flatMap bytes ++ rest ∧ final = load rest := by
  induction count generalizing stream outcomes with
  | zero =>
      cases ran
      exact ⟨[], stream, List.Forall₂.nil, rfl, rfl⟩
  | succ count ih =>
      cases ran
      have ⟨taken, middle, isFrame, split, next⟩ :=
        splits stream _ _ rfl (allGood _ List.mem_cons_self)
      have ⟨frames, rest, areFrames, remaining, last⟩ :=
        ih (congrArg (readMany read count) next.symm) fun outcome member =>
          allGood outcome (List.mem_cons_of_mem _ member)
      refine ⟨taken :: frames, rest, List.Forall₂.cons isFrame areFrames, ?_, last⟩
      rw [List.flatMap_cons, List.append_assoc, ← remaining]
      exact split

end LlvmDsdl.Library.Framing
