import Mathlib.Logic.Basic

/-!
Contract: values computed by operations that are judged one by one.

Owns: a value beside the operations carried out for it, their composition, and
the rules by which every operation is good and the value meets a condition.
-/

namespace LlvmDsdl.Library

/-- A value, and the operations carried out for it, in order. -/
structure Traced (ω α : Type) where
  value : α
  operations : List ω

namespace Traced

variable {ω α γ : Type}

/-- One operation. -/
def step (operation : ω) (value : α) : Traced ω α := ⟨value, [operation]⟩

instance : Monad (Traced ω) where
  pure value := ⟨value, []⟩
  bind traced next :=
    ⟨(next traced.value).value, traced.operations ++ (next traced.value).operations⟩

instance : LawfulMonad (Traced ω) :=
  LawfulMonad.mk' _ (fun traced => congrArg (mk traced.value) (List.append_nil _))
    (fun _ _ => rfl) fun _ _ _ => congrArg (mk _) (List.append_assoc _ _ _)

@[simp] theorem value_pure (value : α) : (pure value : Traced ω α).value = value := rfl

@[simp] theorem value_bind (traced : Traced ω α) (next : α → Traced ω γ) :
    (traced >>= next).value = (next traced.value).value := rfl

@[simp] theorem value_step (operation : ω) (value : α) : (step operation value).value = value := rfl

@[simp] theorem operations_pure (value : α) : (pure value : Traced ω α).operations = [] := rfl

@[simp] theorem operations_bind (traced : Traced ω α) (next : α → Traced ω γ) :
    (traced >>= next).operations = traced.operations ++ (next traced.value).operations := rfl

/-- Every operation is good, and the value meets `post`. -/
structure Meets (good : ω → Prop) (traced : Traced ω α) (post : α → Prop) : Prop where
  good : ∀ operation ∈ traced.operations, good operation
  value : post traced.value

variable {good : ω → Prop}

theorem meets_pure {value : α} {post : α → Prop} (holds : post value) :
    Meets good (pure value) post :=
  ⟨fun _ member => absurd member List.not_mem_nil, holds⟩

theorem meets_step {operation : ω} {value : α} {post : α → Prop} (isGood : good operation)
    (holds : post value) : Meets good (step operation value) post :=
  ⟨fun _ member => List.mem_singleton.mp member ▸ isGood, holds⟩

theorem Meets.bind {traced : Traced ω α} {next : α → Traced ω γ} {middle : α → Prop}
    {post : γ → Prop} (first : Meets good traced middle)
    (then_ : ∀ value, middle value → Meets good (next value) post) :
    Meets good (traced >>= next) post := by
  have second := then_ traced.value first.value
  refine ⟨fun operation member => ?_, second.value⟩
  rcases List.mem_append.mp member with before | after
  · exact first.good operation before
  · exact second.good operation after

theorem Meets.mono {traced : Traced ω α} {strong weak : α → Prop}
    (meets : Meets good traced strong) (weaker : ∀ value, strong value → weak value) :
    Meets good traced weak :=
  ⟨meets.good, weaker _ meets.value⟩

end Traced

end LlvmDsdl.Library
