import Mathlib.Data.List.Basic

/-!
Contract: keys kept for whoever took them first.

Owns: registries, runs of claims on them, and what a run in which no claim
conflicts says of any two claims on one key.
-/

namespace LlvmDsdl.Library

/-- The keys taken so far, and the first owner of each. -/
abbrev Registry (κ ν : Type) := List (κ × ν)

namespace Registry

variable {κ ν : Type} [DecidableEq κ]

def owner (registry : Registry κ ν) (key : κ) : Option ν :=
  (registry.find? fun entry => entry.1 = key).map Prod.snd

/-- Takes a key, unless it is taken. -/
def emplace (registry : Registry κ ν) (key : κ) (claimant : ν) : Registry κ ν :=
  if (registry.owner key).isSome then registry else registry ++ [(key, claimant)]

def emplaceAll (registry : Registry κ ν) (claims : List (κ × ν)) : Registry κ ν :=
  claims.foldl (fun registry claim => registry.emplace claim.1 claim.2) registry

theorem owner_emplace_of_owner {registry : Registry κ ν} {key : κ} {first : ν}
    (owned : registry.owner key = some first) (other : κ) (claimant : ν) :
    (registry.emplace other claimant).owner key = some first := by
  rw [emplace]
  split
  · exact owned
  · obtain ⟨entry, found, same⟩ := Option.map_eq_some_iff.mp owned
    rw [owner, List.find?_append, found, Option.some_or, Option.map_some, same]

/-- After a claim its key has an owner: the earlier one, or the claimant. -/
theorem owner_emplace_self (registry : Registry κ ν) (key : κ) (claimant : ν) :
    (registry.emplace key claimant).owner key = some ((registry.owner key).getD claimant) := by
  cases owned : registry.owner key with
  | some first => exact owner_emplace_of_owner owned key claimant
  | none =>
      have absent : registry.find? (fun entry => entry.1 = key) = none := Option.map_eq_none_iff.mp owned
      rw [emplace, owned, if_neg (by simp), owner, List.find?_append, absent, Option.none_or]
      simp

theorem owner_emplaceAll {registry : Registry κ ν} {key : κ} {first : ν}
    (owned : registry.owner key = some first) (claims : List (κ × ν)) :
    (registry.emplaceAll claims).owner key = some first := by
  induction claims generalizing registry with
  | nil => exact owned
  | cons claim rest ih =>
      exact ih (owner_emplace_of_owner owned claim.1 claim.2)

/-- No claim of the run meets an earlier owner that it may not meet. -/
def Silent (may : ν → ν → Prop) : Registry κ ν → List (κ × ν) → Prop
  | _, [] => True
  | registry, claim :: rest =>
      (∀ earlier, registry.owner claim.1 = some earlier → may earlier claim.2) ∧
        Silent may (registry.emplace claim.1 claim.2) rest

variable {may : ν → ν → Prop}

theorem silent_append {registry : Registry κ ν} {first second : List (κ × ν)} :
    Silent may registry (first ++ second) ↔
      Silent may registry first ∧ Silent may (registry.emplaceAll first) second := by
  induction first generalizing registry with
  | nil => simp [Silent, emplaceAll]
  | cons claim rest ih =>
      rw [List.cons_append, Silent, Silent, ih, and_assoc]
      rfl

/-- In a silent run every claim may meet the final owner of its key. -/
theorem owner_of_silent (self : ∀ claimant, may claimant claimant) {registry : Registry κ ν}
    {claims : List (κ × ν)} (silent : Silent may registry claims) {key : κ} {claimant : ν}
    (member : (key, claimant) ∈ claims) :
    ∃ first, (registry.emplaceAll claims).owner key = some first ∧ may first claimant := by
  induction claims generalizing registry with
  | nil => exact absurd member List.not_mem_nil
  | cons claim rest ih =>
      rcases List.mem_cons.mp member with rfl | later
      · have owned := owner_emplace_self registry key claimant
        refine ⟨_, owner_emplaceAll owned rest, ?_⟩
        cases earlier : registry.owner key with
        | none => exact self claimant
        | some first => exact silent.1 first earlier
      · exact ih silent.2 later

/-- Two claims on one key of a silent run may meet one and the same owner. -/
theorem meet_of_silent (self : ∀ claimant, may claimant claimant) {registry : Registry κ ν}
    {claims : List (κ × ν)} (silent : Silent may registry claims) {key : κ}
    {claimant other : ν} (member : (key, claimant) ∈ claims) (otherMember : (key, other) ∈ claims) :
    ∃ first, may first claimant ∧ may first other := by
  obtain ⟨first, owned, meets⟩ := owner_of_silent self silent member
  obtain ⟨second, otherOwned, otherMeets⟩ := owner_of_silent self silent otherMember
  rw [owned] at otherOwned
  cases otherOwned
  exact ⟨first, meets, otherMeets⟩

theorem mem_of_owner {registry : Registry κ ν} {key : κ} {first : ν}
    (owned : registry.owner key = some first) : (key, first) ∈ registry := by
  obtain ⟨entry, found, rfl⟩ := Option.map_eq_some_iff.mp owned
  have sameKey : entry.1 = key := by simpa using List.find?_some found
  rw [← sameKey]
  exact List.mem_of_find?_eq_some found

theorem owner_of_claim {claims : List (κ × ν)} {key : κ} {claimant : ν}
    (member : (key, claimant) ∈ claims) (registry : Registry κ ν) :
    ∃ first, (registry.emplaceAll claims).owner key = some first := by
  have silent (registry : Registry κ ν) : Silent (fun _ _ => True) registry claims := by
    clear member
    induction claims generalizing registry with
    | nil => trivial
    | cons claim rest ih => exact ⟨fun _ _ => trivial, ih _⟩
  obtain ⟨first, owned, _⟩ := owner_of_silent (fun _ => trivial) (silent registry) member
  exact ⟨first, owned⟩

end Registry

end LlvmDsdl.Library
