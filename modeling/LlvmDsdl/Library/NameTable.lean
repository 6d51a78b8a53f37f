import Mathlib.Data.List.Nodup
import Mathlib.Data.List.Perm.Subperm
import Mathlib.Tactic.Common

/-!
Contract: names given out one at a time, each to one key.

Owns: the search for a name that is not taken, the table of names given, one
request to it, and what any sequence of requests leaves true.
-/

namespace LlvmDsdl.Library

section Searching

variable {α : Type} [DecidableEq α]

/-- The first candidate from `index` on that is not taken, `fuel` of them looked at. -/
def firstFree (taken : List α) (candidate : ℕ → α) : ℕ → ℕ → Option α
  | 0, _ => none
  | fuel + 1, index =>
      if candidate index ∈ taken then firstFree taken candidate fuel (index + 1)
      else some (candidate index)

theorem firstFree_sound {taken : List α} {candidate : ℕ → α} {name : α} :
    ∀ {fuel index}, firstFree taken candidate fuel index = some name →
      name ∉ taken ∧ ∃ offset < fuel, name = candidate (index + offset) := by
  intro fuel
  induction fuel with
  | zero => exact fun found => nomatch found
  | succ fuel ih =>
      intro index found
      rw [firstFree] at found
      split at found
      · obtain ⟨free, offset, below, same⟩ := ih found
        exact ⟨free, offset + 1, by omega, by rw [same]; congr 1; omega⟩
      · rename_i free
        cases found
        exact ⟨free, 0, by omega, rfl⟩

theorem firstFree_eq_none {taken : List α} {candidate : ℕ → α} :
    ∀ {fuel index}, firstFree taken candidate fuel index = none →
      ∀ offset < fuel, candidate (index + offset) ∈ taken := by
  intro fuel
  induction fuel with
  | zero => exact fun _ offset below => absurd below (Nat.not_lt_zero _)
  | succ fuel ih =>
      intro index nothing offset below
      rw [firstFree] at nothing
      split at nothing
      · rename_i takenHere
        rcases offset with _ | offset
        · exact takenHere
        · have later := ih nothing offset (by omega)
          rwa [Nat.add_right_comm, Nat.add_assoc] at later
      · cases nothing

theorem firstFree_isSome_iff {taken : List α} {candidate : ℕ → α} {fuel index : ℕ} :
    (firstFree taken candidate fuel index).isSome ↔
      ∃ offset < fuel, candidate (index + offset) ∉ taken := by
  constructor
  · intro found
    obtain ⟨name, isName⟩ := Option.isSome_iff_exists.mp found
    obtain ⟨free, offset, below, same⟩ := firstFree_sound isName
    exact ⟨offset, below, same ▸ free⟩
  · rintro ⟨offset, below, free⟩
    by_contra nothing
    rw [Option.not_isSome_iff_eq_none] at nothing
    exact free (firstFree_eq_none nothing offset below)

theorem firstFree_isSome {taken : List α} {candidate : ℕ → α} {fuel index : ℕ}
    (distinct : ∀ first < fuel, ∀ second < fuel,
      candidate (index + first) = candidate (index + second) → first = second)
    (fewer : taken.length < fuel) : (firstFree taken candidate fuel index).isSome := by
  rw [firstFree_isSome_iff]
  by_contra none
  push Not at none
  have within : (List.range fuel).map (fun offset => candidate (index + offset)) ⊆ taken := by
    intro name member
    obtain ⟨offset, below, rfl⟩ := List.mem_map.mp member
    exact none offset (List.mem_range.mp below)
  have nodup : ((List.range fuel).map fun offset => candidate (index + offset)).Nodup :=
    List.Nodup.map_on (fun first firstBelow second secondBelow same =>
      distinct first (List.mem_range.mp firstBelow) second (List.mem_range.mp secondBelow) same)
      List.nodup_range
  have bounded := (List.subperm_of_subset nodup within).length_le
  simp only [List.length_map, List.length_range] at bounded
  omega

end Searching

section Tables

variable {κ α : Type}

/-- The names in use, and the keys some of them were given to. -/
structure NameTable (κ α : Type) where
  used : List α
  assigned : List (κ × α)

namespace NameTable

/-- What was chosen is not in use. -/
def Fresh (choose : List α → Option α) : Prop :=
  ∀ used name, choose used = some name → name ∉ used

/-- The names given are apart from each other and from those in use at the start. -/
structure Lawful (start : List α) (table : NameTable κ α) : Prop where
  used : ∀ name, name ∈ table.used ↔ name ∈ start ∨ name ∈ table.assigned.map Prod.snd
  names : (table.assigned.map Prod.snd).Nodup
  apart : ∀ entry ∈ table.assigned, entry.2 ∉ start

theorem lawful_start (start : List α) : Lawful start (⟨start, []⟩ : NameTable κ α) where
  used := by simp
  names := List.nodup_nil
  apart := by simp

variable [DecidableEq κ]

def lookup (table : NameTable κ α) (key : κ) : Option α :=
  (table.assigned.find? fun entry => entry.1 = key).map Prod.snd

def give (table : NameTable κ α) (key : κ) (name : α) : NameTable κ α :=
  { used := name :: table.used, assigned := (key, name) :: table.assigned }

/-- A key keeps the name it has; another gets what `choose` finds among the used names. -/
def request (table : NameTable κ α) (key : κ) (choose : List α → Option α) :
    Option (α × NameTable κ α) :=
  match table.lookup key with
  | some name => some (name, table)
  | none => (choose table.used).map fun name => (name, table.give key name)

/-- The names given to a sequence of requests. -/
def run (table : NameTable κ α) : List (κ × (List α → Option α)) →
    Option (List α × NameTable κ α)
  | [] => some ([], table)
  | (key, choose) :: rest =>
      (table.request key choose).bind fun step =>
        (step.2.run rest).map fun later => (step.1 :: later.1, later.2)

theorem lookup_eq_some_mem {table : NameTable κ α} {key : κ} {name : α}
    (found : table.lookup key = some name) : (key, name) ∈ table.assigned := by
  unfold lookup at found
  obtain ⟨entry, isEntry, rfl⟩ := Option.map_eq_some_iff.mp found
  obtain rfl : entry.1 = key := by simpa using List.find?_some isEntry
  exact List.mem_of_find?_eq_some isEntry

@[simp]
theorem lookup_give_self (table : NameTable κ α) (key : κ) (name : α) :
    (table.give key name).lookup key = some name := by
  simp [lookup, give]

theorem lookup_give_of_ne (table : NameTable κ α) {key other : κ} (different : key ≠ other)
    (name : α) : (table.give key name).lookup other = table.lookup other := by
  simp [lookup, give, different]

theorem Lawful.lookup_injective {start : List α} {table : NameTable κ α}
    (lawful : Lawful start table) {first second : κ} {name : α}
    (isFirst : table.lookup first = some name) (isSecond : table.lookup second = some name) :
    first = second := by
  have same := List.inj_on_of_nodup_map lawful.names (lookup_eq_some_mem isFirst)
    (lookup_eq_some_mem isSecond) rfl
  exact congrArg Prod.fst same

theorem Lawful.lookup_not_mem {start : List α} {table : NameTable κ α}
    (lawful : Lawful start table) {key : κ} {name : α} (found : table.lookup key = some name) :
    name ∉ start :=
  lawful.apart _ (lookup_eq_some_mem found)

theorem request_cases {table final : NameTable κ α} {key : κ} {choose : List α → Option α}
    {name : α} (requested : table.request key choose = some (name, final)) :
    (table.lookup key = some name ∧ final = table) ∨
      (table.lookup key = none ∧ choose table.used = some name ∧ final = table.give key name) := by
  unfold request at requested
  split at requested
  · rename_i known found
    cases requested
    exact Or.inl ⟨found, rfl⟩
  · rename_i unknown
    obtain ⟨chosen, isChosen, same⟩ := Option.map_eq_some_iff.mp requested
    cases same
    exact Or.inr ⟨unknown, isChosen, rfl⟩

theorem request_lawful {start : List α} {table final : NameTable κ α} (lawful : Lawful start table)
    {key : κ} {choose : List α → Option α} (fresh : Fresh choose) {name : α}
    (requested : table.request key choose = some (name, final)) : Lawful start final := by
  rcases request_cases requested with ⟨_, rfl⟩ | ⟨_, chosen, rfl⟩
  · exact lawful
  · have free := fresh _ _ chosen
    rw [lawful.used, not_or] at free
    refine ⟨fun other => ?_, ?_, ?_⟩
    · simp only [give, List.mem_cons, List.map_cons, lawful.used]
      tauto
    · rw [give, List.map_cons, List.nodup_cons]
      exact ⟨free.2, lawful.names⟩
    · intro entry member
      rcases List.mem_cons.mp member with rfl | earlier
      · exact free.1
      · exact lawful.apart entry earlier

theorem request_lookup {table final : NameTable κ α} {key : κ} {choose : List α → Option α}
    {name : α} (requested : table.request key choose = some (name, final)) :
    final.lookup key = some name ∧
      ∀ other known, table.lookup other = some known → final.lookup other = some known := by
  rcases request_cases requested with ⟨found, rfl⟩ | ⟨unknown, _, rfl⟩
  · exact ⟨found, fun other known found => found⟩
  · refine ⟨lookup_give_self table key name, fun other known found => ?_⟩
    rw [lookup_give_of_ne]
    · exact found
    · rintro rfl
      rw [unknown] at found
      cases found

theorem request_length {table final : NameTable κ α} {key : κ} {choose : List α → Option α}
    {name : α} (requested : table.request key choose = some (name, final)) :
    final.used.length ≤ table.used.length + 1 := by
  rcases request_cases requested with ⟨_, rfl⟩ | ⟨_, _, rfl⟩
  · exact Nat.le_succ _
  · exact Nat.le_refl _

/-- What every sequence of requests leaves true. -/
structure Answered (table final : NameTable κ α) (requests : List (κ × (List α → Option α)))
    (given : List α) : Prop where
  length : given.length = requests.length
  /-- In the end each request still has the name it was given. -/
  lookup : ∀ index (below : index < requests.length),
    final.lookup requests[index].1 = given[index]?
  kept : ∀ key name, table.lookup key = some name → final.lookup key = some name

theorem run_answered {start : List α} (requests : List (κ × (List α → Option α)))
    (fresh : ∀ request ∈ requests, Fresh request.2) :
    ∀ {table final : NameTable κ α} {given : List α}, Lawful start table →
      table.run requests = some (given, final) →
        Lawful start final ∧ Answered table final requests given := by
  induction requests with
  | nil =>
      intro table final given lawful ran
      cases ran
      exact ⟨lawful, rfl, fun index below => absurd below (Nat.not_lt_zero _),
        fun key name found => found⟩
  | cons request rest ih =>
      intro table final given lawful ran
      obtain ⟨⟨name, next⟩, step, later⟩ := Option.bind_eq_some_iff.mp ran
      obtain ⟨⟨names, last⟩, laterRun, same⟩ := Option.map_eq_some_iff.mp later
      cases same
      have nextLawful := request_lawful lawful (fresh request List.mem_cons_self) step
      obtain ⟨finalLawful, answered⟩ := ih
        (fun other member => fresh other (List.mem_cons_of_mem _ member)) nextLawful laterRun
      obtain ⟨given, keeps⟩ := request_lookup step
      refine ⟨finalLawful, by simp [answered.length], ?_, fun key known found =>
        answered.kept key known (keeps key known found)⟩
      intro index below
      rcases index with _ | index
      · exact answered.kept _ _ given
      · simpa using answered.lookup index (by simpa using below)

structure Given (start : List α) (final : NameTable κ α) (keys : List κ) (given : List α) :
    Prop where
  length : given.length = keys.length
  apart : ∀ (first second : ℕ) (one other : κ), keys[first]? = some one →
    keys[second]? = some other → (given[first]? = given[second]? ↔ one = other)
  free : ∀ name ∈ given, name ∉ start
  kept : ∀ (index : ℕ) (key : κ), keys[index]? = some key →
    ∃ name, given[index]? = some name ∧ final.lookup key = some name

/-- A sequence of requests gives each key one name, which no other key has. -/
theorem run_given {start : List α} {requests : List (κ × (List α → Option α))}
    (fresh : ∀ request ∈ requests, Fresh request.2) {table final : NameTable κ α}
    {given : List α} (lawful : Lawful start table)
    (ran : table.run requests = some (given, final)) :
    Given start final (requests.map Prod.fst) given := by
  obtain ⟨lawful, answered⟩ := run_answered requests fresh lawful ran
  have kept (index : ℕ) (key : κ) (isKey : (requests.map Prod.fst)[index]? = some key) :
      ∃ name, given[index]? = some name ∧ final.lookup key = some name := by
    obtain ⟨below, rfl⟩ := List.getElem?_eq_some_iff.mp isKey
    rw [List.length_map] at below
    have here := answered.lookup index below
    have inside : index < given.length := answered.length ▸ below
    rw [List.getElem?_eq_getElem inside] at here
    exact ⟨given[index], List.getElem?_eq_getElem inside, by rw [List.getElem_map]; exact here⟩
  refine ⟨by rw [answered.length, List.length_map], ?_, ?_, kept⟩
  · intro first second one other isOne isOther
    obtain ⟨oneName, oneGiven, oneKnown⟩ := kept first one isOne
    obtain ⟨otherName, otherGiven, otherKnown⟩ := kept second other isOther
    rw [oneGiven, otherGiven, Option.some_inj]
    constructor
    · rintro rfl
      exact lawful.lookup_injective oneKnown otherKnown
    · rintro rfl
      exact Option.some.inj (oneKnown.symm.trans otherKnown)
  · intro name member
    obtain ⟨index, isGiven⟩ := List.mem_iff_getElem?.mp member
    have below := (List.getElem?_eq_some_iff.mp isGiven).1
    rw [answered.length] at below
    obtain ⟨known, same, found⟩ := kept index _
      (List.getElem?_eq_getElem (by rw [List.length_map]; exact below))
    obtain rfl : known = name := Option.some.inj (same.symm.trans isGiven)
    exact lawful.lookup_not_mem found

theorem run_assigned {holds : κ → α → Prop} (requests : List (κ × (List α → Option α)))
    (chosen : ∀ request ∈ requests, ∀ used name, request.2 used = some name →
      holds request.1 name) :
    ∀ {table final : NameTable κ α} {given : List α},
      (∀ entry ∈ table.assigned, holds entry.1 entry.2) →
        table.run requests = some (given, final) →
          ∀ entry ∈ final.assigned, holds entry.1 entry.2 := by
  induction requests with
  | nil =>
      intro table final given before ran
      cases ran
      exact before
  | cons request rest ih =>
      intro table final given before ran
      obtain ⟨⟨name, next⟩, step, later⟩ := Option.bind_eq_some_iff.mp ran
      obtain ⟨⟨names, last⟩, laterRun, same⟩ := Option.map_eq_some_iff.mp later
      cases same
      refine ih
        (fun other member => chosen other (List.mem_cons_of_mem _ member)) ?_ laterRun
      rcases request_cases step with ⟨_, rfl⟩ | ⟨_, isChosen, rfl⟩
      · exact before
      · exact List.forall_mem_cons.mpr
          ⟨chosen request List.mem_cons_self _ _ isChosen, before⟩

/-- A sequence of requests is answered while every search finds something. -/
theorem run_isSome {bound : ℕ} (requests : List (κ × (List α → Option α)))
    (finds : ∀ request ∈ requests, ∀ used : List α, used.length < bound →
      (request.2 used).isSome) :
    ∀ table : NameTable κ α, table.used.length + requests.length ≤ bound →
      (table.run requests).isSome := by
  induction requests with
  | nil => exact fun table fits => rfl
  | cons request rest ih =>
      intro table fits
      rw [List.length_cons] at fits
      have answered : (table.request request.1 request.2).isSome := by
        unfold NameTable.request
        split
        · rfl
        · rw [Option.isSome_map]
          exact finds request List.mem_cons_self table.used (by omega)
      obtain ⟨⟨name, next⟩, step⟩ := Option.isSome_iff_exists.mp answered
      have longer := request_length step
      have later := ih
        (fun other member => finds other (List.mem_cons_of_mem _ member)) next (by omega)
      obtain ⟨last, laterRun⟩ := Option.isSome_iff_exists.mp later
      simp [run, step, laterRun]

end NameTable

end Tables

end LlvmDsdl.Library
