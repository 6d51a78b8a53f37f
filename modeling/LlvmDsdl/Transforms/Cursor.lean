import LlvmDsdl.Transforms.Object

/-!
Contract: the cursor a body threads, and how its pieces compose.

Owns: what a builder knows of the offset while it builds, what a body carries
while it runs, the steps of both, the guard on an earlier error, the chain of a
union's options, the position a cursor stands at, and the rules by which every
run keeps what is known of its offset.

A builder chooses by its facts alone: a piece is built before any run, and its
facts are the same in all of them.
-/

namespace LlvmDsdl.Transforms

open LlvmDsdl.Runtime

/-- `staticBits` and `staticResidue`. An offset that is a number is a constant of the body. -/
structure Facts where
  staticBits : Option ℕ
  staticResidue : Option ℕ

/-- How far into the wire the steps got, and what went wrong. -/
structure Cursor where
  bitOffset : Word
  error : ErrorCode

/-- A piece of a body: what is known after it, and what it does. -/
structure Piece (σ : Type) where
  facts : Facts
  run : Cursor → σ → Cursor × σ

abbrev Builder (σ : Type) := Facts → Piece σ

variable {σ : Type}

def nothing : Builder σ := fun facts => ⟨facts, fun cursor state => (cursor, state)⟩

def andThen (first second : Builder σ) : Builder σ := fun facts =>
  let before := first facts
  let after := second before.facts
  { facts := after.facts
    run := fun cursor state =>
      let reached := before.run cursor state
      after.run reached.1 reached.2 }

def inOrder (builders : List (Builder σ)) : Builder σ :=
  builders.foldr andThen nothing

/-- An operation that moves no cursor. -/
def effect (act : Word → σ → σ) : Builder σ := fun facts =>
  ⟨facts, fun cursor state => (cursor, act cursor.bitOffset state)⟩

/-- An operation that answers the error and moves nothing else. -/
def answering (act : Cursor → σ → ErrorCode × σ) : Builder σ := fun facts =>
  ⟨facts, fun cursor state =>
    let answer := act cursor state
    ({ cursor with error := answer.1 }, answer.2)⟩

/-- A body that uses a value of the run. What is known after it is the same for every value. -/
def given (value : Word → σ → Word) (body : Word → Builder σ) : Builder σ := fun facts =>
  { facts := (body 0 facts).facts
    run := fun cursor state => (body (value cursor.bitOffset state) facts).run cursor state }

def Facts.advance (facts : Facts) (bits : ℕ) : Facts where
  staticBits := facts.staticBits.map (· + bits)
  staticResidue := facts.staticResidue.map fun residue => (residue + bits) % 8

/-- The offset `bits` on: a new constant where it was one. -/
def Facts.offsetAfter (facts : Facts) (offset : Word) (bits : ℕ) : Word :=
  match facts.staticBits with
  | some known => BitVec.ofNat 64 (known + bits)
  | none => offset + BitVec.ofNat 64 bits

def advancedBy (bits : ℕ) : Builder σ := fun facts =>
  { facts := facts.advance bits
    run := fun cursor state =>
      ({ cursor with bitOffset := facts.offsetAfter cursor.bitOffset bits }, state) }

def movedBy (bits : Word) (residue : Facts → Option ℕ) : Builder σ := fun facts =>
  { facts := ⟨none, residue facts⟩
    run := fun cursor state => ({ cursor with bitOffset := cursor.bitOffset + bits }, state) }

/-- A count the declaration states, or one the run decides. -/
inductive Count where
  | declared (capacity : ℕ)
  | held (value : Word)

def Count.value : Count → Word
  | .declared capacity => BitVec.ofNat 64 capacity
  | .held value => value

/-- A run of whole-byte elements moves the offset by whole bytes, however many there are. -/
def advancedByRun (count : Count) (elementBits : ℕ) : Builder σ :=
  match count with
  | .declared capacity => advancedBy (capacity * elementBits)
  | .held value =>
      movedBy (value * BitVec.ofNat 64 elementBits) fun facts =>
        if elementBits % 8 = 0 then facts.staticResidue else none

/-- Runs a body only while nothing has failed. An offset the body left a number is that number
on either path. -/
def guarded (body : Builder σ) : Builder σ := fun facts =>
  let inner := body facts
  { facts := inner.facts
    run := fun cursor state =>
      let next := if cursor.error = 0 then inner.run cursor state else (cursor, state)
      match inner.facts.staticBits with
      | some known => (⟨BitVec.ofNat 64 known, next.1.error⟩, next.2)
      | none => next }

/-- One element inside a loop that carries the error and nothing else. -/
def errorGuarded (error : ErrorCode) (state : σ) (body : σ → ErrorCode × σ) : ErrorCode × σ :=
  if error = 0 then body state else (error, state)

def meetResidue (met : Option (Option ℕ)) (residue : Option ℕ) : Option (Option ℕ) :=
  match met with
  | none => some residue
  | some value => some (if value = residue then value else none)

/-- The chain of tests over a union's options. An arm begins where the tag ended. -/
def unionChain (tag : Word) (options : List (ℕ × Builder σ)) : Builder σ := fun facts =>
  { facts := ⟨none,
      ((options.map fun option => (option.2 facts).facts.staticResidue).foldl meetResidue
        none).join⟩
    run := fun afterTag state =>
      options.foldl (fun chain option =>
        if tag = BitVec.ofNat 64 option.1 then (option.2 facts).run afterTag chain.2 else chain)
        (afterTag, state) }

/-- `(offset + 7) / 8 * 8` in words. -/
def alignedOffset (offset : Word) : Word := (offset + 7) / 8 * 8

def Facts.padding (facts : Facts) : Option ℕ :=
  facts.staticResidue.map fun residue => (8 - residue) % 8

structure BufferPosition where
  byteOffset : Word
  remaining : Word

/-- The byte the cursor reached, and the bytes left from there. A cursor that is the constant
nought is at the start of any buffer; only a reader's is bounded by the capacity. -/
def bufferPosition (facts : Facts) (capacityBytes bitOffset : Word) (writing : Bool) :
    BufferPosition :=
  if facts.staticBits = some 0 then ⟨0, capacityBytes⟩
  else
    let reached := bitOffset / 8
    let taken :=
      if writing then reached else if reached < capacityBytes then reached else capacityBytes
    ⟨taken, capacityBytes - taken⟩

/-- What is known of an offset is so. -/
structure Facts.Hold (facts : Facts) (offset : Word) : Prop where
  bits : ∀ known, facts.staticBits = some known → offset = BitVec.ofNat 64 known
  residue : ∀ residue, facts.staticResidue = some residue → offset.toNat % 8 = residue

theorem Facts.hold_unknown (offset : Word) : Facts.Hold ⟨none, none⟩ offset :=
  ⟨fun _ impossible => (nomatch impossible), fun _ impossible => nomatch impossible⟩

/-- A condition on a point of a run: on what is known there, on the cursor and on the state. -/
abbrev Assertion (σ : Type) := Facts → Cursor → σ → Prop

/-- Every run of the body from a point of `before` ends in one of `after`. -/
def Triple (before : Assertion σ) (body : Builder σ) (after : Assertion σ) : Prop :=
  ∀ facts cursor state, before facts cursor state →
    after (body facts).facts ((body facts).run cursor state).1 ((body facts).run cursor state).2

section Rules

variable (code : ErrorCode → Prop) (good : σ → Prop)

/-- The error and the state are good, and while nothing has failed what is known is so. -/
structure Sound (facts : Facts) (cursor : Cursor) (state : σ) : Prop where
  code : code cursor.error
  good : good state
  hold : cursor.error = 0 → facts.Hold cursor.bitOffset

/-- A sound point at which nothing has failed. -/
structure Healthy (facts : Facts) (cursor : Cursor) (state : σ) : Prop extends
    Sound code good facts cursor state where
  healthy : cursor.error = 0

/-- Every run of the body from a sound point ends in one. -/
abbrev Keeps (body : Builder σ) : Prop := Triple (Sound code good) body (Sound code good)

variable {code : ErrorCode → Prop} {good : σ → Prop}

theorem Triple.mono {before stronger after weaker : Assertion σ} {body : Builder σ}
    (triple : Triple before body after)
    (strengthen : ∀ facts cursor state, stronger facts cursor state → before facts cursor state)
    (weaken : ∀ facts cursor state, after facts cursor state → weaker facts cursor state) :
    Triple stronger body weaker := fun facts cursor state met =>
  weaken _ _ _ (triple facts cursor state (strengthen facts cursor state met))

theorem triple_nothing (assertion : Assertion σ) : Triple assertion nothing assertion :=
  fun _ _ _ met => met

theorem Triple.andThen {before middle after : Assertion σ} {first second : Builder σ}
    (leading : Triple before first middle) (trailing : Triple middle second after) :
    Triple before (andThen first second) after := fun facts cursor state met =>
  trailing _ _ _ (leading facts cursor state met)

theorem triple_inOrder {assertion : Assertion σ} {builders : List (Builder σ)}
    (each : ∀ body ∈ builders, Triple assertion body assertion) :
    Triple assertion (inOrder builders) assertion := by
  induction builders with
  | nil => exact triple_nothing assertion
  | cons body rest ih =>
      have later := ih fun other member => each other (List.mem_cons_of_mem _ member)
      exact (each body List.mem_cons_self).andThen later

theorem sound_effect {act : Word → σ → σ} (keeps : ∀ offset state, good state →
    good (act offset state)) : Keeps code good (effect act) :=
  fun _ _ _ sound => ⟨sound.code, keeps _ _ sound.good, sound.hold⟩

theorem healthy_effect {act : Word → σ → σ} (keeps : ∀ offset state, good state →
    good (act offset state)) : Triple (Healthy code good) (effect act) (Healthy code good) :=
  fun facts cursor state healthy =>
    ⟨sound_effect keeps facts cursor state healthy.toSound, healthy.healthy⟩

theorem sound_answering {act : Cursor → σ → ErrorCode × σ}
    (keeps : ∀ cursor state, cursor.error = 0 → good state →
      code (act cursor state).1 ∧ good (act cursor state).2) :
    Triple (Healthy code good) (answering act) (Sound code good) := fun _ cursor state healthy =>
  have answered := keeps cursor state healthy.healthy healthy.good
  ⟨answered.1, answered.2, fun _ => healthy.hold healthy.healthy⟩

theorem toNat_add_mod (offset : Word) (bits : ℕ) :
    (offset + BitVec.ofNat 64 bits).toNat % 8 = (offset.toNat % 8 + bits) % 8 := by
  rw [BitVec.toNat_add, BitVec.toNat_ofNat]
  omega

theorem Facts.Hold.offsetAfter_eq {facts : Facts} {offset : Word} (hold : facts.Hold offset)
    (bits : ℕ) : facts.offsetAfter offset bits = offset + BitVec.ofNat 64 bits := by
  unfold Facts.offsetAfter
  split
  · next known isKnown => rw [hold.bits known isKnown, BitVec.ofNat_add]
  · rfl

theorem Facts.Hold.advance {facts : Facts} {offset : Word} (hold : facts.Hold offset) (bits : ℕ) :
    (facts.advance bits).Hold (facts.offsetAfter offset bits) := by
  rw [hold.offsetAfter_eq]
  constructor
  · intro known advanced
    obtain ⟨start, isKnown, rfl⟩ := Option.map_eq_some_iff.mp advanced
    rw [hold.bits start isKnown, BitVec.ofNat_add]
  · intro residue advanced
    obtain ⟨start, isKnown, rfl⟩ := Option.map_eq_some_iff.mp advanced
    rw [toNat_add_mod, hold.residue start isKnown]

theorem sound_advancedBy (bits : ℕ) :
    Keeps code good (advancedBy bits) := fun _ _ _ sound =>
  ⟨sound.code, sound.good, fun healthy => (sound.hold healthy).advance bits⟩

theorem healthy_advancedBy (bits : ℕ) :
    Triple (Healthy code good) (advancedBy bits) (Healthy code good) :=
  fun facts cursor state healthy =>
    ⟨sound_advancedBy bits facts cursor state healthy.toSound, healthy.healthy⟩

/-- A residue is kept over a whole number of bytes; otherwise nothing is known any more. -/
theorem sound_movedBy {bits : Word} {residue : Facts → Option ℕ}
    (kept : ∀ facts, residue facts = none ∨
      residue facts = facts.staticResidue ∧ bits.toNat % 8 = 0) :
    Keeps code good (movedBy bits residue) := by
  intro facts cursor state sound
  refine ⟨sound.code, sound.good, fun healthy => ⟨fun _ impossible => (nomatch impossible), ?_⟩⟩
  intro value isKnown
  rcases kept facts with unknown | ⟨same, whole⟩
  · rw [show residue facts = some value from isKnown] at unknown
    exact nomatch unknown
  · have before := (sound.hold healthy).residue value (same ▸ isKnown)
    have moved : (cursor.bitOffset + bits).toNat % 8 = value := by
      rw [BitVec.toNat_add]
      omega
    exact moved

theorem toNat_mul_mod (count : Word) {elementBits : ℕ} (whole : elementBits % 8 = 0) :
    (count * BitVec.ofNat 64 elementBits).toNat % 8 = 0 := by
  have factor : count.toNat * (elementBits % 2 ^ 64) % 8 = 0 := by
    rw [Nat.mul_mod]
    have multiple : elementBits % 2 ^ 64 % 8 = 0 := by omega
    rw [multiple, Nat.mul_zero, Nat.zero_mod]
  rw [BitVec.toNat_mul, BitVec.toNat_ofNat]
  omega

theorem Facts.Hold.wholeBytes {facts : Facts} {offset : Word} (hold : facts.Hold offset)
    (used : Word) : Facts.Hold ⟨none, facts.staticResidue⟩ (offset + used * 8) := by
  refine ⟨fun _ impossible => (nomatch impossible), fun residue isKnown => ?_⟩
  have before := hold.residue residue isKnown
  have whole : (used * 8).toNat % 8 = 0 := toNat_mul_mod used (rfl : 8 % 8 = 0)
  rw [BitVec.toNat_add]
  omega

theorem sound_advancedByRun (count : Count) (elementBits : ℕ) :
    Keeps code good (advancedByRun count elementBits) := by
  cases count with
  | declared capacity => exact sound_advancedBy (capacity * elementBits)
  | held value =>
      apply sound_movedBy
      intro facts
      by_cases whole : elementBits % 8 = 0
      · exact Or.inr ⟨if_pos whole, toNat_mul_mod value whole⟩
      · exact Or.inl (if_neg whole)

/-- A guard's body starts where nothing has failed, and knows what held before the guard. -/
theorem Triple.guarded {before : Assertion σ} {body : Builder σ}
    (sound : ∀ facts cursor state, before facts cursor state → Sound code good facts cursor state)
    (inner : Triple (fun facts cursor state => before facts cursor state ∧ cursor.error = 0) body
      (Sound code good)) :
    Triple before (guarded body) (Sound code good) := by
  intro facts cursor state met
  by_cases healthy : cursor.error = 0
  · have reached := inner facts cursor state ⟨met, healthy⟩
    simp only [Transforms.guarded, if_pos healthy]
    split
    · next known isKnown =>
        refine ⟨reached.code, reached.good, fun still => ?_⟩
        have hold := reached.hold still
        rw [hold.bits known isKnown] at hold
        exact hold
    · exact reached
  · have kept := sound facts cursor state met
    simp only [Transforms.guarded, if_neg healthy]
    split <;> exact ⟨kept.code, kept.good, fun still => absurd still healthy⟩

theorem sound_guarded {body : Builder σ} (inner : Triple (Healthy code good) body (Sound code good)) :
    Keeps code good (guarded body) :=
  Triple.guarded (fun _ _ _ sound => sound) fun facts cursor state met =>
    inner facts cursor state ⟨met.1, met.2⟩

theorem guarded_of_failed {body : Builder σ} {facts : Facts} {cursor : Cursor} {state : σ}
    (failed : cursor.error ≠ 0) :
    ((guarded body facts).run cursor state).1.error = cursor.error := by
  simp only [guarded, if_neg failed]
  split <;> rfl

theorem Triple.given {before after : Assertion σ} {value : Word → σ → Word}
    {body : Word → Builder σ} (facts_eq : ∀ chosen facts, (body chosen facts).facts = (body 0 facts).facts)
    (each : ∀ chosen, Triple before (body chosen) after) :
    Triple before (given value body) after := fun facts cursor state met => by
  have reached := each (value cursor.bitOffset state) facts cursor state met
  rw [facts_eq] at reached
  exact reached

theorem residue_of_meet {residues : List (Option ℕ)} {met : Option (Option ℕ)} {residue : ℕ}
    (agreed : residues.foldl meetResidue met = some (some residue)) :
    (∀ value, met = some value → value = some residue) ∧
      ∀ other ∈ residues, other = some residue := by
  induction residues generalizing met with
  | nil =>
      refine ⟨fun value held => ?_, fun _ impossible => nomatch impossible⟩
      exact Option.some.inj (held.symm.trans agreed)
  | cons first rest ih =>
      obtain ⟨kept, later⟩ := ih agreed
      cases met with
      | none =>
          have same := kept first rfl
          exact ⟨fun _ impossible => (nomatch impossible), List.forall_mem_cons.mpr ⟨same, later⟩⟩
      | some value =>
          have same := kept _ rfl
          split_ifs at same with agrees
          refine ⟨?_, List.forall_mem_cons.mpr ⟨agrees ▸ same, later⟩⟩
          rintro other ⟨⟩
          exact same

theorem sound_unionChain {tag : Word} {options : List (ℕ × Builder σ)}
    (each : ∀ option ∈ options, Keeps code good option.2)
    (facts : Facts) (afterTag : Cursor) (state : σ) (sound : Sound code good facts afterTag state)
    (selected : afterTag.error = 0 → ∃ option ∈ options, tag = BitVec.ofNat 64 option.1) :
    Sound code good (unionChain tag options facts).facts
      ((unionChain tag options facts).run afterTag state).1
      ((unionChain tag options facts).run afterTag state).2 := by
  -- an arm begins where the tag ended, whatever an earlier arm did, and ends as it knows
  have arms : ∀ (rest : List (ℕ × Builder σ)) (chain : Cursor × σ), rest ⊆ options →
      code chain.1.error → good chain.2 →
      let final := rest.foldl (fun chain option =>
        if tag = BitVec.ofNat 64 option.1 then (option.2 facts).run afterTag chain.2 else chain) chain
      code final.1.error ∧ good final.2 ∧
        ((∃ option ∈ rest, tag = BitVec.ofNat 64 option.1) →
          ∃ option ∈ options, final.1.error = 0 → (option.2 facts).facts.Hold final.1.bitOffset) ∧
        ((¬∃ option ∈ rest, tag = BitVec.ofNat 64 option.1) → final = chain) := by
    intro rest
    induction rest with
    | nil =>
        intro chain _ codeHeld goodHeld
        exact ⟨codeHeld, goodHeld, fun ⟨_, impossible, _⟩ => (nomatch impossible), fun _ => rfl⟩
    | cons option rest ih =>
        intro chain within codeHeld goodHeld
        have ⟨here, there⟩ := List.cons_subset.mp within
        by_cases taken : tag = BitVec.ofNat 64 option.1
        · have reached := each option here facts afterTag chain.2 ⟨sound.code, goodHeld, sound.hold⟩
          have ⟨codeEnd, goodEnd, selectedEnd, skipped⟩ := ih
            ((option.2 facts).run afterTag chain.2) there reached.code reached.good
          simp only [List.foldl_cons, if_pos taken]
          refine ⟨codeEnd, goodEnd, fun _ => ?_, fun none => absurd ⟨option, List.mem_cons_self, taken⟩ none⟩
          by_cases again : ∃ option ∈ rest, tag = BitVec.ofNat 64 option.1
          · exact selectedEnd again
          · rw [skipped again]
            exact ⟨option, here, reached.hold⟩
        · have ⟨codeEnd, goodEnd, selectedEnd, skipped⟩ :=
            ih chain there codeHeld goodHeld
          simp only [List.foldl_cons, if_neg taken]
          have same : (∃ other ∈ option :: rest, tag = BitVec.ofNat 64 other.1) ↔
              ∃ other ∈ rest, tag = BitVec.ofNat 64 other.1 := by simp [taken]
          rw [same]
          exact ⟨codeEnd, goodEnd, selectedEnd, skipped⟩
  have ⟨codeEnd, goodEnd, selectedEnd, skipped⟩ :=
    arms options (afterTag, state) (List.Subset.refl _) sound.code sound.good
  refine ⟨codeEnd, goodEnd, fun healthy => ⟨fun _ impossible => (nomatch impossible), ?_⟩⟩
  intro residue isKnown
  have agreed := residue_of_meet (Option.join_eq_some_iff.mp isKnown)
  by_cases taken : ∃ option ∈ options, tag = BitVec.ofNat 64 option.1
  · obtain ⟨option, member, hold⟩ := selectedEnd taken
    exact (hold healthy).residue residue (agreed.2 _ (List.mem_map.mpr ⟨option, member, rfl⟩))
  · have untouched := skipped taken
    have unfailed : afterTag.error = 0 :=
      (congrArg (fun chain : Cursor × σ => chain.1.error) untouched).symm.trans healthy
    exact absurd (selected unfailed) taken

theorem countedLoop_keeps {α : Type} {kept : α → Prop} {count : Word} {body : ℕ → α → α}
    {carried : α} (start : kept carried)
    (turn : ∀ index carried, index < count.toNat → kept carried → kept (body index carried)) :
    kept (countedLoop count body carried) := by
  have within : ∀ index ∈ List.range count.toInt.toNat, index < count.toNat := by
    intro index member
    have below := List.mem_range.mp member
    have bound : count.toInt ≤ count.toNat := by
      rw [BitVec.toInt_eq_toNat_cond]
      split <;> omega
    omega
  unfold countedLoop
  generalize List.range count.toInt.toNat = indices at within
  induction indices generalizing carried with
  | nil => exact start
  | cons index rest ih =>
      have ⟨here, there⟩ := List.forall_mem_cons.mp within
      exact ih (turn index carried here start) there

end Rules

end LlvmDsdl.Transforms
