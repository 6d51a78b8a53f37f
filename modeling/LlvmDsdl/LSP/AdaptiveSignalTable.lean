import LlvmDsdl.Library.Recency
import LlvmDsdl.LSP.AdaptiveSignals

/-!
Contract: the adaptive signal store as a bounded table of the most recently
touched keys.

Owns: what a session remembers, when a store represents what is remembered,
that events, flushes and reloads keep it so, and what a flush and a reload give
back.

A reload goes back to what the file remembers: the last flush that reported
success, or nothing when the store has no file or lost it.
-/

namespace LlvmDsdl.LSP

open Library.Recency

/-! ### What is remembered -/

abbrev SignalMark := Mark String Bool

/-- The marks a store goes by, and those its file goes by. -/
structure Memory where
  marks : List SignalMark
  saved : List SignalMark

namespace Memory

def start (maxEntries : ℕ) : Memory :=
  ⟨[.resized (max 1 maxEntries)], []⟩

/-- What is remembered after an event of the session. -/
def next (memory : Memory) (session : SignalSession) : SignalEvent → Memory
  | .note key selection =>
      if key = "" then memory
      else { memory with marks := .touched key selection :: memory.marks }
  | .flush outcome =>
      let (succeeded, _, file) := session.store.flush session.file outcome
      if session.store.persistencePath = "" then memory
      else if succeeded then { memory with saved := memory.marks }
      else if file.isNone then { memory with saved := [] }
      else memory
  | .reload maxEntries =>
      { memory with marks := .resized (max 1 maxEntries) :: memory.saved }

def run (memory : Memory) (session : SignalSession) : List SignalEvent → Memory
  | [] => memory
  | event :: rest => run (memory.next session event) (session.next event) rest

end Memory

namespace AdaptiveSignalStore

/-- Entries in the order they were touched, the last one first. -/
def NewestFirst (signals : SignalMap) : Prop :=
  signals.Pairwise fun newer older => older.2.lastTick.toNat < newer.2.lastTick.toNat

/-- The store holds what the marks leave, newest first. -/
structure Represents (store : AdaptiveSignalStore) (marks : List SignalMark) : Prop where
  bound : store.maxEntries = capacity marks
  room : 0 < store.maxEntries
  keys : store.signals.map Prod.fst = held marks
  counts : ∀ entry ∈ store.signals,
    entry.2.exposureCount.toNat = min 100000 (count entry.1 false marks) ∧
      entry.2.selectionCount.toNat = min 100000 (count entry.1 true marks)
  ticks : NewestFirst store.signals
  below : ∀ entry ∈ store.signals, entry.2.lastTick.toNat < store.nextTick.toNat
  ticked : store.nextTick.toNat = 1 + touches marks

/-! ### Order and eviction -/

theorem before_iff {left right : String × RankingSignal} :
    Before left right ↔ left.2.lastTick.toNat < right.2.lastTick.toNat ∨
      left.2.lastTick.toNat = right.2.lastTick.toNat ∧ left.1 ≤ right.1 := by
  rw [Before, UInt64.lt_iff_toNat_lt, UInt64.toNat_inj]

instance : Std.Total Before := by
  refine ⟨fun left right => ?_⟩
  rw [before_iff, before_iff]
  rcases Nat.lt_trichotomy left.2.lastTick.toNat right.2.lastTick.toNat with
    earlier | same | later
  · exact Or.inl (Or.inl earlier)
  · rcases le_total left.1 right.1 with low | high
    · exact Or.inl (Or.inr ⟨same, low⟩)
    · exact Or.inr (Or.inr ⟨same.symm, high⟩)
  · exact Or.inr (Or.inl later)

instance : IsTrans (String × RankingSignal) Before := by
  refine ⟨fun first second third left right => ?_⟩
  rw [before_iff] at left right ⊢
  rcases left with earlier | ⟨same, low⟩ <;> rcases right with onward | ⟨equal, high⟩
  · exact Or.inl (earlier.trans onward)
  · exact Or.inl (equal ▸ earlier)
  · exact Or.inl (same ▸ onward)
  · exact Or.inr ⟨same.trans equal, low.trans high⟩

variable {signals : SignalMap}

theorem NewestFirst.ticks_nodup (newest : NewestFirst signals) :
    (signals.map fun entry => entry.2.lastTick.toNat).Nodup :=
  List.pairwise_map.mpr (newest.imp fun later => later.ne')

theorem ordered_eq_reverse (newest : NewestFirst signals) :
    ordered signals = signals.reverse := by
  have sorted := List.perm_insertionSort Before signals
  have ascending : signals.reverse.Pairwise Before :=
    List.pairwise_reverse.mpr (newest.imp fun later => before_iff.mpr (Or.inl later))
  refine List.Perm.eq_of_pairwise (fun left right inLeft inRight before after => ?_)
    (List.pairwise_insertionSort Before signals) ascending
    (sorted.trans signals.reverse_perm.symm)
  rw [before_iff] at before after
  exact List.inj_on_of_nodup_map newest.ticks_nodup (sorted.subset inLeft)
    (List.mem_reverse.mp inRight) (by omega)

theorem foldl_erase (removed : SignalMap) :
    removed.foldl (fun signals entry => signals.erase entry.1) signals =
      signals.filter (·.1 ∉ removed.map Prod.fst) := by
  induction removed generalizing signals with
  | nil => simp
  | cons entry rest ih =>
      rw [List.foldl_cons, ih, SignalMap.erase, List.filter_filter]
      refine List.filter_congr fun other _ => ?_
      simp only [List.map_cons, List.mem_cons, not_or]
      rw [Bool.eq_iff_iff]
      simp [and_comm]

theorem filter_removed {kept removed : SignalMap}
    (nodup : ((kept ++ removed).map Prod.fst).Nodup) :
    (kept ++ removed).filter (·.1 ∉ removed.map Prod.fst) = kept := by
  rw [List.map_append, List.nodup_append] at nodup
  rw [List.filter_append, List.filter_eq_self.mpr, List.filter_eq_nil_iff.mpr, List.append_nil]
  · intro entry member
    simpa using ⟨_, member⟩
  · intro entry member
    rw [decide_eq_true_eq]
    exact fun later => nodup.2.2 entry.1 (List.mem_map_of_mem member) entry.1 later rfl

variable {store : AdaptiveSignalStore}

theorem signals_prune (nodup : (store.signals.map Prod.fst).Nodup)
    (newest : NewestFirst store.signals) :
    store.prune.signals = store.signals.take store.maxEntries := by
  rw [prune]
  split
  · rename_i within
    exact (List.take_of_length_le within).symm
  · rename_i beyond
    have within : store.maxEntries ≤ store.signals.length := by omega
    dsimp only
    rw [ordered_eq_reverse newest, foldl_erase, List.take_reverse, Nat.sub_sub_self within]
    have parts := List.take_append_drop store.maxEntries store.signals
    have evicted := @filter_removed (store.signals.take store.maxEntries)
      (store.signals.drop store.maxEntries) (by rwa [parts])
    rw [parts] at evicted
    simpa using evicted

theorem prune_rest (store : AdaptiveSignalStore) :
    store.prune.maxEntries = store.maxEntries ∧ store.prune.nextTick = store.nextTick ∧
      store.prune.persistencePath = store.persistencePath ∧ store.prune.dirty = store.dirty := by
  rw [prune]
  split <;> exact ⟨rfl, rfl, rfl, rfl⟩

variable {marks : List SignalMark}

/-- A store that represents the marks but for the entries it has to evict. -/
theorem represents_prune (bound : store.maxEntries = capacity marks) (room : 0 < store.maxEntries)
    (nodup : (store.signals.map Prod.fst).Nodup)
    (keys : (store.signals.map Prod.fst).take store.maxEntries = held marks)
    (counts : ∀ entry ∈ store.signals, entry.1 ∈ held marks →
      entry.2.exposureCount.toNat = min 100000 (count entry.1 false marks) ∧
        entry.2.selectionCount.toNat = min 100000 (count entry.1 true marks))
    (newest : NewestFirst store.signals)
    (below : ∀ entry ∈ store.signals, entry.2.lastTick.toNat < store.nextTick.toNat)
    (ticked : store.nextTick.toNat = 1 + touches marks) : Represents store.prune marks := by
  have evicted := signals_prune nodup newest
  obtain ⟨sameBound, sameTick, _, _⟩ := prune_rest store
  have heldKeys : store.prune.signals.map Prod.fst = held marks := by
    rw [evicted, List.map_take, keys]
  have among {entry : String × RankingSignal} (member : entry ∈ store.prune.signals) :
      entry ∈ store.signals := by
    rw [evicted] at member
    exact List.mem_of_mem_take member
  constructor
  · rw [sameBound, bound]
  · rw [sameBound]
    exact room
  · exact heldKeys
  · intro entry member
    exact counts entry (among member) (heldKeys ▸ List.mem_map_of_mem member)
  · rw [evicted]
    exact newest.sublist (List.take_sublist _ _)
  · intro entry member
    rw [sameTick]
    exact below entry (among member)
  · rw [sameTick, ticked]

/-! ### Events -/

theorem toNat_saturated {counted : UInt32} {events : ℕ}
    (before : counted.toNat = min 100000 events) :
    (saturated counted).toNat = min 100000 (events + 1) := by
  have added : (counted + 1).toNat = counted.toNat + 1 := by
    rw [UInt32.toNat_add]
    exact Nat.mod_eq_of_lt (by simp; omega)
  have limit : (100000 : UInt32).toNat = 100000 := rfl
  have choice : saturated counted =
      if counted + 1 ≤ 100000 then counted + 1 else (100000 : UInt32) := rfl
  rw [choice]
  by_cases low : counted + 1 ≤ (100000 : UInt32)
  · rw [if_pos low]
    rw [UInt32.le_iff_toNat_le, added, limit] at low
    omega
  · rw [if_neg low]
    rw [UInt32.le_iff_toNat_le, added, limit] at low
    omega

theorem mem_of_find {key : String} {signal : RankingSignal}
    (found : signals.find key = some signal) : (key, signal) ∈ signals := by
  obtain ⟨entry, first, rfl⟩ := Option.map_eq_some_iff.mp found
  have named := List.find?_some first
  rw [beq_iff_eq] at named
  exact named ▸ List.mem_of_find?_eq_some first

theorem not_mem_of_find {key : String} (missing : signals.find key = none) :
    key ∉ signals.map Prod.fst := by
  have absent := Option.map_eq_none_iff.mp missing
  intro member
  obtain ⟨entry, inside, rfl⟩ := List.mem_map.mp member
  exact absurd (beq_self_eq_true entry.1) (by simpa using List.find?_eq_none.mp absent entry inside)

theorem find_of_mem (nodup : (signals.map Prod.fst).Nodup) {entry : String × RankingSignal}
    (member : entry ∈ signals) : signals.find entry.1 = some entry.2 := by
  cases found : signals.find entry.1 with
  | none => exact absurd (List.mem_map_of_mem member) (not_mem_of_find found)
  | some signal =>
      have same := List.inj_on_of_nodup_map nodup (mem_of_find found) member rfl
      rw [← same]

/-- The counts a touch starts from are those since the key was last evicted. -/
theorem Represents.counted (represents : Represents store marks) (key : String) :
    ((store.signals.find key).getD {}).exposureCount.toNat = min 100000 (count key false marks) ∧
      ((store.signals.find key).getD {}).selectionCount.toNat =
        min 100000 (count key true marks) := by
  cases found : store.signals.find key with
  | some signal => exact represents.counts _ (mem_of_find found)
  | none =>
      have absent := not_mem_of_find found
      rw [represents.keys] at absent
      rw [count_of_not_held absent, count_of_not_held absent]
      exact ⟨rfl, rfl⟩

/-- **An event keeps the table.** -/
theorem represents_noteEvent (represents : Represents store marks) {key : String}
    (named : key ≠ "") (selection : Bool) (few : touches marks + 2 < 2 ^ 64) :
    Represents (store.noteEvent key selection) (.touched key selection :: marks) := by
  have nodup : (store.signals.map Prod.fst).Nodup := represents.keys ▸ held_nodup marks
  have room : 0 < capacity marks := represents.bound ▸ represents.room
  have ticked : (store.nextTick + 1).toNat = store.nextTick.toNat + 1 := by
    have now := represents.ticked
    rw [UInt64.toNat_add]
    exact Nat.mod_eq_of_lt (by simp; omega)
  have others : ((store.signals.filter (·.1 ≠ key)).map Prod.fst) =
      (held marks).filter (· ≠ key) := by
    rw [← represents.keys, List.filter_map]
    rfl
  rw [noteEvent, if_neg named]
  apply represents_prune
  · exact represents.bound
  · exact represents.room
  · show (key :: (store.signals.filter (·.1 ≠ key)).map Prod.fst).Nodup
    rw [others]
    exact List.nodup_cons.mpr ⟨by simp, (held_nodup marks).filter _⟩
  · show (key :: (store.signals.filter (·.1 ≠ key)).map Prod.fst).take store.maxEntries = _
    rw [others, represents.bound, held_touched]
  · intro entry member present
    rcases List.mem_cons.mp member with rfl | older
    · obtain ⟨exposures, selections⟩ := represents.counted key
      rw [count_touched_self room, count_touched_self room]
      cases selection with
      | false => exact ⟨toNat_saturated exposures, selections⟩
      | true => exact ⟨exposures, toNat_saturated selections⟩
    · obtain ⟨inside, apart⟩ := List.mem_filter.mp older
      have apart : entry.1 ≠ key := by simpa using apart
      rw [count_touched_of_ne apart present, count_touched_of_ne apart present]
      exact represents.counts entry inside
  · refine List.pairwise_cons.mpr ⟨fun entry member => ?_, represents.ticks.filter _⟩
    exact represents.below entry (List.mem_of_mem_filter member)
  · intro entry member
    rw [ticked]
    rcases List.mem_cons.mp member with rfl | older
    · exact Nat.lt_succ_self _
    · exact (represents.below entry (List.mem_of_mem_filter older)).trans (Nat.lt_succ_self _)
  · have now := represents.ticked
    rw [ticked, touches]
    omega

/-! ### Writing and reading the file -/

theorem toInt_tick {tick : UInt64} (small : tick.toNat < 2 ^ 63) :
    tick.toInt64.toInt = tick.toNat := by
  refine (BitVec.toInt_eq_toNat_of_lt ?_).trans rfl
  rw [UInt64.toBitVec_toInt64, UInt64.toNat_toBitVec]
  omega

theorem parseEntry_entryToJson {entry : String × RankingSignal}
    (small : entry.2.lastTick.toNat < 2 ^ 63) : parseEntry (entryToJson entry) = some entry := by
  obtain ⟨key, exposures, selections, tick⟩ := entry
  have read : parseEntry (entryToJson (key, ⟨exposures, selections, tick⟩)) = some (key,
      { exposureCount := UInt32.ofNat (max 0 (exposures.toNat : ℤ)).toNat
        selectionCount := UInt32.ofNat (max 0 (selections.toNat : ℤ)).toNat
        lastTick := UInt64.ofNat (max 0 tick.toInt64.toInt).toNat }) := rfl
  rw [read, toInt_tick small]
  simp

/-- Entries read in the order of the file end up newest first again. -/
theorem foldl_insertOrAssign (nodup : (signals.map Prod.fst).Nodup) :
    signals.reverse.foldl
      (fun (signals : SignalMap) entry => signals.insertOrAssign entry.1 entry.2) [] = signals := by
  induction signals with
  | nil => rfl
  | cons entry rest ih =>
      have parts := List.nodup_cons.mp nodup
      rw [List.reverse_cons, List.foldl_append, ih parts.2]
      show (entry.1, entry.2) :: rest.filter (·.1 ≠ entry.1) = entry :: rest
      congr 1
      refine List.filter_eq_self.mpr fun other member => ?_
      rw [decide_eq_true_eq]
      exact fun same => parts.1 (same ▸ List.mem_map_of_mem member)

theorem opened_read (store : AdaptiveSignalStore) {path : String} (bound : path ≠ "")
    (maxEntries : ℕ) :
    opened path maxEntries (some store.toJson) =
      { prune
          { persistencePath := path
            maxEntries := max 1 maxEntries
            signals := (((ordered store.signals).map entryToJson).filterMap parseEntry).foldl
              (fun (signals : SignalMap) entry => signals.insertOrAssign entry.1 entry.2) []
            nextTick := if store.nextTick.toInt64.toInt > 0 then
              UInt64.ofNat store.nextTick.toInt64.toInt.toNat else 1 } with
        dirty := false } := by
  rw [opened, load, if_neg bound]
  rfl

/-- Opening a saved store gives its entries back, but for those that no longer fit. -/
theorem opened_toJson (represents : Represents store marks) (few : touches marks + 2 < 2 ^ 63)
    {path : String} (bound : path ≠ "") (maxEntries : ℕ) :
    opened path maxEntries (some store.toJson) =
      { prune
          { persistencePath := path
            maxEntries := max 1 maxEntries
            signals := store.signals
            nextTick := store.nextTick } with
        dirty := false } := by
  have ticked := represents.ticked
  have entries : ((ordered store.signals).map entryToJson).filterMap parseEntry =
      store.signals.reverse := by
    rw [ordered_eq_reverse represents.ticks, List.filterMap_map]
    refine (List.filterMap_congr fun entry member => ?_).trans List.filterMap_some
    have below := represents.below entry (List.mem_reverse.mp member)
    exact parseEntry_entryToJson (by omega)
  have nodup : (store.signals.map Prod.fst).Nodup := represents.keys ▸ held_nodup marks
  rw [opened_read store bound, entries, foldl_insertOrAssign nodup, toInt_tick (by omega),
    if_pos (by omega)]
  simp

theorem Represents.with_dirty (represents : Represents store marks) (dirty : Bool) :
    Represents { store with dirty := dirty } marks :=
  ⟨represents.bound, represents.room, represents.keys, represents.counts, represents.ticks,
    represents.below, represents.ticked⟩

/-- The file, opened with no more room than the bound, gives a table of the marks. -/
def FileRepresents (path : String) (bound : ℕ) (file : Option JsonValue)
    (marks : List SignalMark) : Prop :=
  ∀ maxEntries, max 1 maxEntries ≤ bound →
    Represents (opened path maxEntries file) (.resized (max 1 maxEntries) :: marks)

variable {path : String} {bound : ℕ} {file : Option JsonValue}

theorem FileRepresents.mono (represents : FileRepresents path bound file marks) {smaller : ℕ}
    (within : smaller ≤ bound) : FileRepresents path smaller file marks :=
  fun maxEntries fits => represents maxEntries (fits.trans within)

theorem fileRepresents_nothing (nothing : path = "" ∨ file = none) :
    FileRepresents path bound file [] := by
  intro maxEntries _
  have empty : opened path maxEntries file =
      { persistencePath := path, maxEntries := max 1 maxEntries } := by
    rw [opened, load]
    rcases nothing with unbound | missing
    · rw [if_pos unbound]
    · rw [missing]
      split <;> rfl
  rw [empty]
  exact ⟨rfl, Nat.lt_of_lt_of_le Nat.one_pos (Nat.le_max_left _ _), by simp [held, recent],
    by simp, List.Pairwise.nil, by simp, rfl⟩

theorem fileRepresents_toJson (represents : Represents store marks)
    (few : touches marks + 2 < 2 ^ 63) (bound : path ≠ "") :
    FileRepresents path store.maxEntries (some store.toJson) marks := by
  intro maxEntries fits
  have nodup : (store.signals.map Prod.fst).Nodup := represents.keys ▸ held_nodup marks
  rw [opened_toJson represents few bound]
  apply Represents.with_dirty
  apply represents_prune
  · rfl
  · exact Nat.lt_of_lt_of_le Nat.one_pos (Nat.le_max_left _ _)
  · exact nodup
  · rw [held_resized (represents.bound ▸ fits), represents.keys]
  · intro entry member present
    rw [count_resized present, count_resized present]
    exact represents.counts entry member
  · exact represents.ticks
  · exact represents.below
  · exact represents.ticked

theorem FileRepresents.resized (represents : FileRepresents path bound file marks) :
    FileRepresents path bound file (.resized bound :: marks) := by
  intro maxEntries fits
  have table := represents maxEntries fits
  refine ⟨table.bound, table.room, table.keys, fun entry member => ?_, table.ticks,
    table.below, table.ticked⟩
  have present : entry.1 ∈ held (.resized (max 1 maxEntries) :: marks) :=
    table.keys ▸ List.mem_map_of_mem member
  have twice : entry.1 ∈ held (.resized (max 1 maxEntries) :: .resized bound :: marks) := present
  have among : entry.1 ∈ held (.resized bound :: marks) :=
    (List.take_subset_take_left _ fits) present
  have counts := table.counts entry member
  rw [count_resized present, count_resized present] at counts
  rw [count_resized twice, count_resized twice, count_resized among, count_resized among]
  exact counts

theorem Represents.prune_eq (represents : Represents store marks) : store.prune = store := by
  have length : store.signals.length ≤ store.maxEntries := by
    have fits := length_held_le marks
    rwa [← represents.keys, List.length_map, ← represents.bound] at fits
  rw [prune, if_pos length]

theorem noteEvent_rest (store : AdaptiveSignalStore) {key : String} (named : key ≠ "")
    (selection : Bool) :
    (store.noteEvent key selection).maxEntries = store.maxEntries ∧
      (store.noteEvent key selection).persistencePath = store.persistencePath ∧
        (store.noteEvent key selection).dirty = true := by
  rw [noteEvent, if_neg named]
  exact ⟨(prune_rest _).1, (prune_rest _).2.2.1, (prune_rest _).2.2.2⟩

theorem opened_rest (path : String) (maxEntries : ℕ) (file : Option JsonValue) :
    (opened path maxEntries file).maxEntries = max 1 maxEntries ∧
      (opened path maxEntries file).persistencePath = path ∧
        (opened path maxEntries file).dirty = false := by
  rw [opened, load]
  split
  · exact ⟨rfl, rfl, rfl⟩
  split
  · exact ⟨rfl, rfl, rfl⟩
  split
  · exact ⟨rfl, rfl, rfl⟩
  dsimp only
  split
  · exact ⟨rfl, rfl, rfl⟩
  · exact ⟨(prune_rest _).1, (prune_rest _).2.2.1, rfl⟩

/-- Opening a saved store with its own capacity gives it back, with nothing to write. -/
theorem opened_saved (represents : Represents store marks) (few : touches marks + 2 < 2 ^ 63)
    (bound : store.persistencePath ≠ "") :
    opened store.persistencePath store.maxEntries (some store.toJson) =
      { store with dirty := false } := by
  have room : max 1 store.maxEntries = store.maxEntries := max_eq_right represents.room
  have kept := (represents.with_dirty false).prune_eq
  rw [opened_toJson represents few bound, room]
  show { prune { store with dirty := false } with dirty := false } = { store with dirty := false }
  rw [kept]

/-- A flush with nothing to write or no file reports success; any other replaces the file, or fails
and leaves it or removes it. -/
theorem flush_cases (store : AdaptiveSignalStore) (file : Option JsonValue)
    (outcome : FlushOutcome) :
    (store.dirty = false ∧ store.flush file outcome = (true, store, file)) ∨
    (store.persistencePath = "" ∧
      store.flush file outcome = (true, { store with dirty := false }, file)) ∨
    (store.persistencePath ≠ "" ∧ store.flush file outcome =
      (true, { store with dirty := false }, some store.toJson)) ∨
    (store.persistencePath ≠ "" ∧ store.dirty = true ∧
      (store.flush file outcome = (false, store, file) ∨
        store.flush file outcome = (false, store, none))) := by
  unfold flush
  by_cases dirty : store.dirty = true
  · rw [if_neg (not_not.mpr dirty)]
    by_cases bound : store.persistencePath = ""
    · rw [if_pos bound]
      exact Or.inr (Or.inl ⟨bound, rfl⟩)
    · rw [if_neg bound]
      cases outcome with
      | replaced => exact Or.inr (Or.inr (Or.inl ⟨bound, rfl⟩))
      | refused => exact Or.inr (Or.inr (Or.inr ⟨bound, dirty, Or.inl rfl⟩))
      | removed => exact Or.inr (Or.inr (Or.inr ⟨bound, dirty, Or.inr rfl⟩))
  · rw [if_pos dirty]
    exact Or.inl ⟨by simpa using dirty, rfl⟩

end AdaptiveSignalStore

open AdaptiveSignalStore

/-! ### Sessions -/

/-- The store represents the marks, its file those it saved, and a store with nothing to write is
the one its file opens to. -/
structure Remembers (noted : ℕ) (session : SignalSession) (memory : Memory) : Prop where
  now : session.store.Represents memory.marks
  file : FileRepresents session.store.persistencePath session.store.maxEntries session.file
    memory.saved
  unsaved : session.store.persistencePath = "" → memory.saved = []
  clean : session.store.persistencePath ≠ "" → session.store.dirty = false →
    FileRepresents session.store.persistencePath session.store.maxEntries session.file
        memory.marks ∧
      opened session.store.persistencePath session.store.maxEntries session.file = session.store
  marksFew : touches memory.marks ≤ noted
  savedFew : touches memory.saved ≤ noted

theorem remembers_start (path : String) (maxEntries : ℕ) :
    Remembers 0 (SignalSession.start path maxEntries) (Memory.start maxEntries) := by
  have nothing {bound : ℕ} : FileRepresents path bound none [] :=
    fileRepresents_nothing (Or.inr rfl)
  obtain ⟨bound, bounded, _⟩ := opened_rest path maxEntries none
  have again : opened path (max 1 maxEntries) none = opened path maxEntries none := by
    rw [opened, opened, ← max_assoc, max_self]
  constructor
  · exact nothing maxEntries le_rfl
  · rw [SignalSession.start, bounded]
    exact nothing
  · exact fun _ => rfl
  · intro _ _
    rw [SignalSession.start, bounded, bound]
    exact ⟨nothing.resized, again⟩
  · exact Nat.le_refl 0
  · exact Nat.le_refl 0

theorem Remembers.later {noted : ℕ} {session : SignalSession} {memory : Memory}
    (remembers : Remembers noted session memory) : Remembers (noted + 1) session memory :=
  { remembers with
    marksFew := remembers.marksFew.trans (Nat.le_succ _)
    savedFew := remembers.savedFew.trans (Nat.le_succ _) }

variable {noted : ℕ} {session : SignalSession} {memory : Memory}

theorem remembers_note (remembers : Remembers noted session memory) (few : noted + 2 < 2 ^ 63)
    (key : String) (selection : Bool) :
    Remembers (noted + 1) (session.next (.note key selection))
      (memory.next session (.note key selection)) := by
  by_cases named : key = ""
  · rw [SignalSession.next, Memory.next, noteEvent, if_pos named, if_pos named]
    exact remembers.later
  · have marksFew := remembers.marksFew
    obtain ⟨bound, path, dirty⟩ := noteEvent_rest session.store named selection
    rw [SignalSession.next, Memory.next, if_neg named]
    constructor
    · exact represents_noteEvent remembers.now named selection (by omega)
    · dsimp only
      rw [bound, path]
      exact remembers.file
    · dsimp only
      rw [path]
      exact remembers.unsaved
    · intro _ clean
      rw [dirty] at clean
      cases clean
    · exact Nat.succ_le_succ marksFew
    · exact remembers.savedFew.trans (Nat.le_succ _)

theorem remembers_reload (remembers : Remembers noted session memory) {maxEntries : ℕ}
    (smaller : max 1 maxEntries ≤ session.store.maxEntries) :
    Remembers noted (session.next (.reload maxEntries))
      (memory.next session (.reload maxEntries)) := by
  obtain ⟨bound, path, dirty⟩ :=
    opened_rest session.store.persistencePath maxEntries session.file
  have file : FileRepresents session.store.persistencePath (max 1 maxEntries) session.file
      memory.saved := remembers.file.mono smaller
  have again : opened session.store.persistencePath (max 1 maxEntries) session.file =
      opened session.store.persistencePath maxEntries session.file := by
    rw [opened, opened, ← max_assoc, max_self]
  rw [SignalSession.next, Memory.next]
  constructor
  · exact remembers.file maxEntries smaller
  · dsimp only
    rw [bound, path]
    exact file
  · dsimp only
    rw [path]
    exact remembers.unsaved
  · dsimp only
    rw [bound, path]
    exact fun _ _ => ⟨file.resized, again⟩
  · exact remembers.savedFew
  · exact remembers.savedFew

theorem remembers_flush (remembers : Remembers noted session memory) (few : noted + 2 < 2 ^ 63)
    (outcome : FlushOutcome) :
    Remembers noted (session.next (.flush outcome)) (memory.next session (.flush outcome)) := by
  have marksFew := remembers.marksFew
  rw [SignalSession.next, Memory.next]
  rcases flush_cases session.store session.file outcome with
    ⟨clean, whole⟩ | ⟨unbound, whole⟩ | ⟨bound, whole⟩ | ⟨bound, dirty, whole | whole⟩ <;>
    rw [whole] <;> dsimp only
  · by_cases bound : session.store.persistencePath = ""
    · rw [if_pos bound]
      exact remembers
    · rw [if_neg bound, if_pos rfl]
      exact { remembers with
        file := (remembers.clean bound clean).1
        unsaved := fun unbound => absurd unbound bound
        savedFew := marksFew }
  · rw [if_pos unbound]
    exact { remembers with
      now := remembers.now.with_dirty false
      clean := fun bound => absurd unbound bound }
  · rw [if_neg bound, if_pos rfl]
    have represents := fileRepresents_toJson remembers.now (by omega) bound
    have saved := opened_saved remembers.now (by omega) bound
    exact {
      now := remembers.now.with_dirty false
      file := represents
      unsaved := fun unbound => absurd unbound bound
      clean := fun _ _ => ⟨represents, saved⟩
      marksFew := marksFew
      savedFew := marksFew }
  · rw [if_neg bound, if_neg Bool.false_ne_true]
    split
    · rename_i missing
      rw [Option.isNone_iff_eq_none] at missing
      exact { remembers with
        file := fileRepresents_nothing (Or.inr missing)
        unsaved := fun _ => rfl
        savedFew := Nat.zero_le _ }
    · exact remembers
  · rw [if_neg bound, if_neg Bool.false_ne_true, Option.isNone_none, if_pos rfl]
    exact {
      now := remembers.now
      file := fileRepresents_nothing (Or.inr rfl)
      unsaved := fun _ => rfl
      clean := fun _ clean => absurd (dirty.symm.trans clean) Bool.true_eq_false.mp
      marksFew := marksFew
      savedFew := Nat.zero_le _ }

/-- No reload asks for more room than the store has. -/
def Shrinking (bound : ℕ) : List SignalEvent → Prop
  | [] => True
  | .reload maxEntries :: rest => max 1 maxEntries ≤ bound ∧ Shrinking (max 1 maxEntries) rest
  | _ :: rest => Shrinking bound rest

/-- **A session keeps what it remembers.** -/
theorem remembers_run {events : List SignalEvent} (remembers : Remembers noted session memory)
    (shrinks : Shrinking session.store.maxEntries events)
    (few : noted + events.length + 2 < 2 ^ 63) :
    Remembers (noted + events.length) (session.run events) (memory.run session events) := by
  induction events generalizing noted session memory with
  | nil => exact remembers
  | cons event rest ih =>
      rw [List.length_cons] at few ⊢
      rw [show noted + (rest.length + 1) = noted + 1 + rest.length by omega]
      cases event with
      | note key selection =>
          refine ih (remembers_note remembers (by omega) key selection) ?_
            (by omega)
          by_cases named : key = ""
          · rw [SignalSession.next, noteEvent, if_pos named]
            exact shrinks
          · rw [SignalSession.next, (noteEvent_rest session.store named selection).1]
            exact shrinks
      | flush outcome =>
          refine ih (remembers_flush remembers (by omega) outcome).later ?_
            (by omega)
          rw [SignalSession.next]
          rcases flush_cases session.store session.file outcome with
            ⟨_, whole⟩ | ⟨_, whole⟩ | ⟨_, whole⟩ | ⟨_, _, whole | whole⟩ <;>
            rw [whole] <;> exact shrinks
      | reload maxEntries =>
          refine ih (remembers_reload remembers shrinks.1).later ?_ (by omega)
          rw [SignalSession.next, (opened_rest _ _ _).1]
          exact shrinks.2

/-! ### The table -/

/-- The store holds exactly the most recently touched keys, as many as fit, each with its counts
since it was last evicted, and no two of them touched at the same tick. -/
structure HoldsMostRecent (store : AdaptiveSignalStore) (marks : List SignalMark) : Prop where
  keys : ∀ key, (store.signalFor key).isSome ↔ key ∈ held marks
  size : store.signals.length = (held marks).length
  fits : store.signals.length ≤ store.maxEntries
  counts : ∀ key signal, store.signalFor key = some signal →
    signal.exposureCount.toNat = min 100000 (count key false marks) ∧
      signal.selectionCount.toNat = min 100000 (count key true marks)
  distinct : ∀ key other signal otherSignal, key ≠ other → store.signalFor key = some signal →
    store.signalFor other = some otherSignal → signal.lastTick ≠ otherSignal.lastTick
  below : ∀ key signal, store.signalFor key = some signal → signal.lastTick < store.currentTick

theorem holdsMostRecent_of_represents {store : AdaptiveSignalStore} {marks : List SignalMark}
    (represents : store.Represents marks) : HoldsMostRecent store marks := by
  have nodup : (store.signals.map Prod.fst).Nodup := represents.keys ▸ held_nodup marks
  have length : store.signals.length = (held marks).length := by
    rw [← represents.keys, List.length_map]
  constructor
  · intro key
    rw [← represents.keys, Option.isSome_iff_exists]
    constructor
    · rintro ⟨signal, found⟩
      exact List.mem_map_of_mem (f := Prod.fst) (mem_of_find found)
    · intro member
      obtain ⟨entry, inside, rfl⟩ := List.mem_map.mp member
      exact ⟨entry.2, find_of_mem nodup inside⟩
  · exact length
  · rw [length, represents.bound]
    exact length_held_le marks
  · intro key signal found
    exact represents.counts _ (mem_of_find found)
  · intro key other signal otherSignal apart found otherFound same
    have entries := List.inj_on_of_nodup_map represents.ticks.ticks_nodup (mem_of_find found)
      (mem_of_find otherFound) (congrArg UInt64.toNat same)
    exact apart (congrArg Prod.fst entries)
  · intro key signal found
    exact UInt64.lt_iff_toNat_lt.mpr (represents.below _ (mem_of_find found))

/-- A flush that reports success and a reload with the same capacity give the contents and the next
tick back. -/
def Persists (session : SignalSession) : Prop :=
  ∀ outcome, (session.store.flush session.file outcome).1 = true →
    let reloaded := ((session.next (.flush outcome)).next
      (.reload session.store.maxEntries)).store
    reloaded.signals = session.store.signals ∧ reloaded.nextTick = session.store.nextTick

theorem persists_of_remembers (remembers : Remembers noted session memory)
    (few : noted + 2 < 2 ^ 63) (bound : session.store.persistencePath ≠ "") : Persists session := by
  intro outcome succeeded
  have after := remembers_flush remembers few outcome
  rw [SignalSession.next] at after ⊢
  rcases flush_cases session.store session.file outcome with
    ⟨clean, whole⟩ | ⟨unbound, _⟩ | ⟨_, whole⟩ | ⟨_, _, whole | whole⟩
  · rw [whole] at after ⊢
    have again := (after.clean bound clean).2
    exact ⟨congrArg signals again, congrArg nextTick again⟩
  · exact absurd unbound bound
  · have marksFew := remembers.marksFew
    have again := opened_saved remembers.now (by omega) bound
    have contents := congrArg signals again
    have tick := congrArg nextTick again
    rw [whole]
    exact ⟨contents, tick⟩
  · rw [whole] at succeeded
    cases succeeded
  · rw [whole] at succeeded
    cases succeeded

theorem path_next (session : SignalSession) (event : SignalEvent) :
    (session.next event).store.persistencePath = session.store.persistencePath := by
  cases event with
  | note key selection =>
      rw [SignalSession.next]
      by_cases named : key = ""
      · rw [noteEvent, if_pos named]
      · exact (noteEvent_rest session.store named selection).2.1
  | flush outcome =>
      rw [SignalSession.next]
      rcases flush_cases session.store session.file outcome with
        ⟨_, whole⟩ | ⟨_, whole⟩ | ⟨_, whole⟩ | ⟨_, _, whole | whole⟩ <;> rw [whole]
  | reload maxEntries => exact (opened_rest _ _ _).2.1

theorem path_run (session : SignalSession) (events : List SignalEvent) :
    (session.run events).store.persistencePath = session.store.persistencePath := by
  induction events generalizing session with
  | nil => rfl
  | cons event rest ih =>
      exact (ih _).trans (path_next session event)

/-- **The adaptive signal store is a bounded table of the most recently touched keys**, over any
session whose reloads do not grow it, as far as events go that a signed tick can number. -/
theorem signals_mostRecent (path : String) (maxEntries : ℕ) (events : List SignalEvent)
    (shrinks : Shrinking (max 1 maxEntries) events) (few : events.length + 2 < 2 ^ 63) :
    HoldsMostRecent ((SignalSession.start path maxEntries).run events).store
        ((Memory.start maxEntries).run (SignalSession.start path maxEntries) events).marks ∧
      (path ≠ "" → Persists ((SignalSession.start path maxEntries).run events)) := by
  have bounded := (opened_rest path maxEntries none).1
  have remembers := remembers_run (remembers_start path maxEntries)
    (show Shrinking (opened path maxEntries none).maxEntries events by rwa [bounded]) (by omega)
  refine ⟨holdsMostRecent_of_represents remembers.now, fun bound => ?_⟩
  refine persists_of_remembers remembers (by omega) ?_
  rw [path_run, SignalSession.start, (opened_rest path maxEntries none).2.1]
  exact bound

/-- Two keys in a table with room for one. -/
theorem signals_mostRecent_two :
    let session := (SignalSession.start "/signals.json" 1).run
      [.note "a" false, .note "b" true, .flush .replaced, .reload 1]
    HoldsMostRecent session.store [.resized 1, .touched "b" true, .touched "a" false, .resized 1] ∧
      Persists session := by
  have table := signals_mostRecent "/signals.json" 1
    [.note "a" false, .note "b" true, .flush .replaced, .reload 1] ⟨by decide, trivial⟩ (by decide)
  exact ⟨table.1, table.2 (by decide)⟩

/-! ### What no file keeps -/

theorem run_exposures (session : SignalSession) {key : String} (named : key ≠ "") (count : ℕ) :
    (session.run (List.replicate count (.note key false))).store.nextTick =
        session.store.nextTick + UInt64.ofNat count ∧
      (session.store.dirty = true ∨ 0 < count →
        (session.run (List.replicate count (.note key false))).store.dirty = true) := by
  induction count generalizing session with
  | zero => simp [SignalSession.run]
  | succ count ih =>
      have tick : (session.next (.note key false)).store.nextTick =
          session.store.nextTick + 1 := by
        rw [SignalSession.next, noteEvent, if_neg named]
        exact (prune_rest _).2.1
      have dirty : (session.next (.note key false)).store.dirty = true :=
        (noteEvent_rest session.store named false).2.2
      obtain ⟨later, stays⟩ := ih (session.next (.note key false))
      rw [List.replicate_succ, SignalSession.run, List.foldl_cons]
      refine ⟨later.trans ?_, fun _ => stays (Or.inl dirty)⟩
      rw [tick, UInt64.ofNat_add, UInt64.add_comm (UInt64.ofNat count), UInt64.add_assoc]
      rfl

theorem not_persists_of_wide (bound : session.store.persistencePath ≠ "")
    (dirty : session.store.dirty = true) (wide : session.store.nextTick = 0x8000000000000000) :
    ¬Persists session := by
  intro persists
  have whole : session.store.flush session.file .replaced =
      (true, { session.store with dirty := false }, some session.store.toJson) := by
    unfold flush
    rw [if_neg (not_not.mpr dirty), if_neg bound]
  have again := persists .replaced
  rw [SignalSession.next, whole] at again
  have back : (opened session.store.persistencePath session.store.maxEntries
      (some session.store.toJson)).nextTick = session.store.nextTick := (again rfl).2
  rw [opened_read session.store bound, wide] at back
  have read : (if (UInt64.toInt64 0x8000000000000000).toInt > 0 then
      UInt64.ofNat (UInt64.toInt64 0x8000000000000000).toInt.toNat else 1) =
        (0x8000000000000000 : UInt64) := (prune_rest _).2.1.symm.trans back
  exact absurd read (by decide)

/-- **What a flush reports does not always come back, and what no flush saved never does**: a store
without a file keeps nothing, a reload forgets an exposure that was not flushed, and a tick past
the signed range is not read. -/
theorem signals_not_kept :
    ¬Persists ((SignalSession.start "" 4).run [.note "a" false]) ∧
      (((SignalSession.start "/signals.json" 4).run
        [.note "a" false, .reload 4]).store.signalFor "a" = none) ∧
      ¬Persists ((SignalSession.start "/signals.json" 4).run
        (List.replicate (2 ^ 63 - 1) (.note "a" false))) := by
  refine ⟨fun persists => ?_, by decide, fun persists => ?_⟩
  · exact absurd (persists .replaced (by decide)).1 (by decide)
  · obtain ⟨tick, dirty⟩ := run_exposures (SignalSession.start "/signals.json" 4)
      (show "a" ≠ "" by decide) (2 ^ 63 - 1)
    refine not_persists_of_wide ?_ (dirty (Or.inr (by decide))) ?_ persists
    · rw [path_run]
      decide
    · rw [tick]
      decide

end LlvmDsdl.LSP
