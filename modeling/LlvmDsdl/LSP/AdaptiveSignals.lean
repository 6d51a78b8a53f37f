import LlvmDsdl.LSP.DocumentSync

/-!
Contract: the adaptive signal store of the ranking (`LSP/Ranking.cpp`).

Owns: the signals of the ranked keys, exposure and selection events, eviction,
and how a store is written to its file and read back when it is opened.

A file's content is the JSON value its text parses to, as for index shards. What
the file system makes of a flush is an input of it. The scores themselves are
left out.
-/

namespace LlvmDsdl.LSP

def rankingSignalSchemaVersion : UInt32 := 1

structure RankingSignal where
  exposureCount : UInt32 := 0
  selectionCount : UInt32 := 0
  lastTick : UInt64 := 0
deriving DecidableEq, Repr

abbrev SignalMap := List (String × RankingSignal)

def SignalMap.find (signals : SignalMap) (key : String) : Option RankingSignal :=
  (signals.find? fun entry => entry.1 == key).map Prod.snd

def SignalMap.insertOrAssign (signals : SignalMap) (key : String) (signal : RankingSignal) :
    SignalMap :=
  (key, signal) :: signals.filter (·.1 ≠ key)

def SignalMap.erase (signals : SignalMap) (key : String) : SignalMap :=
  signals.filter (·.1 ≠ key)

structure AdaptiveSignalStore where
  persistencePath : String
  maxEntries : ℕ
  signals : SignalMap := []
  nextTick : UInt64 := 1
  dirty : Bool := false
deriving DecidableEq, Repr

namespace AdaptiveSignalStore

def currentTick (store : AdaptiveSignalStore) : UInt64 :=
  store.nextTick

def signalFor (store : AdaptiveSignalStore) (key : String) : Option RankingSignal :=
  store.signals.find key

/-- The order of eviction and of the file: by last tick, then by key. -/
def Before (left right : String × RankingSignal) : Prop :=
  left.2.lastTick < right.2.lastTick ∨
    left.2.lastTick = right.2.lastTick ∧ left.1 ≤ right.1

instance : DecidableRel Before := fun _ _ => inferInstanceAs (Decidable (_ ∨ _))

def ordered (signals : SignalMap) : SignalMap :=
  signals.insertionSort Before

def prune (store : AdaptiveSignalStore) : AdaptiveSignalStore :=
  if store.signals.length ≤ store.maxEntries then store
  else
    let removeCount := store.signals.length - store.maxEntries
    { store with
      signals := ((ordered store.signals).take removeCount).foldl
        (fun signals entry => signals.erase entry.1) store.signals }

/-- A count after one more event. -/
def saturated (count : UInt32) : UInt32 :=
  min (count + 1) 100000

def noteEvent (store : AdaptiveSignalStore) (key : String) (selection : Bool) :
    AdaptiveSignalStore :=
  if key = "" then store
  else
    let signal := (store.signals.find key).getD {}
    let touched : RankingSignal :=
      { exposureCount :=
          if selection then signal.exposureCount else saturated signal.exposureCount
        selectionCount :=
          if selection then saturated signal.selectionCount else signal.selectionCount
        lastTick := store.nextTick }
    prune
      { store with
        signals := store.signals.insertOrAssign key touched
        nextTick := store.nextTick + 1
        dirty := true }

def entryToJson (entry : String × RankingSignal) : JsonValue :=
  .object
    [("key", .string entry.1), ("exposure", .integer entry.2.exposureCount.toNat),
      ("selection", .integer entry.2.selectionCount.toNat),
      ("last_tick", .integer entry.2.lastTick.toInt64.toInt)]

/-- What a flush renders; ticks are cast to signed 64-bit integers. -/
def toJson (store : AdaptiveSignalStore) : JsonValue :=
  .object
    [("schema_version", .integer rankingSignalSchemaVersion.toNat),
      ("next_tick", .integer store.nextTick.toInt64.toInt),
      ("entries", .array ((ordered store.signals).map entryToJson))]

/-- What the file system makes of a flush: the file is replaced; some step before the renaming
fails; or the file could be removed but not replaced. -/
inductive FlushOutcome where
  | replaced
  | refused
  | removed
  deriving DecidableEq

/-- `flush`, with its result and the file it leaves. -/
def flush (store : AdaptiveSignalStore) (file : Option JsonValue) (outcome : FlushOutcome) :
    Bool × AdaptiveSignalStore × Option JsonValue :=
  if ¬store.dirty then (true, store, file)
  else if store.persistencePath = "" then (true, { store with dirty := false }, file)
  else
    match outcome with
    | .replaced => (true, { store with dirty := false }, some store.toJson)
    | .refused => (false, store, file)
    | .removed => (false, store, none)

end AdaptiveSignalStore

def JsonValue.getInteger (fields : List (String × JsonValue)) (key : String) : Option ℤ :=
  match JsonValue.field fields key with
  | some (.integer value) => some value
  | _ => none

def JsonValue.getArray (fields : List (String × JsonValue)) (key : String) :
    Option (List JsonValue) :=
  (JsonValue.field fields key).bind JsonValue.getAsArray

namespace AdaptiveSignalStore

/-- One entry of the file; what is not an entry is skipped. -/
def parseEntry (entryValue : JsonValue) : Option (String × RankingSignal) := do
  let entry ← entryValue.getAsObject
  let key ← JsonValue.getString entry "key"
  let exposure ← JsonValue.getInteger entry "exposure"
  let selection ← JsonValue.getInteger entry "selection"
  let lastTick ← JsonValue.getInteger entry "last_tick"
  some (key,
    { exposureCount := UInt32.ofNat (max 0 exposure).toNat
      selectionCount := UInt32.ofNat (max 0 selection).toNat
      lastTick := UInt64.ofNat (max 0 lastTick).toNat })

def load (store : AdaptiveSignalStore) (file : Option JsonValue) : AdaptiveSignalStore :=
  if store.persistencePath = "" then store
  else
    match file.bind JsonValue.getAsObject with
    | none => store
    | some object =>
        if JsonValue.getInteger object "schema_version" ≠
            some (rankingSignalSchemaVersion.toNat : ℤ) then store
        else
          let nextTick :=
            match JsonValue.getInteger object "next_tick" with
            | some loadedTick =>
                if loadedTick > 0 then UInt64.ofNat loadedTick.toNat else store.nextTick
            | none => store.nextTick
          match JsonValue.getArray object "entries" with
          | none => { store with nextTick := nextTick }
          | some entries =>
              let signals := (entries.filterMap parseEntry).foldl
                (fun signals entry => signals.insertOrAssign entry.1 entry.2) store.signals
              { prune { store with signals := signals, nextTick := nextTick } with
                dirty := false }

/-- The constructor of a store bound to a file; the empty path binds it to none. -/
def opened (persistencePath : String) (maxEntries : ℕ) (file : Option JsonValue) :
    AdaptiveSignalStore :=
  load { persistencePath := persistencePath, maxEntries := max 1 maxEntries } file

end AdaptiveSignalStore

/-- A store and the file it is bound to. -/
structure SignalSession where
  store : AdaptiveSignalStore
  file : Option JsonValue

/-- An exposure or a selection of a key, a flush, or the store opened again. -/
inductive SignalEvent where
  | note (key : String) (selection : Bool)
  | flush (outcome : AdaptiveSignalStore.FlushOutcome)
  | reload (maxEntries : ℕ)

namespace SignalSession

/-- A new store with no file yet. -/
def start (persistencePath : String) (maxEntries : ℕ) : SignalSession :=
  ⟨.opened persistencePath maxEntries none, none⟩

def next (session : SignalSession) : SignalEvent → SignalSession
  | .note key selection => { session with store := session.store.noteEvent key selection }
  | .flush outcome =>
      let (_, store, file) := session.store.flush session.file outcome
      ⟨store, file⟩
  | .reload maxEntries =>
      { session with
        store := .opened session.store.persistencePath maxEntries session.file }

def run (session : SignalSession) (events : List SignalEvent) : SignalSession :=
  events.foldl next session

end SignalSession

end LlvmDsdl.LSP
