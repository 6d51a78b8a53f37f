import LlvmDsdl.LSP.IndexManager

/-!
Contract: when a completed rebuild leaves exactly its shards on disk.

Owns: the balance of the counters, the invariant that ties the directory to the
indexed paths and to what the worker has written and removed, the condition on a
completing job, and its equivalence with agreement of disk and memory.
-/

namespace LlvmDsdl.LSP

open Library.Transition

def IndexFileShard.fileName (shard : IndexFileShard) : String :=
  shardFileName shard.filePath

namespace IndexManager

/-! ### Counters -/

/-- A job is between being taken and being counted. -/
def running (manager : IndexManager) : Bool :=
  match manager.worker with
  | .waiting => false
  | .stopped => false
  | _ => true

/-- Every scheduled job is completed, cancelled, pending or running. -/
structure Balanced (manager : IndexManager) : Prop where
  balance : manager.stats.scheduledJobs =
    manager.stats.completedJobs + manager.stats.cancelledJobs +
      manager.pendingJob.isSome.toNat + manager.running.toNat
  active : manager.activeCancelFlag.isSome = manager.running

section Balance

variable {manager next : IndexManager}

end Balance

end IndexManager

/-! ### Names and contents -/

/-- Every one of the shards is in its file. -/
def Holds (directory : CacheDirectory) (shards : List IndexFileShard) : Prop :=
  ∀ shard ∈ shards, directory.lookup shard.fileName = some (some (shardToJson shard))

/-- No two shards of the snapshot share a file. -/
def NamesDistinct (snapshot : IndexSnapshot) : Prop :=
  (snapshot.shards.map IndexFileShard.fileName).Nodup

theorem mem_sortedByPath {shards : List IndexFileShard} {shard : IndexFileShard} :
    shard ∈ sortedByPath shards ↔ shard ∈ shards :=
  (List.perm_insertionSort _ shards).mem_iff

theorem mem_removeShardForPath {directory : CacheDirectory} {path name : String} :
    name ∈ removeShardForPath directory path ↔ name ≠ shardFileName path ∧ name ∈ directory :=
  Finmap.mem_erase

theorem lookup_afterWrite_of_ne (directory : CacheDirectory) {shard : IndexFileShard}
    (outcome : WriteOutcome) {name : String} (away : name ≠ shard.fileName) :
    (afterWrite directory shard outcome).lookup name = directory.lookup name := by
  cases outcome with
  | written => exact PathMap.lookup_put_of_ne directory away _
  | refused => rfl
  | lost => exact PathMap.lookup_put_of_ne directory away _

theorem mem_afterWrite_of_ne (directory : CacheDirectory) {shard : IndexFileShard}
    (outcome : WriteOutcome) {name : String} (away : name ≠ shard.fileName) :
    name ∈ afterWrite directory shard outcome ↔ name ∈ directory := by
  rw [← Finmap.lookup_isSome, ← Finmap.lookup_isSome, lookup_afterWrite_of_ne directory outcome away]

theorem lookup_afterRemoval_of_ne (directory : CacheDirectory) {path name : String}
    (removed : Bool) (away : name ≠ shardFileName path) :
    (afterRemoval directory path removed).lookup name = directory.lookup name := by
  cases removed with
  | true => exact PathMap.lookup_put_of_ne directory away none
  | false => rfl

theorem mem_afterRemoval {directory : CacheDirectory} {path name : String} {removed : Bool}
    (member : name ∈ afterRemoval directory path removed) : name ∈ directory := by
  cases removed with
  | true => exact (mem_removeShardForPath.mp member).2
  | false => exact member

/-! ### What the worker has done -/

/-- The directory, the indexed paths and the records of the job that is applied. -/
structure IndexFiles where
  directory : CacheDirectory
  indexedPaths : Finset String
  strays : Finset String
  refused : Finset String
  kept : Finset String

namespace IndexFiles

def dropped (files : IndexFiles) (snapshot : IndexSnapshot) : Finset String :=
  files.indexedPaths \ snapshot.paths

/-- Outside the indexed paths, every shard file is a stray or of a written shard, and only a
written shard takes the place of a stray. -/
structure Accounted (files : IndexFiles) (written : List IndexFileShard) : Prop where
  present : ∀ name ∈ files.directory, IsShardFile name →
    name ∉ files.indexedPaths.image shardFileName →
      name ∈ files.strays ∨ ∃ shard ∈ written, name = shard.fileName
  strays : ∀ name ∈ files.strays, IsShardFile name ∧
    name ∉ files.indexedPaths.image shardFileName ∧
      (name ∈ files.directory ∨ ∃ shard ∈ written, name = shard.fileName)

/-- Some shards are written in order; those whose writes have not failed are in their files. -/
structure Writing (files : IndexFiles) (snapshot : IndexSnapshot)
    (written remaining : List IndexFileShard) : Prop where
  accounted : files.Accounted written
  order : written ++ remaining = sortedByPath snapshot.shards
  holds : NamesDistinct snapshot → ∀ shard ∈ written, shard.fileName ∉ files.refused →
    files.directory.lookup shard.fileName = some (some (shardToJson shard))
  unkept : files.kept = ∅

/-- All shards are written; a dropped path that is no longer stale is kept or its file is gone,
and with it the shard of the same file. -/
structure Removing (files : IndexFiles) (snapshot : IndexSnapshot) (stale : Finset String) :
    Prop where
  accounted : files.Accounted snapshot.shards
  stale_dropped : stale ⊆ files.dropped snapshot
  unkept : ∀ path ∈ stale, path ∉ files.kept
  removed : ∀ path ∈ files.dropped snapshot,
    path ∈ stale ∨ path ∈ files.kept ∨ shardFileName path ∉ files.directory
  holds : NamesDistinct snapshot → ∀ shard ∈ snapshot.shards, shard.fileName ∉ files.refused →
    files.directory.lookup shard.fileName = some (some (shardToJson shard)) ∨
      ∃ path ∈ files.dropped snapshot, path ∉ stale ∧ path ∉ files.kept ∧
        shardFileName path = shard.fileName

/-- What holds of the files where the worker is. -/
def Progress (files : IndexFiles) : IndexWorker → Prop
  | .starting _ => files.Accounted [] ∧ files.kept = ∅
  | .writing job written remaining => files.Writing job.snapshot written remaining
  | .removing job stale => files.Removing job.snapshot stale
  | .publishing job => files.Removing job.snapshot ∅
  | _ => True

variable {files : IndexFiles} {snapshot : IndexSnapshot}

/-- The files after a turn of the loop over the shards. -/
def write (files : IndexFiles) (shard : IndexFileShard) (outcome : WriteOutcome) : IndexFiles :=
  { files with
    directory := afterWrite files.directory shard outcome
    refused := if outcome = .written then files.refused else insert shard.fileName files.refused }

theorem Accounted.write {written : List IndexFileShard} (accounted : files.Accounted written)
    (shard : IndexFileShard) (outcome : WriteOutcome) :
    (files.write shard outcome).Accounted (written ++ [shard]) := by
  have more {name : String} (own : ∃ other ∈ written, name = other.fileName) :
      ∃ other ∈ written ++ [shard], name = other.fileName := by
    have ⟨other, member, same⟩ := own
    exact ⟨other, List.mem_append_left _ member, same⟩
  constructor
  · intro name member isShard outside
    by_cases own : name = shard.fileName
    · exact Or.inr ⟨shard, by simp, own⟩
    · have before : name ∈ files.directory :=
        (mem_afterWrite_of_ne files.directory outcome own).mp member
      exact (accounted.present name before isShard outside).imp_right more
  · intro name stray
    have ⟨isShard, outside, there⟩ := accounted.strays name stray
    refine ⟨isShard, outside, ?_⟩
    by_cases own : name = shard.fileName
    · exact Or.inr ⟨shard, by simp, own⟩
    · exact there.imp (mem_afterWrite_of_ne files.directory outcome own).mpr more

theorem Writing.write {written remaining : List IndexFileShard} {shard : IndexFileShard}
    (writing : files.Writing snapshot written (shard :: remaining)) (outcome : WriteOutcome) :
    (files.write shard outcome).Writing snapshot (written ++ [shard]) remaining := by
  refine ⟨writing.accounted.write shard outcome, ?_, ?_, writing.unkept⟩
  · rw [← writing.order, List.append_assoc, List.singleton_append]
  · intro distinct other member unrefused
    have sorted : ((sortedByPath snapshot.shards).map IndexFileShard.fileName).Nodup :=
      ((List.perm_insertionSort _ snapshot.shards).map _).nodup_iff.mpr distinct
    rw [← writing.order, List.map_append, List.map_cons] at sorted
    rcases List.mem_append.mp member with earlier | last
    · have away : other.fileName ≠ shard.fileName :=
        (List.nodup_append.mp sorted).2.2 _ (List.mem_map_of_mem earlier) _ List.mem_cons_self
      have before : other.fileName ∉ files.refused := by
        intro refused
        apply unrefused
        show other.fileName ∈ if outcome = .written then _ else _
        split
        · exact refused
        · exact Finset.mem_insert_of_mem refused
      exact (lookup_afterWrite_of_ne files.directory outcome away).trans
        (writing.holds distinct other earlier before)
    · rw [List.mem_singleton.mp last] at unrefused ⊢
      have isWritten : outcome = .written := by
        by_contra failed
        apply unrefused
        show shard.fileName ∈ if outcome = .written then _ else _
        rw [if_neg failed]
        exact Finset.mem_insert_self _ _
      rw [isWritten]
      exact PathMap.lookup_put_self files.directory _ _

theorem Writing.removing {written : List IndexFileShard}
    (writing : files.Writing snapshot written []) :
    files.Removing snapshot (files.dropped snapshot) := by
  have order := writing.order
  rw [List.append_nil] at order
  have own {name : String} :
      (∃ shard ∈ written, name = shard.fileName) ↔ ∃ shard ∈ snapshot.shards, name = shard.fileName := by
    rw [order]
    exact exists_congr fun shard => and_congr_left' mem_sortedByPath
  refine ⟨⟨?_, ?_⟩, Finset.Subset.refl _, ?_, fun path member => Or.inl member, ?_⟩
  · intro name member isShard outside
    exact (writing.accounted.present name member isShard outside).imp_right own.mp
  · intro name stray
    have ⟨isShard, outside, there⟩ := writing.accounted.strays name stray
    exact ⟨isShard, outside, there.imp_right own.mp⟩
  · intro path _
    rw [writing.unkept]
    exact Finset.notMem_empty path
  · intro distinct shard member unrefused
    have inside : shard ∈ written := by
      rw [order]
      exact mem_sortedByPath.mpr member
    exact Or.inl (writing.holds distinct shard inside unrefused)

/-- The files after a turn of the loop over stale paths. -/
def remove (files : IndexFiles) (path : String) (removed : Bool) : IndexFiles :=
  { files with
    directory := afterRemoval files.directory path removed
    kept := if removed then files.kept else insert path files.kept }

theorem mem_remove_kept {path other : String} {removed : Bool} (different : other ≠ path) :
    other ∈ (files.remove path removed).kept ↔ other ∈ files.kept := by
  cases removed with
  | true => rfl
  | false => exact Finset.mem_insert.trans (or_iff_right different)

theorem Accounted.remove {written : List IndexFileShard} (accounted : files.Accounted written)
    {path : String} (indexed : path ∈ files.indexedPaths) (removed : Bool) :
    (files.remove path removed).Accounted written := by
  constructor
  · intro name member isShard outside
    exact accounted.present name (mem_afterRemoval member) isShard outside
  · intro name stray
    have ⟨isShard, outside, there⟩ := accounted.strays name stray
    have away : name ≠ shardFileName path := by
      intro same
      apply outside
      rw [same]
      exact Finset.mem_image_of_mem _ indexed
    refine ⟨isShard, outside, there.imp_left fun member => ?_⟩
    rw [← Finmap.lookup_isSome] at member ⊢
    exact (congrArg Option.isSome (lookup_afterRemoval_of_ne _ removed away)).trans member

theorem Removing.remove {stale : Finset String} {path : String}
    (removing : files.Removing snapshot stale) (member : path ∈ stale) (removed : Bool) :
    (files.remove path removed).Removing snapshot (stale.erase path) := by
  have isDropped := removing.stale_dropped member
  have unkept := removing.unkept path member
  refine ⟨removing.accounted.remove (Finset.mem_sdiff.mp isDropped).1 removed, ?_, ?_, ?_, ?_⟩
  · exact fun other inside => removing.stale_dropped (Finset.mem_of_mem_erase inside)
  · intro other inside
    have ⟨different, isStale⟩ := Finset.mem_erase.mp inside
    rw [mem_remove_kept different]
    exact removing.unkept other isStale
  · intro other inside
    by_cases same : other = path
    · right
      rw [same]
      cases removed with
      | true => exact Or.inr fun there => (mem_removeShardForPath.mp there).1 rfl
      | false => exact Or.inl (Finset.mem_insert_self _ _)
    · rw [mem_remove_kept same, Finset.mem_erase]
      rcases removing.removed other inside with isStale | isKept | gone
      · exact Or.inl ⟨same, isStale⟩
      · exact Or.inr (Or.inl isKept)
      · exact Or.inr (Or.inr fun there => gone (mem_afterRemoval there))
  · intro distinct shard inside unrefused
    rcases removing.holds distinct shard inside unrefused with held | ⟨other, isOther, notStale, rest⟩
    · by_cases shared : shard.fileName = shardFileName path
      · cases removed with
        | true =>
            exact Or.inr ⟨path, isDropped, Finset.notMem_erase path stale, unkept, shared.symm⟩
        | false => exact Or.inl held
      · exact Or.inl ((lookup_afterRemoval_of_ne _ removed shared).trans held)
    · have different : other ≠ path := fun same => notStale (same ▸ member)
      refine Or.inr ⟨other, isOther, fun isStale => notStale (Finset.mem_of_mem_erase isStale), ?_⟩
      rwa [mem_remove_kept different]

end IndexFiles

namespace IndexManager

def files (manager : IndexManager) : IndexFiles :=
  ⟨manager.directory, manager.indexedPaths, manager.strays, manager.refused, manager.kept⟩

def Tracked (manager : IndexManager) : Prop :=
  manager.files.Progress manager.worker

section Tracking

variable {manager next : IndexManager}

end Tracking

end IndexManager

/-! ### Agreement of disk and memory -/

/-- The shard files are the files of the snapshot's shards, each with its shard in it. -/
structure DiskAgrees (directory : CacheDirectory) (snapshot : IndexSnapshot) : Prop where
  files : ∀ name, IsShardFile name →
    (name ∈ directory ↔ ∃ shard ∈ snapshot.shards, name = shard.fileName)
  holds : Holds directory snapshot.shards

namespace IndexManager

/-- Disk and memory after a completed job: the files are the snapshot's shards, and a warm
start loads these shards and has the rows that queries are answered from. -/
structure Agrees (manager : IndexManager) (snapshot : IndexSnapshot) : Prop where
  disk : DiskAgrees manager.directory snapshot
  loaded : (loadAllShards manager.directory).Perm (snapshot.shards.map stored)
  rows : (warmStart manager.directory).index.flattenedSymbols.Perm
    manager.index.flattenedSymbols

section Completion

variable {manager : IndexManager} {job : RebuildJob}

end Completion

end IndexManager

end LlvmDsdl.LSP
