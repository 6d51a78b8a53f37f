import LlvmDsdl.LSP.IndexStorage
import LlvmDsdl.Library.Transition

/-!
Contract: the index manager, its callers and its worker thread interleaved.

Owns: rebuild jobs, the manager's state with its counters, one step for each
critical section and each check of the worker, and the warm start.

The worker alone touches the directory and the index, and it reads the cancel flag
just before each write or removal. A write or a removal may fail, and the worker goes
on. Repair, which replaces the index by a fresh load, is modelled up to its cancelling
of the jobs.
-/

namespace LlvmDsdl.LSP

/-- The shards of one analysis run: one for each path, and a version that the run counts up to. -/
structure IndexSnapshot where
  shards : List IndexFileShard
  distinct : (shards.map IndexFileShard.filePath).Nodup
  versions_fit : ∀ shard ∈ shards, shard.metadata.snapshotVersion.toNat < 2 ^ 63
deriving DecidableEq

def IndexSnapshot.paths (snapshot : IndexSnapshot) : Finset String :=
  (snapshot.shards.map IndexFileShard.filePath).toFinset

/-- A job; a pending one that is replaced or shut down has its flag set. -/
structure RebuildJob where
  snapshotVersion : UInt64
  snapshot : IndexSnapshot
  cancelled : Bool := false
deriving DecidableEq

structure IndexManagerStats where
  scheduledJobs : ℕ := 0
  completedJobs : ℕ := 0
  cancelledJobs : ℕ := 0
  lastCompletedSnapshotVersion : UInt64 := 0
  indexedFileCount : ℕ := 0
  indexedSymbolCount : ℕ := 0
  warmStartLoaded : Bool := false

/-- Where the worker is in its loop and in `applyJob`. -/
inductive IndexWorker where
  | waiting
  /-- The job is taken; its flag has not been looked at. -/
  | starting (job : RebuildJob)
  | writing (job : RebuildJob) (written remaining : List IndexFileShard)
  /-- Stale paths are left to remove, in no particular order. -/
  | removing (job : RebuildJob) (stale : Finset String)
  /-- Past the last check of the flag. -/
  | publishing (job : RebuildJob)
  | leaving (job : RebuildJob) (completed : Bool)
  | stopped
deriving DecidableEq

/-- The manager. The flag of the job being applied is the one `activeCancelFlag` holds. Three
records are of no use to the code: `strays` has the shard files that no indexed path accounts for
when a job is taken, `refused` the files that the job's writes have failed for, and `kept` the
paths that its removals have failed for. -/
structure IndexManager where
  directory : CacheDirectory
  index : WorkspaceIndex
  indexedPaths : Finset String
  pendingJob : Option RebuildJob := none
  activeCancelFlag : Option Bool := none
  stats : IndexManagerStats := {}
  stopping : Bool := false
  worker : IndexWorker := .waiting
  strays : Finset String := ∅
  refused : Finset String := ∅
  kept : Finset String := ∅

/-- The shard files whose name is that of none of `paths`. -/
def strayFiles (directory : CacheDirectory) (paths : Finset String) : Finset String :=
  directory.keys.filter fun name => IsShardFile name ∧ name ∉ paths.image shardFileName

namespace IndexManager

/-- The manager as constructed over a directory. -/
def warmStart (directory : CacheDirectory) : IndexManager :=
  let index := WorkspaceIndex.replaceAll (loadAllShards directory)
  let indexedPaths := index.indexedPaths.toFinset
  { directory := directory
    index := index
    indexedPaths := indexedPaths
    stats :=
      { indexedFileCount := index.fileCount
        indexedSymbolCount := index.symbolCount
        warmStartLoaded := decide (0 < index.fileCount) } }

/-- A store into the flag of the job being applied, if there is one. -/
def cancelActive (manager : IndexManager) : IndexManager :=
  { manager with activeCancelFlag := manager.activeCancelFlag.map fun _ => true }

def countPending (manager : IndexManager) : IndexManager :=
  if manager.pendingJob.isSome then
    { manager with
      stats := { manager.stats with cancelledJobs := manager.stats.cancelledJobs + 1 } }
  else manager

def scheduleRebuild (manager : IndexManager) (snapshotVersion : UInt64)
    (snapshot : IndexSnapshot) : IndexManager :=
  let counted := manager.countPending.cancelActive
  { counted with
    pendingJob := some { snapshotVersion := snapshotVersion, snapshot := snapshot }
    stats := { counted.stats with scheduledJobs := counted.stats.scheduledJobs + 1 } }

/-- The first critical section of `waitForIdle`. -/
def cancelJobs (manager : IndexManager) : IndexManager :=
  { manager.countPending.cancelActive with pendingJob := none }

/-- The critical section of `shutdown`; the caller then joins the worker. -/
def shutdown (manager : IndexManager) : IndexManager :=
  if manager.stopping then manager
  else
    { manager.cancelActive with
      stopping := true
      pendingJob := manager.pendingJob.map fun job => { job with cancelled := true } }

def cancelled (manager : IndexManager) : Bool :=
  manager.activeCancelFlag.getD false

/-- `applyJob` answers false; what it wrote stays on disk. -/
def abandon (manager : IndexManager) (job : RebuildJob) : IndexManager :=
  { manager with worker := .leaving job false }

/-- The critical section that takes the pending job. -/
def take (manager : IndexManager) : IndexManager :=
  if manager.stopping then { manager with worker := .stopped }
  else
    match manager.pendingJob with
    | none => manager
    | some job =>
        { manager with
          pendingJob := none
          activeCancelFlag := some job.cancelled
          worker := .starting job
          strays := strayFiles manager.directory manager.indexedPaths
          refused := ∅
          kept := ∅ }

/-- The end of `applyJob`: the snapshot becomes the index. -/
def publish (manager : IndexManager) (job : RebuildJob) : IndexManager :=
  { manager with
    index := WorkspaceIndex.replaceAll (sortedByPath job.snapshot.shards)
    indexedPaths := job.snapshot.paths
    worker := .leaving job true }

/-- The critical section that counts the job. -/
def leave (manager : IndexManager) (job : RebuildJob) (completed : Bool) : IndexManager :=
  { manager with
    activeCancelFlag := none
    worker := .waiting
    stats :=
      if completed then
        { manager.stats with
          completedJobs := manager.stats.completedJobs + 1
          lastCompletedSnapshotVersion := job.snapshotVersion
          indexedFileCount := manager.index.fileCount
          indexedSymbolCount := manager.index.symbolCount }
      else { manager.stats with cancelledJobs := manager.stats.cancelledJobs + 1 } }

/-- The worker's next step, the turns of its two loops apart. -/
def work (manager : IndexManager) : Option IndexManager :=
  match manager.worker with
  | .waiting => some manager.take
  | .starting job =>
      some (if manager.cancelled then manager.abandon job
        else { manager with worker := .writing job [] (sortedByPath job.snapshot.shards) })
  | .writing _ _ (_ :: _) => none
  | .writing job _ [] =>
      some (if manager.cancelled then manager.abandon job
        else { manager with worker := .removing job (manager.indexedPaths \ job.snapshot.paths) })
  | .removing job stale =>
      if stale = ∅ then
        some (if manager.cancelled then manager.abandon job
          else { manager with worker := .publishing job })
      else none
  | .publishing job => some (manager.publish job)
  | .leaving job completed => some (manager.leave job completed)
  | .stopped => none

/-- One turn of the loop over the shards, whose write ends in one way or another. -/
def writeNext (manager : IndexManager) (outcome : WriteOutcome) : Option IndexManager :=
  match manager.worker with
  | .writing job written (shard :: remaining) =>
      some (if manager.cancelled then manager.abandon job
        else
          { manager with
            directory := afterWrite manager.directory shard outcome
            worker := .writing job (written ++ [shard]) remaining
            refused := if outcome = .written then manager.refused
              else insert (shardFileName shard.filePath) manager.refused })
  | _ => none

/-- One turn of the loop over stale paths, whose removal may fail. -/
def removeStale (manager : IndexManager) (path : String) (removed : Bool) : Option IndexManager :=
  match manager.worker with
  | .removing job stale =>
      if path ∈ stale then
        some (if manager.cancelled then manager.abandon job
          else
            { manager with
              directory := afterRemoval manager.directory path removed
              worker := .removing job (stale.erase path)
              kept := if removed then manager.kept else insert path manager.kept })
      else none
  | _ => none

inductive Event where
  | scheduleRebuild (snapshotVersion : UInt64) (snapshot : IndexSnapshot)
  | cancelJobs
  | shutdown
  | work
  | writeNext (outcome : WriteOutcome)
  | removeStale (path : String) (removed : Bool)

def step (manager : IndexManager) : Event → Option IndexManager
  | .scheduleRebuild snapshotVersion snapshot =>
      some (manager.scheduleRebuild snapshotVersion snapshot)
  | .cancelJobs => some manager.cancelJobs
  | .shutdown => some manager.shutdown
  | .work => manager.work
  | .writeNext outcome => manager.writeNext outcome
  | .removeStale path removed => manager.removeStale path removed

end IndexManager

end LlvmDsdl.LSP
