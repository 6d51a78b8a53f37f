import Mathlib.Data.List.AList
import Mathlib.Data.List.Dedup
import Mathlib.Data.List.Sort
import LlvmDsdl.LSP.JsonRpcIO
import LlvmDsdl.Library.LexicalPath

/-!
Contract: `pruneStaleOutputs`, on a disk whose operations may fail.

Owns: the disk, the prune manifest, the removal of stale outputs and of the
directories they leave empty, and the rewriting of the manifest.

A disk has files and directories and no links. Which names lead to one entry is the
volume's, and the order in which paths of one length are sorted is the library's.
-/

namespace LlvmDsdl.CodeGen

open LlvmDsdl.Library.LexicalPath
open LlvmDsdl.LSP (bytesOf trim lineFeed)

/-- The names that lead to a file from the root of the disk, as the volume reads them. -/
abbrev Location := List Text

inductive Node where
  | file (content : Text)
  | directory
  deriving DecidableEq, Repr

abbrev Disk := AList fun _ : Location => Node

/-- What a path leads to. -/
inductive Kind where
  | absent
  /-- A file stands where the path needs a directory. -/
  | obstructed
  | file (content : Text)
  | directory
  deriving DecidableEq, Repr

def Disk.isFile (disk : Disk) (location : Location) : Bool :=
  match disk.lookup location with
  | some (.file _) => true
  | _ => false

def Disk.obstructed (disk : Disk) (location : Location) : Bool :=
  (List.range location.length).any fun count => Disk.isFile disk (location.take count)

def Disk.kind (disk : Disk) (location : Location) : Kind :=
  if Disk.obstructed disk location then .obstructed
  else
    match disk.lookup location with
    | some (.file content) => .file content
    | some .directory => .directory
    | none => if location = [] then .directory else .absent

def Disk.hasEntries (disk : Disk) (location : Location) : Bool :=
  disk.keys.any fun entry => entry != [] && entry.dropLast == location

/-- What `std::filesystem::remove` does. -/
inductive Removal where
  | removed (disk : Disk)
  | absent
  | refused

def Disk.remove (disk : Disk) (location : Location) (trailing : Bool) : Removal :=
  match Disk.kind disk location with
  | .obstructed => .refused
  | .absent => .absent
  | .file _ => if trailing then .refused else .removed (disk.erase location)
  | .directory =>
      if Disk.hasEntries disk location then .refused else .removed (disk.erase location)

/-- `std::filesystem::is_empty`: a file is empty when nothing is in it. -/
def Disk.isEmpty (disk : Disk) (location : Location) : Option Bool :=
  match Disk.kind disk location with
  | .file content => some (content = [])
  | .directory => some (!Disk.hasEntries disk location)
  | _ => none

def Disk.createDirectory (disk : Disk) (location : Location) : Option Disk :=
  match Disk.kind disk location with
  | .absent => some (disk.insert location .directory)
  | .directory => some disk
  | _ => none

def Disk.createDirectories (disk : Disk) (location : Location) : Option Disk :=
  location.inits.foldlM Disk.createDirectory disk

/-- The disk with the text in the file, if it can be opened. -/
def Disk.write (disk : Disk) (location : Location) (text : Text) : Option Disk :=
  match Disk.kind disk location with
  | .file _ => some (disk.insert location (.file text))
  | .absent =>
      if Disk.kind disk location.dropLast = .directory then
        some (disk.insert location (.file text))
      else none
  | _ => none

/-- The fate of one operation: the process may stop before it. -/
inductive Outcome where
  | done
  | fails
  | stops
  deriving DecidableEq, Repr

inductive Reading where
  | whole
  | unopened
  /-- An error after so many bytes, which is the end of the file to `std::getline`. -/
  | interrupted (count : ℕ)
  deriving DecidableEq, Repr

inductive Writing where
  | whole
  /-- Only so many bytes reach the disk. A failure while the stream is closed goes
  unnoticed. -/
  | cut (count : ℕ) (noticed : Outcome)
  deriving DecidableEq, Repr

/-- The fates of the operations of one run, in their order. -/
structure Schedule where
  reading : Reading
  removals : List Outcome
  directories : List Outcome
  parents : Outcome
  opening : Outcome
  writing : Writing
  deriving DecidableEq, Repr

/-- What the runs into one directory share. -/
structure Setting where
  workingDirectory : List Text
  manifestPath : Text
  outputRoot : Text
  /-- How the volume reads a name: names read alike lead to one entry. -/
  readName : Text → Text
  /-- Longest first, so that a directory comes after everything under it. -/
  deepestFirst : List Path → List Path
  root_absolute : (parse outputRoot).absolute = true
  deepestFirst_perm : ∀ paths, (deepestFirst paths).Perm paths
  deepestFirst_longest : ∀ paths, (deepestFirst paths).Pairwise fun first second =>
    second.text.length ≤ first.text.length

/-- Where a path leads from the working directory. -/
def Setting.locate (setting : Setting) (path : Path) : Location :=
  (if path.absolute then path
    else { path with absolute := true, names := setting.workingDirectory ++ path.names }
  ).lexicallyNormal.names.map setting.readName

def Setting.root (setting : Setting) : Path :=
  parse setting.outputRoot

def Setting.manifest (setting : Setting) : Location :=
  setting.locate (parse setting.manifestPath)

def pruneManifestHeader : Text :=
  bytesOf "# llvm-dsdl prune manifest v1"

/-- What `std::getline` gives. -/
def linesOf (text : Text) : List Text :=
  let pieces := text.splitOn lineFeed
  if pieces.getLast? = some [] then pieces.dropLast else pieces

def Reading.lines (text : Text) : Reading → List Text
  | .whole => linesOf text
  | .unopened => []
  | .interrupted count => linesOf (text.take count)

def manifestEntries : List Text → List Text
  | [] => []
  | first :: rest =>
      if trim first = pruneManifestHeader then (rest.map trim).filter fun line => line != []
      else []

def readPruneManifest (reading : Reading) (disk : Disk) (manifest : Location) : List Text :=
  match Disk.kind disk manifest with
  | .file text => manifestEntries (reading.lines text)
  | _ => []

def renderManifest (current : List Text) : Text :=
  (pruneManifestHeader :: current).flatMap fun line => line ++ [lineFeed]

/-- The bytes that reach the disk. -/
def Writing.text (text : Text) : Writing → Text
  | .whole => text
  | .cut count _ => text.take count

inductive PruneError where
  | outside (path : Path)
  | removal (path : Path)
  | manifestDirectory
  | manifest
  deriving DecidableEq, Repr

/-- What the error says, after the operating system's own words. -/
def PruneError.message (setting : Setting) : PruneError → Text
  | .outside path =>
      bytesOf "prune manifest " ++ setting.manifestPath ++ bytesOf " names " ++ path.text ++
        bytesOf ", which is outside the output directory " ++ setting.outputRoot ++
        bytesOf "; refusing to remove it"
  | .removal path => bytesOf "failed to remove stale output " ++ path.text
  | .manifestDirectory =>
      bytesOf "failed to create prune manifest directory " ++
        (parse setting.manifestPath).parentPath.text
  | .manifest => bytesOf "failed to write prune manifest " ++ setting.manifestPath

inductive Ending where
  | success
  | failed (error : PruneError)
  | stopped
  deriving DecidableEq, Repr

structure PruneReport where
  removedFiles : List Text
  removedDirectories : List Text
  deriving DecidableEq, Repr

structure Pruning where
  disk : Disk
  report : PruneReport
  touchedDirectories : List Path
  /-- How the run ended, if it has. -/
  ending : Option Ending

/-- The outputs of the run, normalised, in the order of a `std::set`. -/
def currentSet (currentOutputs : List Text) : List Text :=
  (currentOutputs.map fun output => (parse output).lexicallyNormal.text).dedup.insertionSort
    (· ≤ ·)

/-- The entries to remove; an entry outside the output directory is refused. -/
def staleOutputs (root : Path) (current : List Text) : List Text → Except PruneError (List Path)
  | [] => .ok []
  | entry :: rest =>
      let path := (parse entry).lexicallyNormal
      if path.text ∈ current then staleOutputs root current rest
      else if isInside root path then (staleOutputs root current rest).map (path :: ·)
      else .error (.outside path)

def removeOne (setting : Setting) (outcome : Outcome) (path : Path) (state : Pruning) : Pruning :=
  match outcome with
  | .stops => { state with ending := some .stopped }
  | .fails => { state with ending := some (.failed (.removal path)) }
  | .done =>
      match Disk.remove state.disk (setting.locate path) path.trailing with
      | .refused => { state with ending := some (.failed (.removal path)) }
      | .absent =>
          { state with touchedDirectories := state.touchedDirectories.insert path.parentPath }
      | .removed disk =>
          { state with
            disk := disk
            report.removedFiles := state.report.removedFiles ++ [path.text]
            touchedDirectories := state.touchedDirectories.insert path.parentPath }

def removeStale (setting : Setting) : List Outcome → List Path → Pruning → Pruning
  | _, [], state => state
  | outcomes, path :: rest, state =>
      let next := removeOne setting (outcomes.headD .done) path state
      if next.ending.isSome then next else removeStale setting outcomes.tail rest next

/-- How far the candidates can still lead up. -/
def climb (candidates : List Path) : ℕ :=
  (candidates.map fun path =>
    2 * path.names.length + (if path.trailing then 1 else 0) + 1).sum

theorem climb_parentPath {path : Path} (named : path.names ≠ []) (rest : List Path) :
    climb (rest ++ [path.parentPath]) < climb (path :: rest) := by
  have longer := List.length_pos_iff.mpr named
  simp only [climb, List.map_append, List.sum_append, List.map_cons, List.sum_cons, List.map_nil,
    List.sum_nil]
  unfold Path.parentPath
  split
  · simp
    omega
  · simp
    omega

/-- Bottom-up: removing a leaf may empty its parent, which may empty its parent. -/
def removeEmptied (setting : Setting) : List Outcome → List Path → Pruning → Pruning
  | _, [], state => state
  | outcomes, directory :: rest, state =>
      if _inside : isInside setting.root directory then
        match outcomes.headD .done with
        | .stops => { state with ending := some .stopped }
        | .fails => removeEmptied setting outcomes.tail rest state
        | .done =>
            if Disk.isEmpty state.disk (setting.locate directory) = some true then
              match Disk.remove state.disk (setting.locate directory) directory.trailing with
              | .removed disk =>
                  removeEmptied setting outcomes.tail (rest ++ [directory.parentPath])
                    { state with
                      disk := disk
                      report.removedDirectories :=
                        state.report.removedDirectories ++ [directory.text] }
              | _ => removeEmptied setting outcomes.tail rest state
            else removeEmptied setting outcomes.tail rest state
      else removeEmptied setting outcomes rest state
  termination_by _ candidates => climb candidates
  decreasing_by
    · simp [climb]
    · exact climb_parentPath (isInside_names_ne_nil _inside) rest
    · simp [climb]
    · simp [climb]
    · simp [climb]

structure PruneResult where
  disk : Disk
  report : PruneReport
  ending : Ending

def Pruning.result (state : Pruning) (ending : Ending) : PruneResult :=
  ⟨state.disk, state.report, ending⟩

/-- Opening the manifest empties it; the lines come after. -/
def writeManifest (setting : Setting) (schedule : Schedule) (current : List Text)
    (state : Pruning) : PruneResult :=
  match schedule.opening with
  | .stops => state.result .stopped
  | .fails => state.result (.failed .manifest)
  | .done =>
      match Disk.write state.disk setting.manifest
        (schedule.writing.text (renderManifest current)) with
      | none => state.result (.failed .manifest)
      | some disk =>
          { disk := disk
            report := state.report
            ending :=
              match schedule.writing with
              | .cut _ .fails => .failed .manifest
              | .cut _ .stops => .stopped
              | _ => .success }

def rewriteManifest (setting : Setting) (schedule : Schedule) (current : List Text)
    (state : Pruning) : PruneResult :=
  let parent := (parse setting.manifestPath).parentPath
  if parent.text = [] then writeManifest setting schedule current state
  else
    match schedule.parents with
    | .stops => state.result .stopped
    | .fails => state.result (.failed .manifestDirectory)
    | .done =>
        match Disk.createDirectories state.disk (setting.locate parent) with
        | none => state.result (.failed .manifestDirectory)
        | some disk => writeManifest setting schedule current { state with disk := disk }

/-- The run removes what the manifest names and it did not produce, then rewrites
the manifest. -/
def pruneStaleOutputs (setting : Setting) (schedule : Schedule) (disk : Disk)
    (currentOutputs : List Text) : PruneResult :=
  let previous := readPruneManifest schedule.reading disk setting.manifest
  let current := currentSet currentOutputs
  match staleOutputs setting.root current previous with
  | .error error => ⟨disk, ⟨[], []⟩, .failed error⟩
  | .ok stale =>
      let removed := removeStale setting schedule.removals (setting.deepestFirst stale)
        ⟨disk, ⟨[], []⟩, [], none⟩
      match removed.ending with
      | some ending => removed.result ending
      | none =>
          let emptied := removeEmptied setting schedule.directories
            (setting.deepestFirst removed.touchedDirectories) removed
          match emptied.ending with
          | some ending => emptied.result ending
          | none => rewriteManifest setting schedule current emptied

end LlvmDsdl.CodeGen
