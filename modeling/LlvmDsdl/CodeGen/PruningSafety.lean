import LlvmDsdl.CodeGen.PruningSteps

/-!
Contract: pruning over the runs into one output directory, any of which may break off.

Owns: the runs and what they put on record, what is safe about a run, the runs
that read and write the manifest whole, and the runs that lose a recorded file or
remove an output of their own.
-/

namespace LlvmDsdl.CodeGen

open LlvmDsdl.Library.LexicalPath
open LlvmDsdl.LSP (bytesOf trim lineFeed)

/-- An output as the writers record it: the absolute path of a file. -/
structure Output where
  text : Text
  absolute : (parse text).absolute = true
  named : (parse text).lexicallyNormal.trailing = false

def Output.path (output : Output) : Path :=
  (parse output.text).lexicallyNormal

def Output.location (setting : Setting) (output : Output) : Location :=
  setting.locate output.path

def Output.entry (output : Output) : Text :=
  output.path.text

/-- One run, from the moment its outputs are on the disk. -/
structure Run where
  outputs : List Output
  schedule : Schedule
  start : Disk

variable {setting : Setting}

def Run.texts (run : Run) : List Text :=
  run.outputs.map Output.text

def Run.finish (setting : Setting) (run : Run) : Disk :=
  (pruneStaleOutputs setting run.schedule run.start run.texts).disk

def Run.current (setting : Setting) (run : Run) : Set Location :=
  {location | ∃ output ∈ run.outputs, output.location setting = location}

def Run.previous (setting : Setting) (run : Run) : List Text :=
  readPruneManifest run.schedule.reading run.start setting.manifest

def listed (setting : Setting) (disk : Disk) : Set Location :=
  {location | ∃ entry ∈ listedEntries setting disk, setting.locate (parse entry) = location}

def Run.Records (setting : Setting) (run : Run) (location : Location) : Prop :=
  location ∈ run.current setting ∧ location ∈ listed setting (run.finish setting)

/-- Runs, the latest first, and the disk they leave. Between two runs the disk may
change in any way that leaves the manifest alone. -/
inductive Reached (setting : Setting) : List Run → Disk → Prop
  | fresh (disk : Disk) (absent : Disk.isFile disk setting.manifest = false) :
      Reached setting [] disk
  | run {earlier : List Run} {disk : Disk} (run : Run) (before : Reached setting earlier disk)
      (kept : run.start.lookup setting.manifest = disk.lookup setting.manifest) :
      Reached setting (run :: earlier) (run.finish setting)

def Below (setting : Setting) (location : Location) : Prop :=
  ∃ names, names ≠ [] ∧ location = setting.locate setting.root ++ names

/-- The file is there at the start of pruning and not at its end. -/
def Run.Removes (setting : Setting) (run : Run) (location : Location) : Prop :=
  Disk.isFile run.start location = true ∧ Disk.isFile (run.finish setting) location ≠ true

/-- A run recorded the file, and it has been there after every run since. -/
def Tracked (setting : Setting) (location : Location) : List Run → Prop
  | [] => False
  | run :: earlier =>
      Disk.isFile (run.finish setting) location = true ∧
        (run.Records setting location ∨ Tracked setting location earlier)

/-- The latest run removes only what it may, and keeps the rest on record. -/
structure SafeRun (setting : Setting) (run : Run) (earlier : List Run) : Prop where
  inside : ∀ location, run.Removes setting location → Below setting location
  others : ∀ location, run.Removes setting location → location ∉ run.current setting
  recorded : ∀ location, run.Removes setting location →
    ∃ past ∈ earlier, past.Records setting location
  kept : ∀ location, Tracked setting location (run :: earlier) →
    location ∉ run.current setting → location ∈ listed setting (run.finish setting)

def Safe (setting : Setting) : List Run → Prop
  | [] => True
  | run :: earlier => SafeRun setting run earlier ∧ Safe setting earlier

def Run.NamesAlike (setting : Setting) (run : Run) : Prop :=
  ∀ entry ∈ run.previous setting, (parse entry).absolute = true → ∀ output ∈ run.outputs,
    setting.locate (parse entry) = output.location setting →
      (parse entry).lexicallyNormal.names = output.path.names

/-- The manifest keeps the names of the outputs, a run reads nothing that it does not list, and
one that comes to rewrite it has read all it lists and writes it to its end. -/
structure Run.Meets (setting : Setting) (run : Run) : Prop where
  lines : ∀ output ∈ run.outputs, IsLine output.entry
  apart : ∀ output ∈ run.outputs, output.location setting ≠ setting.manifest
  named : run.NamesAlike setting
  read : run.previous setting ⊆ listedEntries setting run.start
  complete : run.schedule.Rewrites setting →
    run.previous setting = listedEntries setting run.start
  written : run.schedule.Rewrites setting →
    run.schedule.writing.text (renderManifest (currentSet run.texts)) =
      renderManifest (currentSet run.texts)

theorem Output.resolved (output : Output) : output.path.Resolved :=
  resolved_lexicallyNormal (lawful_parse output.text) output.absolute

theorem Output.parse_entry (output : Output) : parse output.entry = output.path :=
  parse_text output.resolved.toLawful

theorem Output.normal_entry (output : Output) :
    (parse output.entry).lexicallyNormal = output.path := by
  rw [output.parse_entry, output.resolved.lexicallyNormal_eq]

theorem Output.locate_entry (output : Output) :
    setting.locate (parse output.entry) = output.location setting := by
  rw [output.parse_entry]
  rfl

theorem mem_current_texts {run : Run} {entry : Text} :
    entry ∈ currentSet run.texts ↔ ∃ output ∈ run.outputs, output.entry = entry := by
  rw [mem_currentSet, Run.texts]
  simp only [List.mem_map, exists_exists_and_eq_and]
  rfl

/-- On a volume that reads no two names alike, a file has one name. -/
theorem namesAlike_of_injective (apart : Function.Injective setting.readName) (run : Run) :
    run.NamesAlike setting := by
  intro entry _ absolute output _ located
  rw [Output.location, Setting.locate, if_pos absolute, locate_resolved setting output.resolved]
    at located
  exact List.map_injective_iff.mpr apart located

theorem removes_stale {run : Run} {location : Location} (removes : run.Removes setting location) :
    ∃ path, StalePath setting run.schedule run.start run.texts path ∧ path.trailing = false ∧
      setting.locate path = location := by
  obtain ⟨there, gone⟩ := removes
  rcases pruneStaleOutputs_cases setting run.schedule run.start run.texts with
    prunes | ⟨_, ⟨middle, prunes, written⟩, _⟩
  · exact prunes.removed there gone
  · refine prunes.removed there fun still => gone ?_
    obtain ⟨content, found⟩ := isFile_iff.mp still
    rw [Run.finish, written, isFile_iff]
    by_cases same : location = setting.manifest
    · rw [same, AList.lookup_insert]
      exact ⟨_, rfl⟩
    · exact ⟨content, by rw [AList.lookup_insert_ne same, found]⟩

theorem removes_inside {run : Run} {location : Location}
    (removes : run.Removes setting location) : Below setting location := by
  obtain ⟨path, ⟨resolved, inside, _⟩, _, rfl⟩ := removes_stale removes
  obtain ⟨_, names, nonempty, below⟩ := isInside_below (lawful_parse setting.outputRoot)
    resolved.toLawful setting.root_absolute inside
  rw [resolved.lexicallyNormal_eq] at below
  refine ⟨names.map setting.readName, by simpa using nonempty, ?_⟩
  have root : setting.root.absolute = true := setting.root_absolute
  rw [locate_resolved setting resolved, below, List.map_append, Setting.locate, if_pos root]
  rfl

theorem removes_others {run : Run} (named : run.NamesAlike setting) {location : Location}
    (removes : run.Removes setting location) : location ∉ run.current setting := by
  obtain ⟨path, ⟨resolved, _, absent, entry, read, rfl⟩, closed, located⟩ := removes_stale removes
  rintro ⟨output, member, placed⟩
  have absolute : (parse entry).absolute = true :=
    (lexicallyNormal_absolute _).symm.trans resolved.absolute
  have alike : setting.locate (parse entry) = output.location setting := by
    rw [placed, ← located, locate_resolved setting resolved, Setting.locate, if_pos absolute]
  have same : (parse entry).lexicallyNormal = output.path := by
    ext1
    · rw [resolved.absolute, output.resolved.absolute]
    · exact named entry read absolute output member alike
    · rw [closed]
      exact output.named.symm
  exact absent (mem_current_texts.mpr ⟨output, member, by rw [same, Output.entry]⟩)

/-- Each entry is an output that a run of the history put on record. -/
def Recorded (setting : Setting) (history : List Run) (disk : Disk) : Prop :=
  ∀ entry ∈ listedEntries setting disk, ∃ past ∈ history, ∃ output ∈ past.outputs,
    output.entry = entry ∧ past.Records setting (output.location setting)

theorem listed_rewritten {run : Run} (meets : run.Meets setting)
    (rewrites : run.schedule.Rewrites setting)
    {removable : Set Location}
    (rewritten : Rewritten setting removable
      (run.schedule.writing.text (renderManifest (currentSet run.texts))) run.start
        (run.finish setting)) :
    listedEntries setting (run.finish setting) = currentSet run.texts := by
  obtain ⟨middle, _, written⟩ := rewritten
  rw [written, listedEntries, AList.lookup_insert]
  dsimp only
  rw [meets.written rewrites]
  apply manifestEntries_renderManifest
  intro line member
  obtain ⟨output, outputMember, rfl⟩ := mem_current_texts.mp member
  exact meets.lines output outputMember

theorem stale_recorded {run : Run} {earlier : List Run}
    (recorded : Recorded setting earlier run.start)
    (read : run.previous setting ⊆ listedEntries setting run.start) {path : Path}
    (stale : StalePath setting run.schedule run.start run.texts path) :
    ∃ past ∈ earlier, ∃ output ∈ past.outputs, output.location setting = setting.locate path ∧
      past.Records setting (output.location setting) := by
  obtain ⟨_, _, _, entry, listed, rfl⟩ := stale
  obtain ⟨past, member, output, produced, rfl, records⟩ := recorded entry (read listed)
  refine ⟨past, member, output, produced, ?_, records⟩
  rw [output.normal_entry]
  rfl

theorem manifest_not_removable {run : Run} {earlier : List Run}
    (recorded : Recorded setting earlier run.start)
    (met : ∀ past ∈ run :: earlier, past.Meets setting) :
    setting.manifest ∉ Removable setting run.schedule run.start run.texts := by
  rintro ⟨path, stale, _, located⟩
  obtain ⟨past, member, output, produced, same, _⟩ :=
    stale_recorded recorded (met run List.mem_cons_self).read stale
  exact (met past (List.mem_cons_of_mem _ member)).apart output produced (same.trans located)

theorem recorded_finish {run : Run} {earlier : List Run}
    (recorded : Recorded setting earlier run.start)
    (met : ∀ past ∈ run :: earlier, past.Meets setting) :
    Recorded setting (run :: earlier) (run.finish setting) := by
  have own := met run List.mem_cons_self
  rcases pruneStaleOutputs_cases setting run.schedule run.start run.texts with prunes | finished
  · have same : listedEntries setting (run.finish setting) = listedEntries setting run.start :=
      listedEntries_prunes prunes (manifest_not_removable recorded met)
    intro entry member
    rw [same] at member
    obtain ⟨past, pastMember, output, produced, named, records⟩ := recorded entry member
    exact ⟨past, List.mem_cons_of_mem _ pastMember, output, produced, named, records⟩
  · have lists := listed_rewritten own finished.rewrites finished.rewritten
    intro entry member
    have mine := member
    rw [lists] at mine
    obtain ⟨output, produced, rfl⟩ := mem_current_texts.mp mine
    exact ⟨run, List.mem_cons_self, output, produced, rfl, ⟨output, produced, rfl⟩,
      output.entry, member, output.locate_entry⟩

theorem listed_stays {run : Run} {earlier : List Run}
    (recorded : Recorded setting earlier run.start)
    (met : ∀ past ∈ run :: earlier, past.Meets setting) {location : Location}
    (before : location ∈ listed setting run.start)
    (there : Disk.isFile (run.finish setting) location = true) :
    location ∈ listed setting (run.finish setting) := by
  have own := met run List.mem_cons_self
  have metEarlier : ∀ past ∈ earlier, past.Meets setting := fun past member =>
    met past (List.mem_cons_of_mem _ member)
  rcases pruneStaleOutputs_cases setting run.schedule run.start run.texts with prunes | finished
  · have same : listedEntries setting (run.finish setting) = listedEntries setting run.start :=
      listedEntries_prunes prunes (manifest_not_removable recorded met)
    rw [listed, same]
    exact before
  · obtain ⟨entry, member, located⟩ := before
    obtain ⟨past, pastMember, output, produced, rfl, _⟩ := recorded entry member
    rw [output.locate_entry] at located
    by_cases current : output.entry ∈ currentSet run.texts
    · refine ⟨output.entry, ?_, output.locate_entry.trans located⟩
      rwa [listed_rewritten own finished.rewrites finished.rewritten]
    · have apart := (metEarlier past pastMember).apart output produced
      have read := member
      rw [← own.complete finished.rewrites] at read
      have gone := finished.cleared output.entry read
      rw [output.normal_entry] at gone
      rw [← located] at there
      exact absurd there (gone current apart)

/-- The runs that meet the condition keep the manifest true and complete. -/
theorem reached_invariant {history : List Run} {disk : Disk}
    (reached : Reached setting history disk) (met : ∀ run ∈ history, run.Meets setting) :
    Recorded setting history disk ∧
      ∀ location, Tracked setting location history → location ∈ listed setting disk := by
  induction reached with
  | fresh disk absent =>
      refine ⟨fun entry member => ?_, fun location tracked => tracked.elim⟩
      unfold listedEntries at member
      split at member
      · rename_i text found
        rw [isFile_iff.mpr ⟨text, found⟩] at absent
        cases absent
      · exact absurd member List.not_mem_nil
  | @run earlier disk run before kept ih =>
      obtain ⟨recorded, complete⟩ := ih fun past member =>
        met past (List.mem_cons_of_mem _ member)
      have same := listedEntries_congr kept
      have recordedStart : Recorded setting earlier run.start := by
        rw [Recorded, same]
        exact recorded
      refine ⟨recorded_finish recordedStart met, ?_⟩
      rintro location ⟨there, records | tracked⟩
      · exact records.2
      · have before : location ∈ listed setting run.start := by
          rw [listed, same]
          exact complete location tracked
        exact listed_stays recordedStart met before there

/-- Outputs go below `/o`, the manifest is `/m`. -/
def smallSetting (readName : Text → Text) : Setting where
  workingDirectory := []
  manifestPath := bytesOf "/m"
  outputRoot := bytesOf "/o"
  readName := readName
  deepestFirst paths := paths.insertionSort fun first second =>
    second.text.length ≤ first.text.length
  root_absolute := by decide +kernel
  deepestFirst_perm := List.perm_insertionSort _
  deepestFirst_longest paths :=
    have : Std.Total fun first second : Path => second.text.length ≤ first.text.length :=
      ⟨fun _ _ => Nat.le_total _ _⟩
    have : IsTrans Path fun first second => second.text.length ≤ first.text.length :=
      ⟨fun _ _ _ before after => Nat.le_trans after before⟩
    List.pairwise_insertionSort _ paths

/-- Names are told apart by their bytes. -/
def plainSetting : Setting :=
  smallSetting id

/-- The volume ignores the case of letters. -/
def foldingSetting : Setting :=
  smallSetting fun name => name.map fun byte =>
    if 65 ≤ byte ∧ byte ≤ 90 then byte + 32 else byte

def smallOutput : Output where
  text := bytesOf "/o/a"
  absolute := by decide +kernel
  named := by decide +kernel

def longerOutput : Output where
  text := bytesOf "/o/ab"
  absolute := by decide +kernel
  named := by decide +kernel

def faultless : Schedule := ⟨.whole, [], [], .done, .done, .whole⟩

/-- The output directory, with these files in it. -/
def smallDisk (names : List String) : Disk :=
  names.foldl (fun disk name => disk.insert [bytesOf "o", bytesOf name] (.file [1]))
    (AList.insert [bytesOf "o"] Node.directory ∅)

def recordingRun : Run := ⟨[smallOutput], faultless, smallDisk ["a"]⟩

/-- The module produces the output no more. -/
def pruningRun : Run := ⟨[], faultless, recordingRun.finish plainSetting⟩

theorem reached_pruningRun :
    Reached plainSetting [pruningRun, recordingRun] (pruningRun.finish plainSetting) :=
  .run pruningRun (.run recordingRun (.fresh recordingRun.start (by decide +kernel)) rfl) rfl

def smallFile : Location := [bytesOf "o", bytesOf "a"]

/-- **Pruning is safe over runs that read and write the manifest whole.** Whatever the
manifest holds, only files below the output root go, and none of them is an output of the run
unless the manifest names it otherwise. -/
theorem pruning_safe (setting : Setting) :
    (∀ (run : Run) (location : Location), run.Removes setting location →
      Below setting location ∧ (run.NamesAlike setting → location ∉ run.current setting)) ∧
    ∀ (history : List Run) (disk : Disk), Reached setting history disk →
      (∀ run ∈ history, run.Meets setting) → Safe setting history := by
  refine ⟨fun run location removes =>
    ⟨removes_inside removes, fun named => removes_others named removes⟩, ?_⟩
  intro history disk reached
  induction reached with
  | fresh disk absent => exact fun _ => trivial
  | @run earlier disk run before kept ih =>
      intro met
      have metEarlier := fun past member => met past (List.mem_cons_of_mem run member)
      have own := met run List.mem_cons_self
      have recorded : Recorded setting earlier run.start := by
        rw [Recorded, listedEntries_congr kept]
        exact (reached_invariant before metEarlier).1
      have complete := (reached_invariant (.run run before kept) met).2
      refine ⟨⟨fun location => removes_inside, fun location => removes_others own.named, ?_,
        fun location tracked _ => complete location tracked⟩, ih metEarlier⟩
      intro location removes
      obtain ⟨path, stale, _, rfl⟩ := removes_stale removes
      obtain ⟨past, member, output, _, located, records⟩ :=
        stale_recorded recorded own.read stale
      exact ⟨past, member, located ▸ records⟩

theorem pruning_safe_small :
    pruningRun.Removes plainSetting smallFile ∧ Below plainSetting smallFile ∧
      smallFile ∉ pruningRun.current plainSetting ∧
      Safe plainSetting [pruningRun, recordingRun] := by
  have removes : pruningRun.Removes plainSetting smallFile :=
    ⟨by decide +kernel, by decide +kernel⟩
  have alike (run : Run) : run.NamesAlike plainSetting :=
    namesAlike_of_injective Function.injective_id run
  have safe := pruning_safe plainSetting
  have ⟨below, others⟩ := safe.1 pruningRun smallFile removes
  refine ⟨removes, below, others (alike _), safe.2 _ _ reached_pruningRun ?_⟩
  have listed (run : Run) (whole : run.previous plainSetting = listedEntries plainSetting run.start)
      (clean : ∀ output ∈ run.outputs, IsLine output.entry ∧
        output.location plainSetting ≠ plainSetting.manifest)
      (faultless : run.schedule.writing = .whole) : run.Meets plainSetting :=
    ⟨fun output member => (clean output member).1, fun output member => (clean output member).2,
      alike run, whole ▸ List.Subset.refl _, fun _ => whole, fun _ => by rw [faultless]; rfl⟩
  have pruning : pruningRun.Meets plainSetting :=
    listed pruningRun (by decide +kernel) nofun rfl
  have recording : recordingRun.Meets plainSetting := by
    refine listed recordingRun (by decide +kernel) (fun output member => ?_) rfl
    rw [List.mem_singleton.mp member]
    exact ⟨⟨by decide +kernel, by decide +kernel, by decide +kernel⟩, by decide +kernel⟩
  simp [pruning, recording]

/-- The same output again, but the process stops once the manifest is open. -/
def stoppedRun : Run :=
  ⟨[smallOutput], { faultless with writing := .cut 0 .stops }, recordingRun.finish plainSetting⟩

/-- The module produces the output no more. -/
def forgetfulRun : Run := ⟨[], faultless, stoppedRun.finish plainSetting⟩

/-- Of the one line only the start reaches the disk; it names another file. -/
def tornRun : Run :=
  ⟨[longerOutput], { faultless with writing := .cut 34 .done }, smallDisk ["ab", "a"]⟩

def removingRun : Run := ⟨[], faultless, tornRun.finish plainSetting⟩

def capitalOutput : Output where
  text := bytesOf "/o/A"
  absolute := by decide +kernel
  named := by decide +kernel

/-- The module's output comes in another case. -/
def renamingRun : Run := ⟨[capitalOutput], faultless, recordingRun.finish foldingSetting⟩

theorem stopped_manifest_forgets :
    Reached plainSetting [forgetfulRun, stoppedRun, recordingRun]
        (forgetfulRun.finish plainSetting) ∧
      ¬Safe plainSetting [forgetfulRun, stoppedRun, recordingRun] := by
  have recorded : recordingRun.Records plainSetting smallFile :=
    ⟨⟨smallOutput, List.mem_singleton_self _, by decide +kernel⟩,
      bytesOf "/o/a", by decide +kernel, by decide +kernel⟩
  have tracked : Tracked plainSetting smallFile [forgetfulRun, stoppedRun, recordingRun] :=
    ⟨by decide +kernel, Or.inr ⟨by decide +kernel, Or.inr ⟨by decide +kernel, Or.inl recorded⟩⟩⟩
  have forgotten : listedEntries plainSetting (forgetfulRun.finish plainSetting) = [] := by
    decide +kernel
  refine ⟨.run forgetfulRun (.run stoppedRun (.run recordingRun
    (.fresh recordingRun.start (by decide +kernel)) rfl) rfl) rfl, fun safe => ?_⟩
  obtain ⟨entry, member, _⟩ := safe.1.kept smallFile tracked fun ⟨_, produced, _⟩ =>
    absurd produced List.not_mem_nil
  rw [forgotten] at member
  exact absurd member List.not_mem_nil

/-- A process that stops while it rewrites the manifest leaves `/o/a` on the disk for
good, or has the next run remove a file `/o/a` that no run recorded; on a volume that ignores
case, a run removes `/o/A`, which it has just written. -/
theorem cut_manifest_unsafe :
    (Reached plainSetting [forgetfulRun, stoppedRun, recordingRun]
        (forgetfulRun.finish plainSetting) ∧
      ¬Safe plainSetting [forgetfulRun, stoppedRun, recordingRun]) ∧
    (Reached plainSetting [removingRun, tornRun] (removingRun.finish plainSetting) ∧
      removingRun.Removes plainSetting smallFile ∧
      ¬Safe plainSetting [removingRun, tornRun]) ∧
    Reached foldingSetting [renamingRun, recordingRun] (renamingRun.finish foldingSetting) ∧
      renamingRun.Removes foldingSetting smallFile ∧
      smallFile ∈ renamingRun.current foldingSetting := by
  have removes : removingRun.Removes plainSetting smallFile :=
    ⟨by decide +kernel, by decide +kernel⟩
  refine ⟨stopped_manifest_forgets, ⟨?_, removes, fun safe => ?_⟩, ?_,
    ⟨by decide +kernel, by decide +kernel⟩, capitalOutput, List.mem_singleton_self _,
    by decide +kernel⟩
  · exact .run removingRun (.run tornRun
      (.fresh tornRun.start (by decide +kernel)) rfl) rfl
  · obtain ⟨past, member, ⟨output, produced, located⟩, _⟩ := safe.1.recorded smallFile removes
    rw [List.mem_singleton.mp member] at produced
    rw [List.mem_singleton.mp produced] at located
    exact absurd located (by decide +kernel)
  · exact .run renamingRun (.run recordingRun
      (.fresh recordingRun.start (by decide +kernel)) rfl) rfl

end LlvmDsdl.CodeGen
