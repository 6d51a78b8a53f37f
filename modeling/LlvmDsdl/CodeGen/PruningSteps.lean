import LlvmDsdl.CodeGen.PruneOutputs

/-!
Contract: what one run of `pruneStaleOutputs` does to the files of the disk.

Owns: the files each step may remove, the outputs found stale, and the manifest
read back from its text.
-/

namespace LlvmDsdl.CodeGen

open LlvmDsdl.Library.LexicalPath
open LlvmDsdl.LSP (bytesOf trim lineFeed)

/-! ### Files removed and kept -/

/-- Files go only from the given places, no file comes, and none changes. -/
structure Prunes (removable : Set Location) (before after : Disk) : Prop where
  kept : ∀ location, location ∉ removable → ∀ content,
    before.lookup location = some (.file content) → after.lookup location = some (.file content)
  made : ∀ location content,
    after.lookup location = some (.file content) → before.lookup location = some (.file content)

theorem isFile_iff {disk : Disk} {location : Location} :
    Disk.isFile disk location = true ↔ ∃ content, disk.lookup location = some (.file content) := by
  unfold Disk.isFile
  split
  · rename_i content found
    simp [found]
  · rename_i other
    simp only [Bool.false_eq_true, false_iff, not_exists]
    exact other

namespace Prunes

variable {removable : Set Location} {before middle after : Disk}

theorem refl (removable : Set Location) (disk : Disk) : Prunes removable disk disk :=
  ⟨fun _ _ _ found => found, fun _ _ found => found⟩

theorem trans (first : Prunes removable before middle) (second : Prunes removable middle after) :
    Prunes removable before after where
  kept location outside content found :=
    second.kept location outside content (first.kept location outside content found)
  made location content found := first.made location content (second.made location content found)

theorem mono {larger : Set Location} (prunes : Prunes removable before after)
    (subset : removable ⊆ larger) : Prunes larger before after where
  kept location outside := prunes.kept location fun inside => outside (subset inside)
  made := prunes.made

theorem not_isFile (prunes : Prunes removable before after) {location : Location}
    (absent : Disk.isFile before location ≠ true) : Disk.isFile after location ≠ true := by
  rw [Ne, isFile_iff] at absent ⊢
  rintro ⟨content, found⟩
  exact absent ⟨content, prunes.made location content found⟩

theorem removed (prunes : Prunes removable before after) {location : Location}
    (there : Disk.isFile before location = true) (gone : Disk.isFile after location ≠ true) :
    location ∈ removable := by
  by_contra outside
  obtain ⟨content, found⟩ := isFile_iff.mp there
  exact gone (isFile_iff.mpr ⟨content, prunes.kept location outside content found⟩)

theorem erase {disk : Disk} {location : Location} (allowed : location ∈ removable) :
    Prunes removable disk (disk.erase location) where
  kept other outside content found := by
    rw [AList.lookup_erase_ne]
    · exact found
    · rintro rfl
      exact outside allowed
  made other content found := by
    by_cases same : other = location
    · rw [same, AList.lookup_erase] at found
      cases found
    · rwa [AList.lookup_erase_ne same] at found

theorem erase_not_file {disk : Disk} {location : Location}
    (plain : Disk.isFile disk location ≠ true) : Prunes removable disk (disk.erase location) where
  kept other _ content found := by
    rw [AList.lookup_erase_ne]
    · exact found
    · rintro rfl
      exact plain (isFile_iff.mpr ⟨content, found⟩)
  made := (erase (Set.mem_univ location)).made

theorem insert_directory {disk : Disk} {location : Location}
    (plain : Disk.isFile disk location ≠ true) :
    Prunes removable disk (disk.insert location .directory) where
  kept other _ content found := by
    rw [AList.lookup_insert_ne]
    · exact found
    · rintro rfl
      exact plain (isFile_iff.mpr ⟨content, found⟩)
  made other content found := by
    by_cases same : other = location
    · rw [same, AList.lookup_insert] at found
      cases found
    · rwa [AList.lookup_insert_ne same] at found

end Prunes

/-! ### One removal -/

theorem not_isFile_of_kind {disk : Disk} {location : Location}
    (kind : Disk.kind disk location = .absent ∨ Disk.kind disk location = .directory) :
    Disk.isFile disk location ≠ true := by
  intro isFile
  obtain ⟨content, found⟩ := isFile_iff.mp isFile
  unfold Disk.kind at kind
  rw [found] at kind
  split at kind <;> simp at kind

theorem parent_not_file {disk : Disk} {location : Location}
    (reached : Disk.kind disk location ≠ .obstructed) (inner : location ≠ []) :
    Disk.isFile disk location.dropLast ≠ true := by
  intro isFile
  apply reached
  have longer := List.length_pos_iff.mpr inner
  have obstructed : Disk.obstructed disk location = true := by
    rw [Disk.obstructed, List.any_eq_true]
    refine ⟨location.length - 1, List.mem_range.mpr (by omega), ?_⟩
    rwa [← List.dropLast_eq_take]
  rw [Disk.kind, if_pos obstructed]

theorem remove_eq_removed {disk after : Disk} {location : Location} {trailing : Bool}
    (removed : Disk.remove disk location trailing = .removed after) :
    after = disk.erase location ∧ Disk.kind disk location ≠ .obstructed ∧
      (trailing = true → Disk.isFile disk location ≠ true) := by
  unfold Disk.remove at removed
  split at removed
  · cases removed
  · cases removed
  · rename_i kind
    split at removed
    · cases removed
    · rename_i closed
      cases removed
      exact ⟨rfl, (by rw [kind]; exact Kind.noConfusion), fun ends => absurd ends closed⟩
  · rename_i kind
    split at removed
    · cases removed
    · cases removed
      exact ⟨rfl, (by rw [kind]; exact Kind.noConfusion),
        fun _ => not_isFile_of_kind (Or.inr kind)⟩

theorem remove_eq_absent {disk : Disk} {location : Location} {trailing : Bool}
    (absent : Disk.remove disk location trailing = .absent) :
    Disk.kind disk location = .absent := by
  unfold Disk.remove at absent
  split at absent
  · cases absent
  · assumption
  · split at absent <;> cases absent
  · split at absent <;> cases absent

theorem locate_resolved (setting : Setting) {path : Path} (resolved : path.Resolved) :
    setting.locate path = path.names.map setting.readName := by
  rw [Setting.locate, if_pos resolved.absolute, resolved.lexicallyNormal_eq]

theorem not_isFile_erase (disk : Disk) (location : Location) :
    Disk.isFile (disk.erase location) location ≠ true := by
  rw [Ne, isFile_iff]
  rintro ⟨content, found⟩
  rw [AList.lookup_erase] at found
  cases found

theorem parentPath_not_file {setting : Setting} {disk after : Disk} {path : Path}
    (resolved : path.Resolved) (reached : Disk.kind disk (setting.locate path) ≠ .obstructed)
    (prunes : Prunes Set.univ disk after)
    (gone : Disk.isFile after (setting.locate path) ≠ true) :
    Disk.isFile after (setting.locate path.parentPath) ≠ true := by
  rw [locate_resolved setting resolved] at reached gone
  rw [locate_resolved setting resolved.parentPath]
  unfold Path.parentPath
  split
  · exact gone
  · by_cases outer : path.names = []
    · rw [outer] at gone ⊢
      exact gone
    · rw [List.map_dropLast]
      exact prunes.not_isFile (parent_not_file reached (by simpa using outer))

/-! ### The loops -/

/-- Where removing the paths may remove a file. -/
def fileLocations (setting : Setting) (paths : List Path) : Set Location :=
  {location | ∃ path ∈ paths, path.trailing = false ∧ setting.locate path = location}

/-- What a loop of removals leaves to the next. -/
structure Pruned (setting : Setting) (paths : List Path) (before after : Pruning) : Prop where
  prunes : Prunes (fileLocations setting paths) before.disk after.disk
  gone : after.ending = none → ∀ path ∈ paths,
    Disk.isFile after.disk (setting.locate path) ≠ true
  touched : ∀ directory ∈ after.touchedDirectories,
    directory.Resolved ∧ Disk.isFile after.disk (setting.locate directory) ≠ true

theorem removeOne_pruned {setting : Setting} (outcome : Outcome) {path : Path}
    (resolved : path.Resolved) {state : Pruning}
    (touched : ∀ directory ∈ state.touchedDirectories,
      directory.Resolved ∧ Disk.isFile state.disk (setting.locate directory) ≠ true) :
    Pruned setting [path] state (removeOne setting outcome path state) := by
  have stays : ∀ ending, Pruned setting [path] state { state with ending := some ending } :=
    fun ending => ⟨Prunes.refl _ _, nofun, touched⟩
  unfold removeOne
  split
  · exact stays _
  · exact stays _
  · split
    · exact stays _
    · rename_i absent
      have kind := remove_eq_absent absent
      have gone := not_isFile_of_kind (Or.inl kind)
      refine ⟨Prunes.refl _ _, fun _ other member => ?_, fun directory member => ?_⟩
      · rw [List.mem_singleton.mp member]
        exact gone
      · rcases List.mem_insert_iff.mp member with rfl | earlier
        · have reached : Disk.kind state.disk (setting.locate path) ≠ .obstructed := by
            rw [kind]
            exact Kind.noConfusion
          exact ⟨resolved.parentPath, parentPath_not_file resolved reached (Prunes.refl _ _) gone⟩
        · exact touched directory earlier
    · rename_i after removed
      obtain ⟨rfl, reached, closed⟩ := remove_eq_removed removed
      have gone := not_isFile_erase state.disk (setting.locate path)
      have prunes : Prunes (fileLocations setting [path]) state.disk
          (state.disk.erase (setting.locate path)) := by
        by_cases ends : path.trailing = true
        · exact Prunes.erase_not_file (closed ends)
        · exact Prunes.erase ⟨path, List.mem_singleton_self path, by simpa using ends, rfl⟩
      refine ⟨prunes, fun _ other member => ?_, fun directory member => ?_⟩
      · rw [List.mem_singleton.mp member]
        exact gone
      · rcases List.mem_insert_iff.mp member with rfl | earlier
        · exact ⟨resolved.parentPath, parentPath_not_file resolved reached
            (prunes.mono (Set.subset_univ _)) gone⟩
        · exact ⟨(touched directory earlier).1, prunes.not_isFile (touched directory earlier).2⟩

theorem removeStale_pruned {setting : Setting} (paths : List Path) :
    ∀ (outcomes : List Outcome) (state : Pruning), (∀ path ∈ paths, path.Resolved) →
      (∀ directory ∈ state.touchedDirectories,
        directory.Resolved ∧ Disk.isFile state.disk (setting.locate directory) ≠ true) →
      Pruned setting paths state (removeStale setting outcomes paths state) := by
  induction paths with
  | nil =>
      intro outcomes state _ touched
      rw [removeStale]
      exact ⟨Prunes.refl _ _, fun _ path member => absurd member List.not_mem_nil, touched⟩
  | cons path rest ih =>
      intro outcomes state resolved touched
      have one := @removeOne_pruned setting (outcomes.headD .done) _
        (resolved path List.mem_cons_self) _ touched
      have firstOnly : fileLocations setting [path] ⊆ fileLocations setting (path :: rest) :=
        fun location ⟨other, member, named⟩ =>
          ⟨other, List.mem_singleton.mp member ▸ List.mem_cons_self, named⟩
      have restOnly : fileLocations setting rest ⊆ fileLocations setting (path :: rest) :=
        fun location ⟨other, member, named⟩ => ⟨other, List.mem_cons_of_mem _ member, named⟩
      rw [removeStale]
      split
      · rename_i ended
        refine ⟨one.prunes.mono firstOnly, fun running => ?_, one.touched⟩
        rw [running] at ended
        cases ended
      · rename_i onward
        have others := ih outcomes.tail _
          (fun other member => resolved other (List.mem_cons_of_mem _ member)) one.touched
        refine ⟨(one.prunes.mono firstOnly).trans (others.prunes.mono restOnly),
          fun running other member => ?_, others.touched⟩
        rcases List.mem_cons.mp member with rfl | later
        · exact others.prunes.not_isFile
            (one.gone (by simpa using onward) other List.mem_cons_self)
        · exact others.gone running other later

theorem removeEmptied_prunes (setting : Setting) (outcomes : List Outcome)
    (candidates : List Path) (state : Pruning)
    (plain : ∀ directory ∈ candidates,
      directory.Resolved ∧ Disk.isFile state.disk (setting.locate directory) ≠ true) :
    Prunes ∅ state.disk (removeEmptied setting outcomes candidates state).disk := by
  have later : ∀ {directory : Path} {rest : List Path} {disk : Disk},
      (∀ other ∈ directory :: rest,
        other.Resolved ∧ Disk.isFile disk (setting.locate other) ≠ true) →
        ∀ other ∈ rest, other.Resolved ∧ Disk.isFile disk (setting.locate other) ≠ true :=
    fun plain other member => plain other (List.mem_cons_of_mem _ member)
  fun_induction removeEmptied setting outcomes candidates state with
  | case1 outcomes state => exact Prunes.refl _ _
  | case2 outcomes directory rest state inside fate => exact Prunes.refl _ _
  | case3 outcomes directory rest state inside fate ih =>
      exact ih (later plain)
  | case4 outcomes directory rest state inside fate empty disk removed ih =>
      obtain ⟨resolved, notFile⟩ := plain directory List.mem_cons_self
      obtain ⟨rfl, reached, _⟩ := remove_eq_removed removed
      have prunes : Prunes ∅ state.disk (state.disk.erase (setting.locate directory)) :=
        Prunes.erase_not_file notFile
      refine prunes.trans (ih fun other member => ?_)
      rcases List.mem_append.mp member with waiting | parent
      · obtain ⟨otherResolved, otherPlain⟩ := later plain other waiting
        exact ⟨otherResolved, prunes.not_isFile otherPlain⟩
      · rw [List.mem_singleton.mp parent]
        exact ⟨resolved.parentPath, parentPath_not_file resolved reached
          (prunes.mono (Set.empty_subset _)) (not_isFile_erase _ _)⟩
  | case5 outcomes directory rest state inside fate empty _ ih =>
      exact ih (later plain)
  | case6 outcomes directory rest state inside fate filled ih =>
      exact ih (later plain)
  | case7 outcomes directory rest state outside ih =>
      exact ih (later plain)

/-! ### The manifest rewritten -/

theorem createDirectory_prunes {disk after : Disk} {location : Location}
    (created : Disk.createDirectory disk location = some after) : Prunes ∅ disk after := by
  unfold Disk.createDirectory at created
  split at created
  · rename_i kind
    cases created
    exact Prunes.insert_directory (not_isFile_of_kind (Or.inl kind))
  · cases created
    exact Prunes.refl _ _
  · cases created

theorem createDirectories_prunes {disk after : Disk} {location : Location}
    (created : Disk.createDirectories disk location = some after) : Prunes ∅ disk after := by
  unfold Disk.createDirectories at created
  generalize location.inits = steps at created
  induction steps generalizing disk with
  | nil =>
      cases created
      exact Prunes.refl _ _
  | cons step rest ih =>
      rw [List.foldlM_cons, Option.bind_eq_bind, Option.bind_eq_some_iff] at created
      obtain ⟨middle, first, others⟩ := created
      exact (createDirectory_prunes first).trans (ih others)

/-- The manifest is emptied, and its lines begin to come. -/
def Schedule.Rewrites (setting : Setting) (schedule : Schedule) : Prop :=
  ((parse setting.manifestPath).parentPath.text = [] ∨ schedule.parents = .done) ∧
    schedule.opening = .done

/-- The manifest holds what was written over a disk that only lost files. -/
def Rewritten (setting : Setting) (removable : Set Location) (text : Text)
    (before after : Disk) : Prop :=
  ∃ middle, Prunes removable before middle ∧
    after = middle.insert setting.manifest (.file text)

theorem write_eq_some {disk after : Disk} {location : Location} {text : Text}
    (written : Disk.write disk location text = some after) :
    after = disk.insert location (.file text) := by
  unfold Disk.write at written
  split at written
  · cases written
    rfl
  · split at written
    · cases written
      rfl
    · cases written
  · cases written

theorem writeManifest_cases (setting : Setting) (schedule : Schedule) (current : List Text)
    (state : Pruning) :
    (writeManifest setting schedule current state).disk = state.disk ∨
      schedule.opening = .done ∧
        (writeManifest setting schedule current state).disk =
          state.disk.insert setting.manifest
            (.file (schedule.writing.text (renderManifest current))) := by
  unfold writeManifest
  split
  · exact Or.inl rfl
  · exact Or.inl rfl
  · rename_i opened
    split
    · exact Or.inl rfl
    · rename_i disk written
      exact Or.inr ⟨opened, write_eq_some written⟩

theorem rewriteManifest_cases (setting : Setting) (schedule : Schedule) (current : List Text)
    (state : Pruning) :
    Prunes ∅ state.disk (rewriteManifest setting schedule current state).disk ∨
      schedule.Rewrites setting ∧
        Rewritten setting ∅ (schedule.writing.text (renderManifest current)) state.disk
          (rewriteManifest setting schedule current state).disk := by
  unfold rewriteManifest
  dsimp only
  split
  · rename_i bare
    rcases writeManifest_cases setting schedule current state with same | ⟨opened, written⟩
    · rw [same]
      exact Or.inl (Prunes.refl _ _)
    · exact Or.inr ⟨⟨Or.inl bare, opened⟩, state.disk, Prunes.refl _ _, written⟩
  · split
    · exact Or.inl (Prunes.refl _ _)
    · exact Or.inl (Prunes.refl _ _)
    · rename_i parents
      split
      · exact Or.inl (Prunes.refl _ _)
      · rename_i disk created
        have prunes := createDirectories_prunes created
        rcases writeManifest_cases setting schedule current { state with disk := disk } with
          same | ⟨opened, written⟩
        · rw [same]
          exact Or.inl prunes
        · exact Or.inr ⟨⟨Or.inr parents, opened⟩, disk, prunes, written⟩

/-! ### The stale outputs -/

theorem staleOutputs_ok {root : Path} {current : List Text} (entries : List Text) :
    ∀ {stale : List Path}, staleOutputs root current entries = .ok stale →
      ∀ path, path ∈ stale ↔ ∃ entry ∈ entries,
        path = (parse entry).lexicallyNormal ∧ path.text ∉ current := by
  induction entries with
  | nil =>
      intro stale found path
      cases found
      simp
  | cons entry rest ih =>
      intro stale found path
      rw [staleOutputs] at found
      split at found
      · rename_i present
        rw [ih found]
        constructor
        · rintro ⟨other, member, named⟩
          exact ⟨other, List.mem_cons_of_mem _ member, named⟩
        · rintro ⟨other, member, named, absent⟩
          rcases List.mem_cons.mp member with rfl | later
          · exact absurd (named ▸ present) absent
          · exact ⟨other, later, named, absent⟩
      · rename_i absent
        split at found
        · cases others : staleOutputs root current rest with
          | error error =>
              rw [others] at found
              cases found
          | ok tail =>
              rw [others] at found
              cases found
              rw [List.mem_cons, ih others]
              constructor
              · rintro (rfl | ⟨other, member, named⟩)
                · exact ⟨entry, List.mem_cons_self, rfl, absent⟩
                · exact ⟨other, List.mem_cons_of_mem _ member, named⟩
              · rintro ⟨other, member, named, missing⟩
                rcases List.mem_cons.mp member with rfl | later
                · exact Or.inl named
                · exact Or.inr ⟨other, later, named, missing⟩
        · cases found

theorem staleOutputs_inside {root : Path} {current : List Text} (entries : List Text) :
    ∀ {stale : List Path}, staleOutputs root current entries = .ok stale →
      ∀ path ∈ stale, isInside root path = true := by
  induction entries with
  | nil =>
      intro stale found
      cases found
      exact fun path member => absurd member List.not_mem_nil
  | cons entry rest ih =>
      intro stale found
      rw [staleOutputs] at found
      split at found
      · exact ih found
      · split at found
        · rename_i inside
          cases others : staleOutputs root current rest with
          | error error =>
              rw [others] at found
              cases found
          | ok tail =>
              rw [others] at found
              cases found
              intro path member
              rcases List.mem_cons.mp member with rfl | later
              · exact inside
              · exact ih others path later
        · cases found

/-! ### The manifest read back -/

def IsLine (text : Text) : Prop :=
  lineFeed ∉ text ∧ trim text = text ∧ text ≠ []

private theorem header_isLine : IsLine pruneManifestHeader := by
  unfold IsLine
  decide +kernel

private theorem renderLines (lines : List Text) :
    lines.flatMap (fun line => line ++ [lineFeed]) = [lineFeed].intercalate (lines ++ [[]]) := by
  induction lines with
  | nil => rfl
  | cons line rest ih =>
      rw [List.flatMap_cons, ih, List.cons_append,
        List.intercalate_cons_of_ne_nil (by simp)]

theorem linesOf_lines {lines : List Text} (clean : ∀ line ∈ lines, lineFeed ∉ line) :
    linesOf (lines.flatMap fun line => line ++ [lineFeed]) = lines := by
  have split : (lines.flatMap fun line => line ++ [lineFeed]).splitOn lineFeed = lines ++ [[]] := by
    rw [renderLines, List.splitOn_intercalate lineFeed _ (by simp)]
    intro line member
    rcases List.mem_append.mp member with named | last
    · exact clean line named
    · rw [List.mem_singleton.mp last]
      exact List.not_mem_nil
  rw [linesOf, split]
  simp

theorem manifestEntries_renderManifest {current : List Text}
    (lines : ∀ line ∈ current, IsLine line) :
    manifestEntries (linesOf (renderManifest current)) = current := by
  have clean : ∀ line ∈ pruneManifestHeader :: current, lineFeed ∉ line := by
    intro line member
    rcases List.mem_cons.mp member with rfl | named
    · exact header_isLine.1
    · exact (lines line named).1
  have trimmed : current.map trim = current := by
    conv_rhs => rw [← List.map_id current]
    exact List.map_congr_left fun line member => (lines line member).2.1
  rw [renderManifest, linesOf_lines clean, manifestEntries, if_pos header_isLine.2.1, trimmed,
    List.filter_eq_self]
  exact fun line member => by simpa using (lines line member).2.2

def listedEntries (setting : Setting) (disk : Disk) : List Text :=
  match disk.lookup setting.manifest with
  | some (.file text) => manifestEntries (linesOf text)
  | _ => []

theorem listedEntries_congr {setting : Setting} {before after : Disk}
    (same : after.lookup setting.manifest = before.lookup setting.manifest) :
    listedEntries setting after = listedEntries setting before := by
  rw [listedEntries, listedEntries, same]

theorem listedEntries_prunes {setting : Setting} {removable : Set Location}
    {before after : Disk} (prunes : Prunes removable before after)
    (outside : setting.manifest ∉ removable) :
    listedEntries setting after = listedEntries setting before := by
  by_cases there : Disk.isFile before setting.manifest = true
  · obtain ⟨content, found⟩ := isFile_iff.mp there
    apply listedEntries_congr
    rw [found, prunes.kept _ outside content found]
  · have gone := prunes.not_isFile there
    have nothing : ∀ disk : Disk, Disk.isFile disk setting.manifest ≠ true →
        listedEntries setting disk = [] := by
      intro disk absent
      unfold listedEntries
      split
      · rename_i text found
        exact absurd (isFile_iff.mpr ⟨text, found⟩) absent
      · rfl
    rw [nothing before there, nothing after gone]

theorem mem_currentSet {outputs : List Text} {entry : Text} :
    entry ∈ currentSet outputs ↔
      ∃ output ∈ outputs, (parse output).lexicallyNormal.text = entry := by
  rw [currentSet, List.mem_insertionSort, List.mem_dedup, List.mem_map]

/-! ### One run -/

/-- What the run counts as stale: what it read and does not produce. -/
def StalePath (setting : Setting) (schedule : Schedule) (disk : Disk) (outputs : List Text)
    (path : Path) : Prop :=
  path.Resolved ∧ isInside setting.root path = true ∧ path.text ∉ currentSet outputs ∧
    ∃ entry ∈ readPruneManifest schedule.reading disk setting.manifest,
      path = (parse entry).lexicallyNormal

def Removable (setting : Setting) (schedule : Schedule) (disk : Disk) (outputs : List Text) :
    Set Location :=
  {location | ∃ path, StalePath setting schedule disk outputs path ∧ path.trailing = false ∧
    setting.locate path = location}

/-- Once the manifest is rewritten, nothing stale is left. -/
structure Finished (setting : Setting) (schedule : Schedule) (before : Disk)
    (outputs : List Text) (after : Disk) : Prop where
  rewrites : schedule.Rewrites setting
  rewritten : Rewritten setting (Removable setting schedule before outputs)
    (schedule.writing.text (renderManifest (currentSet outputs))) before after
  cleared : ∀ entry ∈ readPruneManifest schedule.reading before setting.manifest,
    (parse entry).lexicallyNormal.text ∉ currentSet outputs →
      setting.locate (parse entry).lexicallyNormal ≠ setting.manifest →
        Disk.isFile after (setting.locate (parse entry).lexicallyNormal) ≠ true

theorem resolved_of_inside {setting : Setting} {entry : Text}
    (inside : isInside setting.root (parse entry).lexicallyNormal = true) :
    (parse entry).lexicallyNormal.Resolved :=
  resolved_lexicallyNormal (lawful_parse entry) <|
    (lexicallyNormal_absolute (parse entry)).symm.trans <|
      (isInside_absolute inside).trans setting.root_absolute

theorem pruneStaleOutputs_cases (setting : Setting) (schedule : Schedule) (disk : Disk)
    (outputs : List Text) :
    Prunes (Removable setting schedule disk outputs) disk
        (pruneStaleOutputs setting schedule disk outputs).disk ∨
      Finished setting schedule disk outputs
        (pruneStaleOutputs setting schedule disk outputs).disk := by
  unfold pruneStaleOutputs
  dsimp only
  split
  · exact Or.inl (Prunes.refl _ _)
  · rename_i stale found
    have members := staleOutputs_ok _ found
    have insides := staleOutputs_inside _ found
    have isStale : ∀ path ∈ setting.deepestFirst stale, StalePath setting schedule disk outputs path := by
      intro path member
      rw [(setting.deepestFirst_perm _).mem_iff] at member
      obtain ⟨entry, listed, rfl, absent⟩ := (members path).mp member
      have inside := insides _ member
      exact ⟨resolved_of_inside inside, inside, absent, entry, listed, rfl⟩
    have subset : fileLocations setting (setting.deepestFirst stale) ⊆
        Removable setting schedule disk outputs :=
      fun location ⟨path, member, closed, named⟩ => ⟨path, isStale path member, closed, named⟩
    have pruned := @removeStale_pruned setting (setting.deepestFirst stale)
      schedule.removals ⟨disk, ⟨[], []⟩, [], none⟩ (fun path member => (isStale path member).1)
      nofun
    generalize removeStale setting schedule.removals (setting.deepestFirst stale)
      ⟨disk, ⟨[], []⟩, [], none⟩ = removed at pruned ⊢
    have first := pruned.prunes.mono subset
    split
    · exact Or.inl first
    · rename_i running
      have emptied := removeEmptied_prunes setting schedule.directories
        (setting.deepestFirst removed.touchedDirectories) removed fun directory member =>
          pruned.touched directory (by rwa [(setting.deepestFirst_perm _).mem_iff] at member)
      generalize removeEmptied setting schedule.directories
        (setting.deepestFirst removed.touchedDirectories) removed = later at emptied ⊢
      have second := first.trans (emptied.mono (Set.empty_subset _))
      split
      · exact Or.inl second
      · rcases rewriteManifest_cases setting schedule (currentSet outputs) later with
          prunes | ⟨rewrites, middle, prunes, written⟩
        · exact Or.inl (second.trans (prunes.mono (Set.empty_subset _)))
        · refine Or.inr ⟨rewrites,
            ⟨middle, second.trans (prunes.mono (Set.empty_subset _)), written⟩, ?_⟩
          intro entry listed absent apart
          have member : (parse entry).lexicallyNormal ∈ stale :=
            (members _).mpr ⟨entry, listed, rfl, absent⟩
          have gone := pruned.gone running _ ((setting.deepestFirst_perm _).mem_iff.mpr member)
          have still := prunes.not_isFile (emptied.not_isFile gone)
          rw [written, Ne, isFile_iff]
          rintro ⟨content, there⟩
          rw [AList.lookup_insert_ne apart] at there
          exact still (isFile_iff.mpr ⟨content, there⟩)

end LlvmDsdl.CodeGen
