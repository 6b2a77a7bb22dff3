/-
This file follows the manifest through `DB::Open` and over crashes: recovery makes its version of the
edits it reads, the tables of the replay are new to them, and the manifest that is installed, reused
or created with a snapshot, makes the version with these tables.
-/

import LevelDb.TrackedManifest

namespace LevelDb

variable {α β : Type} [LinearOrder α]

/-! ### The invariant -/

/-- The version is what is read of the edits, and the tables of the replay are new to them. -/
structure Replayed (edits : List (VersionEdit α β)) (version : Version α β)
    (edit : VersionEdit α β) : Prop where
  files : version.files = (versionOf edits).files
  readable : (Descriptor.read edits).isSome = true
  levels : ∀ added ∈ edit.newFiles, added.1 < Config.kNumLevels
  new : edit.AddsNew edits

/-- The manifest makes the version, and then the edit of the recovery. -/
structure Installs (target : List (VersionEdit α β)) (version : Version α β)
    (edit : VersionEdit α β) : Prop where
  split : ∃ front, target = front ++ [edit] ∧ version.files = (versionOf front).files
  successive : Successive target
  readable : (Descriptor.read target).isSome = true

/-- What a stage of opening promises of the manifest that `CURRENT` names and of the one that will
be installed. -/
def OpenStage.Tracks (opening : Opening α β) (edits target : List (VersionEdit α β)) :
    OpenStage α β → Prop
  | .replaying => Replayed edits opening.memory.db.version opening.edit
  | .building number _ => Replayed edits opening.memory.db.version opening.edit ∧
    NewNumber (edits ++ [opening.edit]) number
  | .logging edit .started => Replayed edits opening.memory.db.version edit
  | .logging edit _ => Installs target opening.memory.db.version edit

/-- What holds of the manifests while a database is being opened. -/
structure Opening.Tracks (opening : Opening α β) (files : Files α β) : Prop where
  successive : Successive files.manifest.edits
  picks : opening.memory.db.version.PicksAbove
  stage : opening.stage.Tracks opening files.manifest.edits
    (files.manifests.file opening.memory.manifestFileNumber).edits

/-- What holds of the manifest and of the process that works on it. -/
def Process.Tracks (files : Files α β) : Process α β → Prop
  | .down => Successive files.manifest.edits
  | .opening state => state.Tracks files
  | .running memory => memory.Tracks files.manifest.edits

/-! ### The replay -/

section Replay

variable {edits : List (VersionEdit α β)} {version : Version α β} {edit : VersionEdit α β}

theorem Replayed.of_newFiles (replayed : Replayed edits version edit) {other : VersionEdit α β}
    (same : other.newFiles = edit.newFiles) : Replayed edits version other where
  files := replayed.files
  readable := replayed.readable
  levels := by
    rw [same]
    exact replayed.levels
  new := by
    refine ⟨?_, ?_⟩
    · rw [same]
      exact replayed.new.distinct
    · rw [same]
      exact replayed.new.isNew

theorem Replayed.follows (replayed : Replayed edits version edit) : edit.Follows edits :=
  ⟨replayed.levels, Or.inl replayed.new⟩

/-- A table of a new number joins those of the replay. -/
theorem Replayed.addTable (replayed : Replayed edits version edit) {options : Options α β}
    {number : Nat} (isNew : NewNumber (edits ++ [edit]) number) (mem : List (Entry α β)) :
    Replayed edits version (writeLevel0Table options none number mem edit) := by
  obtain ⟨isOld, differs⟩ := newNumber_append.mp isNew
  obtain ⟨same, -⟩ | ⟨file, isNumber, -, same⟩ := writeLevel0Table_added options none number mem edit
  · rw [same]
    exact replayed
  · have newFiles : (writeLevel0Table options none number mem edit).newFiles =
        edit.newFiles ++ [(0, file)] := congrArg VersionEdit.newFiles same
    refine ⟨replayed.files, replayed.readable, ?_, ?_, ?_⟩
    · rw [newFiles]
      exact List.forall_mem_append.mpr
        ⟨replayed.levels, List.forall_mem_singleton.mpr (Nat.zero_lt_succ _)⟩
    · rw [newFiles, List.map_append]
      refine List.Nodup.append replayed.new.distinct (List.nodup_singleton _) ?_
      refine List.disjoint_singleton.mpr fun member => ?_
      obtain ⟨added, isAdded, sameNumber⟩ := List.mem_map.mp member
      exact differs added isAdded (sameNumber.trans isNumber)
    · rw [newFiles]
      exact List.forall_mem_append.mpr
        ⟨replayed.new.isNew, List.forall_mem_singleton.mpr (isNumber ▸ isOld)⟩

/-- The edit of the recovery is written behind the edits that were read. -/
theorem Replayed.installs_append (replayed : Replayed edits version edit)
    (successive : Successive edits) (readable : (Descriptor.read (edits ++ [edit])).isSome = true) :
    Installs (edits ++ [edit]) version edit :=
  ⟨⟨edits, rfl, replayed.files⟩, successive.append replayed.follows, readable⟩

/-- The edit of the recovery is written behind a snapshot of the version. -/
theorem Replayed.installs_snapshot {memory : Memory α β}
    (replayed : Replayed edits memory.db.version edit) (successive : Successive edits)
    (readable : (Descriptor.read ([memory.snapshot] ++ [edit])).isSome = true) :
    Installs ([memory.snapshot] ++ [edit]) memory.db.version edit := by
  have first : Successive [memory.snapshot] :=
    Successive.nil.append (successive.snapshot_follows replayed.files)
  refine ⟨⟨_, rfl, (successive.versionOf_snapshot replayed.files).symm⟩, first.append
    ⟨replayed.levels, Or.inl ⟨replayed.new.distinct, ?_⟩⟩, readable⟩
  intro added isAdded old isOld
  rw [addedFiles, List.flatMap_singleton] at isOld
  obtain ⟨-, inVersion⟩ := mem_snapshot_newFiles.mp isOld
  rw [replayed.files] at inVersion
  obtain ⟨listed, isListed, isPrepared⟩ := mem_versionOf inVersion
  rw [isPrepared]
  exact replayed.new.isNew added isAdded _ isListed

end Replay

/-! ### Every step -/

section Moves

variable [Inhabited β] {options : Options α β} {opening : Opening α β} {process : Process α β}
  {files files' : Files α β} {action : OpeningAction}

theorem Opening.Grounded.newNumber_next (grounded : opening.Grounded files) :
    NewNumber (files.manifest.edits ++ [opening.edit]) opening.memory.db.nextFileNumber :=
  newNumber_append.mpr ⟨fun added member => ne_of_lt (grounded.below.added added member).1,
    fun added member => ne_of_lt (grounded.edit added member).1⟩

omit [Inhabited β] in
/-- A database that was opened with the manifest as it is, or with the one that was written. -/
theorem tracks_opened {memory : Memory α β} {edits : List (VersionEdit α β)}
    (successive : Successive edits) (picks : memory.db.version.PicksAbove)
    (same : memory.db.version.files = (versionOf edits).files)
    (readable : (Descriptor.read edits).isSome = true) :
    Memory.Tracks { memory with work := .collecting none } edits ∧
      Memory.Matches { memory with work := .collecting none } edits edits := by
  have recorded : Memory.Matches { memory with work := .collecting none } edits edits :=
    ⟨(List.append_nil edits).symm, same, readable⟩
  exact ⟨⟨successive, picks, (fun _ impossible => by cases impossible), fun _ => ⟨edits, recorded⟩⟩,
    recorded⟩

omit [Inhabited β] in
theorem Installs.applied {target : List (VersionEdit α β)} {version : Version α β}
    {edit : VersionEdit α β} (installs : Installs target version edit) :
    (version.applyEdit edit).files = (versionOf target).files := by
  obtain ⟨front, rfl, same⟩ := installs.split
  obtain ⟨before, follows⟩ := installs.successive.of_append
  rw [before.versionOf_append follows]
  exact foldl_applyEdit_files_congr same [edit]

/-- A step that ends in an open database leaves it with the version of its manifest. -/
theorem Opening.Tracks.opened {memory : Memory α β} (tracks : opening.Tracks files)
    (moves : opening.Moves options files action (.running memory) files') :
    memory.Tracks files'.manifest.edits ∧
      memory.Matches files'.manifest.edits files'.manifest.edits := by
  have stageTracks := tracks.stage
  generalize isProcess : Process.running memory = process at moves
  cases moves with
  | skipEdit stage isLogs hasLog saves =>
    cases isProcess
    rw [stage] at stageTracks
    exact tracks_opened tracks.successive tracks.picks stageTracks.files stageTracks.readable
  | install edit stage =>
    cases isProcess
    rw [stage] at stageTracks
    exact @tracks_opened _ _ _ (opening.memory.install edit) _ stageTracks.successive
      (picksAbove_finalize rfl) stageTracks.applied stageTracks.readable
  | _ => cases isProcess

omit [Inhabited β] in
theorem Opening.Tracks.of_manifests (tracks : opening.Tracks files)
    (manifests : files'.manifests = files.manifests) (current : files'.current = files.current) :
    opening.Tracks files' := by
  have same : files'.manifest = files.manifest := by rw [Files.manifest, manifests, current]; rfl
  refine ⟨?_, tracks.picks, ?_⟩
  · rw [same]
    exact tracks.successive
  · rw [same, manifests]
    exact tracks.stage

omit [Inhabited β] in
theorem Opening.Tracks.putTable (tracks : opening.Tracks files) (number : Nat)
    (entries : List (Entry α β)) (synced : Bool) :
    opening.Tracks (files.putTable number entries synced) := by
  cases entries with
  | nil => exact tracks
  | cons first rest => exact tracks.of_manifests rfl rfl

omit [Inhabited β] in
/-- The recovery goes on without a look at the manifests. -/
theorem Opening.Tracks.goOn {opening' : Opening α β} (tracks : opening.Tracks files)
    (version : opening'.memory.db.version = opening.memory.db.version)
    (stage : opening.stage = .replaying) (stage' : opening'.stage = .replaying)
    (newFiles : opening'.edit.newFiles = opening.edit.newFiles) : opening'.Tracks files := by
  have replayed := tracks.stage
  rw [stage] at replayed
  refine ⟨tracks.successive, version ▸ tracks.picks, ?_⟩
  rw [stage', OpenStage.Tracks, version]
  exact replayed.of_newFiles newFiles

/-- The edit of the recovery joins the manifest. -/
theorem Opening.Tracks.appendReused (tracks : opening.Tracks files)
    (grounded : opening.Grounded files) {edit : VersionEdit α β}
    (stage : opening.stage = .logging edit .started) (reused : opening.manifestReused = true) :
    Opening.Tracks { opening with stage := .logging edit .written }
      (files.appendEdit opening.memory.manifestFileNumber ⟨edit, []⟩) := by
  have replayed := tracks.stage
  rw [stage] at replayed
  obtain ⟨-, -, numbered, -⟩ := grounded.logging edit .started stage
  have appended : (files.appendEdit opening.memory.manifestFileNumber ⟨edit, []⟩).manifest.edits =
      files.manifest.edits ++ [edit] := by
    rw [← grounded.reused reused, appendEdit_edits]
  have installs := replayed.installs_append tracks.successive
    (by rw [read_append numbered]; rfl)
  refine ⟨?_, tracks.picks, ?_⟩
  · rw [appended]
    exact installs.successive
  · have target : ((files.appendEdit opening.memory.manifestFileNumber ⟨edit, []⟩).manifests.file
        opening.memory.manifestFileNumber).edits = files.manifest.edits ++ [edit] := by
      rw [← appended, ← grounded.reused reused]
      rfl
    rw [target]
    exact installs

/-- The new manifest begins with a snapshot. -/
theorem Opening.Tracks.appendCreated (tracks : opening.Tracks files)
    (grounded : opening.Grounded files) {edit : VersionEdit α β}
    (stage : opening.stage = .logging edit .started) (created : opening.manifestReused = false) :
    Opening.Tracks { opening with stage := .logging edit .written }
      { files with manifests := files.manifests.put opening.memory.manifestFileNumber
        <| opening.createdManifest files edit } := by
  have replayed := tracks.stage
  rw [stage] at replayed
  obtain ⟨-, -, numbered, -⟩ := grounded.logging edit .started stage
  have sameManifest : ((files.manifests.put opening.memory.manifestFileNumber
      (opening.createdManifest files edit)).file files.current).edits = files.manifest.edits :=
    congrArg ManifestFile.edits (Lib.Shelf.put_file_of_ne _ (grounded.created created) _)
  have target : ((files.manifests.put opening.memory.manifestFileNumber
      (opening.createdManifest files edit)).file opening.memory.manifestFileNumber).edits =
        [opening.memory.snapshot] ++ [edit] := by
    rw [Lib.Shelf.put_file_self]
    rfl
  refine ⟨?_, tracks.picks, ?_⟩
  · rw [Files.manifest, sameManifest]
    exact tracks.successive
  · rw [target]
    exact replayed.installs_snapshot tracks.successive (by rw [read_append numbered]; rfl)

omit [Inhabited β] in
theorem Opening.Tracks.syncManifest (tracks : opening.Tracks files) {edit : VersionEdit α β}
    (stage : opening.stage = .logging edit .written) :
    Opening.Tracks { opening with stage := .logging edit .synced }
      (files.syncManifest opening.memory.manifestFileNumber) := by
  have installs := tracks.stage
  rw [stage] at installs
  have sameEdits : ∀ number, ((files.syncManifest opening.memory.manifestFileNumber).manifests.file
      number).edits = (files.manifests.file number).edits := by
    intro number
    by_cases same : number = opening.memory.manifestFileNumber
    · rw [same, Files.syncManifest]
      simp only [Lib.Shelf.put_file_self]
      rfl
    · exact congrArg ManifestFile.edits (Lib.Shelf.put_file_of_ne _ same _)
  refine ⟨?_, tracks.picks, ?_⟩
  · rw [Files.manifest, sameEdits]
    exact tracks.successive
  · rw [sameEdits]
    exact installs

/-- What is tracked stays so in every step of opening. -/
theorem Opening.Tracks.moves (tracks : opening.Tracks files) (grounded : opening.Grounded files)
    (moves : opening.Moves options files action process files') : process.Tracks files' := by
  have stageTracks := tracks.stage
  cases moves with
  | replay log logs batch unread stage isLogs isUnread => exact tracks.goOn rfl stage stage rfl
  | startFlush mem stage isMem =>
    rw [stage] at stageTracks
    refine Opening.Tracks.putTable ?_ _ mem false
    exact ⟨tracks.successive, tracks.picks, stageTracks, grounded.newNumber_next⟩
  | syncTable number mem stage isMem =>
    rw [stage] at stageTracks
    refine Opening.Tracks.putTable ?_ number mem true
    exact ⟨tracks.successive, tracks.picks, stageTracks⟩
  | tableBuilt number mem stage isMem =>
    rw [stage] at stageTracks
    exact ⟨tracks.successive, tracks.picks, stageTracks.1.addTable stageTracks.2 mem⟩
  | endLog log logs stage isLogs isUnread isMem =>
    rw [Opening.finishLog_eq]
    exact tracks.goOn rfl stage stage rfl
  | reuseLog log stage isLogs isUnread reuses whole =>
    rw [Opening.finishLog_eq]
    exact tracks.goOn rfl stage stage rfl
  | createLog stage isLogs noLog =>
    have created : Opening.Tracks { opening with
        memory := { opening.memory.newFileNumber with
          logFileNumber := opening.memory.db.nextFileNumber }
        edit := opening.edit.setLogNumber opening.memory.db.nextFileNumber
        logOpened := true } files := tracks.goOn rfl stage stage rfl
    exact created.of_manifests rfl rfl
  | logEdit stage isLogs hasLog saves =>
    rw [stage] at stageTracks
    exact ⟨tracks.successive, tracks.picks, stageTracks.of_newFiles rfl⟩
  | skipEdit stage isLogs hasLog saves =>
    have skips : opening.Moves options files .logEdit (LevelDb.Opening.opened opening.memory) files :=
      .skipEdit stage isLogs hasLog saves
    exact (tracks.opened skips).1
  | appendReused edit stage reused => exact tracks.appendReused grounded stage reused
  | appendCreated edit stage created => exact tracks.appendCreated grounded stage created
  | syncManifest edit stage => exact tracks.syncManifest stage
  | install edit stage =>
    have installs : opening.Moves options files .install
        (LevelDb.Opening.opened (opening.memory.install edit))
        { files with current := opening.memory.manifestFileNumber } := .install edit stage
    exact (tracks.opened installs).1

end Moves

/-! ### Every run -/

section Runs

variable [Inhabited β] {options : Options α β} {files : Files α β}

omit [Inhabited β] in
/-- Recovery starts with the version of the edits it reads. -/
theorem Successive.recover (successive : Successive files.manifest.edits)
    {reuseLogs reuseManifest : Bool} {opening : Opening α β}
    (recovers : files.recover reuseLogs reuseManifest = some opening) : opening.Tracks files := by
  obtain ⟨descriptor, reads, rfl⟩ := Files.recover_eq recovers
  have isVersion : descriptor.version = versionOf files.manifest.edits :=
    Descriptor.read_version reads
  refine ⟨successive, ?_, ?_, ?_, List.forall_mem_nil _, List.nodup_nil, List.forall_mem_nil _⟩
  · rw [show (Opening.start files descriptor reuseLogs _).memory.db.version = descriptor.version
      from rfl, isVersion]
    exact picksAbove_finalize rfl
  · exact congrArg Version.files isVersion
  · rw [reads]
    rfl

omit [Inhabited β] in
theorem Successive.crash (successive : Successive files.manifest.edits) (loss : Loss) :
    Successive (files.crash loss).manifest.edits := by
  have cut : (files.crash loss).manifest.edits = files.manifest.edits.take (loss.edits _) :=
    edits_cut _ _
  rw [cut]
  exact successive.take _

omit [Inhabited β] in
theorem Process.Tracks.successive {process : Process α β} (tracks : process.Tracks files) :
    Successive files.manifest.edits := by
  cases process with
  | down => exact tracks
  | opening state => exact Opening.Tracks.successive tracks
  | running memory => exact Memory.Tracks.successive tracks

theorem Store.tracks_step {store store' : Store α β} {action : StoreAction α β}
    (grounded : store.process.Grounded store.files) (tracks : store.process.Tracks store.files)
    (taken : store.step options action = some store') : store'.process.Tracks store'.files := by
  cases action with
  | «open» reuseLogs reuseManifest =>
    rw [Store.step] at taken
    split at taken
    · obtain ⟨opening, recovers, rfl⟩ := Option.map_eq_some_iff.mp taken
      exact tracks.successive.recover recovers
    · cases taken
  | opening action =>
    rw [Store.step] at taken
    split at taken
    · rename_i opening isOpening
      obtain ⟨⟨process, files⟩, steps, rfl⟩ := Option.map_eq_some_iff.mp taken
      rw [isOpening] at grounded tracks
      exact Opening.Tracks.moves tracks grounded (Opening.step_moves steps)
    · cases taken
  | running action =>
    rw [Store.step] at taken
    split at taken
    · rename_i memory isRunning
      obtain ⟨⟨memory', files⟩, steps, rfl⟩ := Option.map_eq_some_iff.mp taken
      rw [isRunning] at grounded tracks
      obtain ⟨flushed, switched, running⟩ := grounded
      exact Memory.Tracks.step tracks running steps
    · cases taken
  | crash loss =>
    cases taken
    exact tracks.successive.crash loss

omit [Inhabited β] in
theorem tracks_created : Successive (Store.created : Store α β).files.manifest.edits :=
  Successive.nil.append ⟨List.forall_mem_nil _, Or.inl ⟨List.nodup_nil, List.forall_mem_nil _⟩⟩

/-- In every state that is reached the manifest holds edits that follow each other. -/
theorem Store.Reached.tracks {store : Store α β} (reached : store.Reached options) :
    store.process.Tracks store.files := by
  have both : store.process.Grounded store.files ∧ store.process.Tracks store.files :=
    @Lib.Reachable.invariant _ _ _ _ _
      (fun state => state.process.Grounded state.files ∧ state.process.Tracks state.files)
      ⟨grounded_created, tracks_created⟩
      (fun _ _ _ both _ taken => ⟨Store.grounded_step both.1 taken,
        Store.tracks_step both.1 both.2 taken⟩) _ reached
  exact both.2

end Runs

end LevelDb
