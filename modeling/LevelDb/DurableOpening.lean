/-
This file proves that `DB::Open` finds what was promised to sync writers and promises it again. While
it recovers, an acknowledged batch is kept by the old manifest, is in a log that is still to be
replayed, or has its entries in the memtable of the replay or in a table that the edit of the
recovery adds. The new manifest keeps them all: it begins with a snapshot of the version, and nothing is
deleted before it is synced and installed.
-/

import LevelDb.DurableRunning

namespace LevelDb

variable {α β : Type} [LinearOrder α] [Inhabited β]

/-! ### The invariant -/

/-- Where an acknowledged batch is while the logs are replayed. -/
def Opening.Recovers (opening : Opening α β) (files : Files α β) (batch : WriteBatch α β) : Prop :=
  (∀ entry ∈ batch.entries, Kept files.manifest.records entry) ∨
    (∃ log ∈ opening.logs.tail, batch ∈ (files.logs.file log).records) ∨
    batch ∈ opening.unread ∨
    ∀ entry ∈ batch.entries, entry ∈ opening.mem.getD [] ∨
      ∃ added ∈ opening.edit.newFiles, entry ∈ added.2.entries

/-- The new manifest has a snapshot with the history of what was dropped, and the edit. -/
structure Opening.Rewrites (opening : Opening α β) (files : Files α β) (edit : VersionEdit α β)
    (stage : ManifestStage) : Prop where
  newFiles : edit.newFiles = opening.edit.newFiles
  deletedFiles : edit.deletedFiles = opening.edit.deletedFiles
  records : stage ≠ .started →
    (files.manifests.file opening.memory.manifestFileNumber).records =
      [⟨opening.memory.snapshot, files.manifest.records.flatMap ManifestRecord.dropped⟩, ⟨edit, []⟩]
  synced : stage = .synced → (files.manifests.file opening.memory.manifestFileNumber).synced = 2

/-- What holds while a database is opened without `reuse_logs`. -/
structure Opening.Durable (opening : Opening α β) (files : Files α β)
    (acknowledged : List (WriteBatch α β)) : Prop where
  promised : files.Durable acknowledged
  replays : opening.reuseLogs = false
  creates : opening.manifestReused = false
  saves : opening.saveManifest = true
  version : opening.memory.db.version.files = (versionOf files.manifest.edits).files
  deletes : opening.edit.deletedFiles = ∅
  tables : ∀ added ∈ opening.edit.newFiles, files.HasTable added.2
  building : ∀ number, opening.stage = .building number true → ∀ content ∈ opening.mem,
    content ≠ [] → number ∈ files.tables.numbers ∧ files.tables.file number = ⟨content, true⟩
  ended : opening.logs = [] → opening.unread = []
  recovers : ∀ batch ∈ acknowledged, opening.Recovers files batch
  rewrites : ∀ edit stage, opening.stage = .logging edit stage →
    opening.Rewrites files edit stage

/-! ### The start -/

section Start

variable {files files' : Files α β} {acknowledged : List (WriteBatch α β)} {opening : Opening α β}

/-- Files that change nothing that was promised. -/
theorem Files.Durable.frame (durable : files.Durable acknowledged)
    (manifest : files'.manifest = files.manifest)
    (logs : ∀ number ∈ files.logs.numbers, number ∈ files'.logs.numbers ∧
      (files.logs.file number).durable ⊆ (files'.logs.file number).durable)
    (tables : ∀ kept, files.manifest.synced ≤ kept → ∀ level,
      ∀ file ∈ (versionOf (files.manifest.edits.take kept)).files level,
        files.HasTable file → files'.HasTable file) : files'.Durable acknowledged := by
  refine ⟨durable.readable.of_tables manifest tables, fun batch member => ?_⟩
  obtain ⟨pos, found⟩ := durable.found batch member
  rw [Files.Finds, manifest]
  refine ⟨pos, fun kept le descriptor reads => ?_⟩
  refine (found kept le descriptor reads).imp_left ?_
  rintro ⟨number, there, log_le, inLog⟩
  obtain ⟨there', grows⟩ := logs number there
  exact ⟨number, there', log_le, grows inLog⟩

/-- The replay starts with the logs that have the batches which are not in tables. -/
theorem Files.Durable.start (durable : files.Durable acknowledged) {reuseManifest : Bool}
    (recovers : files.recover false reuseManifest = some opening) :
    opening.Durable files acknowledged := by
  obtain ⟨descriptor, reads, rfl⟩ := Files.recover_eq recovers
  refine
    { promised := durable
      replays := rfl
      creates := rfl
      saves := rfl
      version := congrArg Version.files (Descriptor.read_version reads)
      deletes := rfl
      tables := List.forall_mem_nil _
      building := fun number impossible => by cases impossible
      ended := fun isLogs => ?_
      recovers := fun batch member => ?_
      rewrites := fun edit stage impossible => by cases impossible }
  · have isList : logsToReplay files descriptor = [] := isLogs
    have unread : nextUnread files (logsToReplay files descriptor) = [] := by
      rw [isList]
      rfl
    exact unread
  · obtain ⟨-, found⟩ := durable.found batch member
    have finds := found _ durable.readable.synced_le descriptor
    rw [files.manifest.take_edits_length, List.take_length] at finds
    obtain ⟨number, there, log_le, inLog⟩ | isKept := finds reads
    · have isReplayed : number ∈ logsToReplay files descriptor :=
        mem_logsToReplay.mpr ⟨there, Or.inl log_le⟩
      have inRecords := List.mem_of_mem_take inLog
      cases isList : logsToReplay files descriptor with
      | nil =>
        rw [isList] at isReplayed
        cases isReplayed
      | cons first rest =>
        rw [isList] at isReplayed
        obtain rfl | later := List.mem_cons.mp isReplayed
        · have unread : batch ∈ nextUnread files (logsToReplay files descriptor) := by
            rw [isList]
            exact inRecords
          exact Or.inr (Or.inr (Or.inl unread))
        · have inTail : number ∈ (logsToReplay files descriptor).tail := by
            rw [isList]
            exact later
          exact Or.inr (Or.inl ⟨number, inTail, inRecords⟩)
    · exact Or.inl isKept

end Start

/-! ### The replay -/

section Replay

variable {options : Options α β} {files files' : Files α β} {acknowledged : List (WriteBatch α β)}
  {opening : Opening α β}

theorem Opening.Durable.replay (durable : opening.Durable files acknowledged) {log : Nat}
    {logs : List Nat} {batch : WriteBatch α β} {unread : List (WriteBatch α β)} {sequence : Nat}
    (stage : opening.stage = .replaying) (isLogs : opening.logs = log :: logs)
    (isUnread : opening.unread = batch :: unread) :
    Opening.Durable { opening with
      unread
      mem := some (insertInto (opening.mem.getD []) batch.entries)
      maxSequence := sequence } files acknowledged := by
  refine
    { durable with
      building := fun number impossible => by cases stage.symm.trans impossible
      ended := fun none => by cases isLogs.symm.trans none
      recovers := fun other member => ?_
      rewrites := fun edit logging impossible => by cases stage.symm.trans impossible }
  obtain isKept | inTail | isLeft | inMem := durable.recovers other member
  · exact Or.inl isKept
  · exact Or.inr (Or.inl inTail)
  · rw [isUnread] at isLeft
    obtain rfl | later := List.mem_cons.mp isLeft
    · exact Or.inr (Or.inr (Or.inr fun entry isEntry =>
        Or.inl (mem_insertInto.mpr (Or.inr isEntry))))
    · exact Or.inr (Or.inr (Or.inl later))
  · exact Or.inr (Or.inr (Or.inr fun entry isEntry => (inMem entry isEntry).imp_left fun inMem =>
      mem_insertInto.mpr (Or.inl inMem)))

/-- A table with a new number is written. -/
theorem Opening.Durable.putTable (durable : opening.Durable files acknowledged) {number : Nat}
    (isNew : NewNumber (files.manifest.edits ++ [opening.edit]) number)
    (notBuilding : ∀ number, opening.stage ≠ .building number true)
    (entries : List (Entry α β)) (synced : Bool) :
    opening.Durable (files.putTable number entries synced) acknowledged := by
  obtain ⟨isOld, differs⟩ := newNumber_append.mp isNew
  have manifest := putTable_manifest files number entries synced
  have logs := putTable_logs files number entries synced
  have manifests : (files.putTable number entries synced).manifests = files.manifests := by
    cases entries <;> rfl
  refine
    { durable with
      promised := durable.promised.frame manifest (fun other there => ?_)
        fun kept le level file inVersion present =>
          present.putTable (isOld.ne_of_kept inVersion) _ _
      version := ?_
      tables := fun added isAdded => (durable.tables added isAdded).putTable (differs added isAdded) _ _
      building := fun other building => absurd building (notBuilding other)
      recovers := fun batch member => ?_
      rewrites := fun edit stage isLogging => ?_ }
  · rw [logs]
    exact ⟨there, List.Subset.refl _⟩
  · rw [manifest]
    exact durable.version
  · rw [Opening.Recovers, manifest, logs]
    exact durable.recovers batch member
  · have rewrites := durable.rewrites edit stage isLogging
    refine ⟨rewrites.newFiles, rewrites.deletedFiles, ?_, ?_⟩
    · rw [manifest, manifests]
      exact rewrites.records
    · rw [manifests]
      exact rewrites.synced

/-- The memtable of the replay is in the table that was built. -/
theorem Opening.Durable.tableBuilt (durable : opening.Durable files acknowledged) {number : Nat}
    {mem : List (Entry α β)} {pending : Finset Nat} (stage : opening.stage = .building number true)
    (isMem : opening.mem = some mem) :
    Opening.Durable { opening with
      memory := { opening.memory with pendingOutputs := pending }
      mem := none
      edit := writeLevel0Table options none number mem opening.edit
      stage := .replaying } files acknowledged := by
  have recovers : (∀ added ∈ opening.edit.newFiles,
      added ∈ (writeLevel0Table options none number mem opening.edit).newFiles) →
      (∀ entry ∈ mem, ∃ added ∈ (writeLevel0Table options none number mem opening.edit).newFiles,
        entry ∈ added.2.entries) → ∀ batch ∈ acknowledged,
      Opening.Recovers { opening with
        memory := { opening.memory with pendingOutputs := pending }
        mem := none
        edit := writeLevel0Table options none number mem opening.edit
        stage := .replaying } files batch := by
    intro stays isTable batch member
    obtain isKept | inTail | isLeft | inMem := durable.recovers batch member
    · exact Or.inl isKept
    · exact Or.inr (Or.inl inTail)
    · exact Or.inr (Or.inr (Or.inl isLeft))
    · refine Or.inr (Or.inr (Or.inr fun entry isEntry => Or.inr ?_))
      obtain inMem | ⟨added, isAdded, inFile⟩ := inMem entry isEntry
      · rw [isMem] at inMem
        exact isTable entry inMem
      · exact ⟨added, stays added isAdded, inFile⟩
  obtain rfl | nonempty := eq_or_ne mem []
  · have same : writeLevel0Table options none number ([] : List (Entry α β)) opening.edit =
        opening.edit := rfl
    rw [same] at recovers ⊢
    exact
      { durable with
        building := fun number impossible => by cases impossible
        recovers := recovers (fun _ isAdded => isAdded) (List.forall_mem_nil _)
        rewrites := fun edit logging impossible => by cases impossible }
  · obtain ⟨-, empty⟩ | ⟨file, isNumber, isContent, isAdded⟩ :=
      writeLevel0Table_added options none number mem opening.edit
    · exact absurd empty nonempty
    · rw [isAdded] at recovers ⊢
      have newFiles : (opening.edit.addFile (outputLevel options none file) file).newFiles =
          opening.edit.newFiles ++ [(outputLevel options none file, file)] := rfl
      refine
        { durable with
          tables := ?_
          building := fun number impossible => by cases impossible
          recovers := recovers (fun _ old => List.mem_append_left _ old) fun entry member =>
            ⟨_, List.mem_append_right _ (List.mem_singleton_self _), isContent.symm ▸ member⟩
          rewrites := fun edit logging impossible => by cases impossible }
      rw [newFiles]
      refine List.forall_mem_append.mpr ⟨durable.tables, List.forall_mem_singleton.mpr ?_⟩
      rw [Files.HasTable, isNumber, isContent]
      exact durable.building number stage mem isMem nonempty

/-- The next log comes first. -/
theorem Opening.Durable.finishLog (durable : opening.Durable files acknowledged) {log : Nat}
    {logs : List Nat} (stage : opening.stage = .replaying) (isLogs : opening.logs = log :: logs)
    (isUnread : opening.unread = []) (isMem : opening.mem = none) :
    (opening.finishLog files log logs).Durable files acknowledged := by
  rw [Opening.finishLog_eq]
  refine
    { durable with
      building := fun number impossible => by cases stage.symm.trans impossible
      ended := fun isLogs => ?_
      recovers := fun batch member => ?_
      rewrites := fun edit logging impossible => by cases stage.symm.trans impossible }
  · have none : logs = [] := isLogs
    have unread : nextUnread files logs = [] := by
      rw [none]
      rfl
    exact unread
  · obtain isKept | ⟨other, inTail, inLog⟩ | isLeft | inMem := durable.recovers batch member
    · exact Or.inl isKept
    · rw [isLogs] at inTail
      cases logs with
      | nil => cases inTail
      | cons next rest =>
        obtain rfl | later := List.mem_cons.mp inTail
        · exact Or.inr (Or.inr (Or.inl inLog))
        · exact Or.inr (Or.inl ⟨other, later, inLog⟩)
    · rw [isUnread] at isLeft
      cases isLeft
    · rw [isMem] at inMem
      exact Or.inr (Or.inr (Or.inr inMem))

end Replay

/-! ### The new manifest -/

section Manifest

variable {files files' : Files α β} {acknowledged : List (WriteBatch α β)} {opening : Opening α β}

/-- A new log gets a number that no other has. -/
theorem Opening.Durable.createLog (durable : opening.Durable files acknowledged)
    (grounded : opening.Grounded files) (stage : opening.stage = .replaying)
    (isLogs : opening.logs = []) :
    Opening.Durable { opening with
      memory := { opening.memory.newFileNumber with
        logFileNumber := opening.memory.db.nextFileNumber }
      edit := opening.edit.setLogNumber opening.memory.db.nextFileNumber
      logOpened := true } (files.createLog opening.memory.db.nextFileNumber) acknowledged := by
  have differs : ∀ number ∈ files.logs.numbers, number ≠ opening.memory.db.nextFileNumber :=
    fun number there => (grounded.replays.done number there
      (isLogs.symm ▸ List.not_mem_nil)).1.ne
  refine
    { durable with
      promised := durable.promised.frame rfl
        (fun number there => ⟨Lib.Shelf.mem_put.mpr (Or.inr there), ?_⟩)
        fun _ _ _ _ _ present => present
      building := fun number impossible => by cases stage.symm.trans impossible
      recovers := fun batch member => ?_
      rewrites := fun edit logging impossible => by cases stage.symm.trans impossible }
  · have sameLog : (files.createLog opening.memory.db.nextFileNumber).logs.file number =
        files.logs.file number := Lib.Shelf.put_file_of_ne _ (differs number there) _
    rw [sameLog]
    exact List.Subset.refl _
  · obtain isKept | ⟨log, inTail, -⟩ | rest := durable.recovers batch member
    · exact Or.inl isKept
    · rw [isLogs] at inTail
      cases inTail
    · exact Or.inr (Or.inr rest)

theorem Opening.Durable.logEdit (durable : opening.Durable files acknowledged)
    (edit : VersionEdit α β) (newFiles : edit.newFiles = opening.edit.newFiles)
    (deletedFiles : edit.deletedFiles = opening.edit.deletedFiles) :
    Opening.Durable { opening with stage := .logging edit .started } files acknowledged :=
  { durable with
    building := fun number impossible => by cases impossible
    rewrites := fun other logging isLogging => by
      cases isLogging
      exact ⟨newFiles, deletedFiles, fun later => absurd rfl later, fun impossible => by cases impossible⟩ }

/-- Another manifest than the one that `CURRENT` names is written. -/
theorem Opening.Durable.writeOther (durable : opening.Durable files acknowledged)
    (grounded : opening.Grounded files) {manifest : ManifestFile α β} {edit : VersionEdit α β}
    {stage : ManifestStage}
    (rewrites : Opening.Rewrites { opening with stage := .logging edit stage }
      { files with manifests :=
        (files.manifests.put opening.memory.manifestFileNumber manifest) } edit stage) :
    Opening.Durable { opening with stage := .logging edit stage }
      { files with manifests := files.manifests.put opening.memory.manifestFileNumber manifest }
        acknowledged := by
  have same : Files.manifest { files with manifests :=
      (files.manifests.put opening.memory.manifestFileNumber manifest) } = files.manifest :=
    Lib.Shelf.put_file_of_ne _ (grounded.created durable.creates) _
  refine
    { durable with
      promised := durable.promised.frame same (fun _ there => ⟨there, List.Subset.refl _⟩)
        fun _ _ _ _ _ present => present
      version := ?_
      building := fun number impossible => by cases impossible
      recovers := fun batch member => ?_
      rewrites := fun other logging isLogging => ?_ }
  · rw [same]
    exact durable.version
  · rw [Opening.Recovers, same]
    exact durable.recovers batch member
  · cases isLogging
    exact rewrites

theorem Opening.Durable.appendCreated (durable : opening.Durable files acknowledged)
    (grounded : opening.Grounded files) {edit : VersionEdit α β}
    (stage : opening.stage = .logging edit .started) :
    Opening.Durable { opening with stage := .logging edit .written }
      { files with manifests := files.manifests.put opening.memory.manifestFileNumber
        <| opening.createdManifest files edit } acknowledged := by
  have rewrites := durable.rewrites edit .started stage
  refine durable.writeOther grounded ⟨rewrites.newFiles, rewrites.deletedFiles, fun _ => ?_,
    fun impossible => by cases impossible⟩
  have same : Files.manifest { files with manifests := (files.manifests.put
      opening.memory.manifestFileNumber (opening.createdManifest files edit)) } = files.manifest :=
    Lib.Shelf.put_file_of_ne _ (grounded.created durable.creates) _
  rw [same]
  dsimp only
  rw [Lib.Shelf.put_file_self]
  rfl

theorem Opening.Durable.syncManifest (durable : opening.Durable files acknowledged)
    (grounded : opening.Grounded files) {edit : VersionEdit α β}
    (stage : opening.stage = .logging edit .written) :
    Opening.Durable { opening with stage := .logging edit .synced }
      (files.syncManifest opening.memory.manifestFileNumber) acknowledged := by
  have rewrites := durable.rewrites edit .written stage
  have records := rewrites.records fun impossible => by cases impossible
  refine durable.writeOther grounded ⟨rewrites.newFiles, rewrites.deletedFiles, fun _ => ?_, fun _ => ?_⟩
  · have same : Files.manifest { files with manifests := (files.manifests.put
        opening.memory.manifestFileNumber
          (files.manifests.file opening.memory.manifestFileNumber).sync) } = files.manifest :=
      Lib.Shelf.put_file_of_ne _ (grounded.created durable.creates) _
    rw [same]
    dsimp only
    rw [Lib.Shelf.put_file_self]
    exact records
  · dsimp only
    rw [Lib.Shelf.put_file_self, ManifestFile.sync, records]
    rfl

/-- The new manifest keeps every acknowledged batch, and it is synced. -/
theorem Opening.Durable.install (durable : opening.Durable files acknowledged)
    (grounded : opening.Grounded files) (tracks : opening.Tracks files) {edit : VersionEdit α β}
    (stage : opening.stage = .logging edit .synced) :
    Memory.Durable { opening.memory.install edit with work := .collecting none }
      { files with current := opening.memory.manifestFileNumber } acknowledged := by
  have rewrites := durable.rewrites edit .synced stage
  have records := rewrites.records fun impossible => by cases impossible
  have synced := rewrites.synced rfl
  obtain ⟨isLogs, -, numbered, -⟩ := grounded.logging edit .synced stage
  have isMem := (grounded.replays.ended isLogs).1
  have stageTracks := tracks.stage
  rw [stage] at stageTracks
  generalize isFiles : { files with current := opening.memory.manifestFileNumber } = files'
  have isManifest : files'.manifest = files.manifests.file opening.memory.manifestFileNumber := by
    rw [← isFiles]
    rfl
  have isRecords : files'.manifest.records =
      [⟨opening.memory.snapshot, files.manifest.records.flatMap ManifestRecord.dropped⟩] ++
        [⟨edit, []⟩] := isManifest ▸ records
  have isEdits : files'.manifest.edits = [opening.memory.snapshot] ++ [edit] := by
    rw [ManifestFile.edits, isRecords]
    rfl
  have isSynced : files'.manifest.synced = 2 := isManifest ▸ synced
  have successive : Successive ([opening.memory.snapshot] ++ [edit]) := by
    have target := stageTracks.successive
    rw [← isManifest, isEdits] at target
    exact target
  obtain ⟨first, follows⟩ := successive.of_append
  have whole : ∀ {kept}, files'.manifest.synced ≤ kept →
      files'.manifest.records.take kept = files'.manifest.records ∧
        files'.manifest.edits.take kept = files'.manifest.edits := by
    intro kept le
    rw [isSynced] at le
    refine ⟨List.take_of_length_le ?_, List.take_of_length_le ?_⟩
    · rw [isRecords]
      exact le
    · rw [isEdits]
      exact le
  have hasTable : ∀ file, files.HasTable file → files'.HasTable file := by
    rintro file present
    rw [← isFiles]
    exact present
  have length : files'.manifest.records.length = 2 := by
    rw [isRecords]
    rfl
  refine ⟨⟨?_, fun _ kept le => ?_, fun kept le level file inVersion => ?_⟩, ?_, ?_, fun _ _ => ?_,
    ?_, fun batch member => Or.inr fun kept le entry isEntry => ?_⟩
  · rw [isSynced, length]
  · rw [(whole le).2, isEdits, read_append numbered]
    rfl
  · rw [(whole le).2, isEdits] at inVersion
    obtain ⟨new, isAdded, rfl⟩ := mem_versionOf inVersion
    rw [addedFiles_append] at isAdded
    obtain old | isNew := List.mem_append.mp isAdded
    · rw [addedFiles, List.flatMap_singleton] at old
      obtain ⟨-, inOld⟩ := mem_snapshot_newFiles.mp old
      have tables := durable.promised.readable.tables _ durable.promised.readable.synced_le level new
      rw [files.manifest.take_edits_length, ← durable.version] at tables
      exact hasTable new (tables inOld)
    · rw [rewrites.newFiles] at isNew
      exact hasTable new (durable.tables _ isNew)
  · rw [isSynced]
    exact Nat.zero_lt_two
  · exact fun _ impossible => by cases impossible
  · rw [isSynced, length]
  · have write : opening.memory.write = .idle := grounded.quiet.write
    have idle : (opening.memory.install edit).write = .idle := write
    dsimp only
    rw [idle]
    trivial
  · rw [(whole le).1, isRecords]
    have carries : (⟨edit, []⟩ : ManifestRecord α β).Carries [opening.memory.snapshot] := by
      intro level file _ isDeleted
      have deleted : (level, file.number) ∈ edit.deletedFiles := isDeleted
      rw [rewrites.deletedFiles, durable.deletes] at deleted
      exact absurd deleted (Finset.notMem_empty _)
    obtain isKept | ⟨log, inTail, -⟩ | isLeft | inTables := durable.recovers batch member
    · refine Kept.append ?_ first follows carries
      obtain ⟨level, file, inVersion, inFile⟩ | ⟨record, isRecord, isDropped⟩ := isKept entry isEntry
      · have inOld : file ∈ opening.memory.db.version.files level := by
          rw [durable.version]
          exact inVersion
        have inRange : level < Config.kNumLevels := by
          refine Nat.lt_of_not_le fun deep => ?_
          rw [durable.version, tracks.successive.files_eq_nil deep] at inOld
          cases inOld
        exact @kept_of_added _ _ _ [] ⟨opening.memory.snapshot, _⟩ entry Successive.nil
          (tracks.successive.snapshot_follows durable.version) (level, file) (mem_snapshot_newFiles.mpr ⟨inRange, inOld⟩) inFile
      · exact Or.inr ⟨_, List.mem_singleton_self _,
          List.mem_flatMap.mpr ⟨record, isRecord, isDropped⟩⟩
    · rw [isLogs] at inTail
      cases inTail
    · rw [durable.ended isLogs] at isLeft
      cases isLeft
    · obtain inMem | ⟨added, isAdded, inFile⟩ := inTables entry isEntry
      · rw [isMem] at inMem
        cases inMem
      · exact @kept_of_added _ _ _ _ ⟨edit, []⟩ entry first follows added
          (rewrites.newFiles.symm ▸ isAdded) inFile

end Manifest

end LevelDb
