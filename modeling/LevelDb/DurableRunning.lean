/-
This file proves that an open database keeps its promise to sync writers in every step, whatever
calls to the Env fail. An acknowledged batch is in the synced part of a log that is not obsolete, with
its entries in a memtable; or a flush has put the entries into a table of the manifest. The flush is
the only one whose edit gives up a log, and the files that are deleted are needed by no part of the
manifest that a crash can leave.
-/

import LevelDb.DurableFiles
import LevelDb.TrackedOpening

namespace LevelDb

variable {α β : Type} [LinearOrder α]

/-! ### The invariant -/

/-- The inputs of the compaction were added to the manifest, and what it has read of them is in its
outputs or dropped. -/
structure CompactionJob.Carries (job : CompactionJob α β) (edits : List (VersionEdit α β)) :
    Prop where
  inputs : ∀ level file, job.compaction.IsInput level file → ∃ added ∈ addedFiles edits,
    added.2.number = file.number ∧ added.2.entries = file.entries
  progress : ∃ done, makeInputIterator job.compaction = done ++ job.remaining ∧
    job.loop.drop = dropRun job.compaction job.smallestSnapshot DropState.initial done ∧
    job.loop.Fills (keptEntries job.compaction job.smallestSnapshot DropState.initial done)

/-- The edit that `LogAndApply` is writing loses no entry. -/
structure Logging (edit : VersionEdit α β) (stage : ManifestStage) (caller : LogCaller α β)
    (imm : Option (List (Entry α β))) (files : Files α β) : Prop where
  tables : ∀ added ∈ edit.newFiles, files.HasTable added.2
  flushed : ∀ inside, caller = .compactMemTable inside → ∀ content ∈ imm, ∀ entry ∈ content,
    ∃ added ∈ edit.newFiles, entry ∈ added.2.entries
  inside : ∀ job ∈ caller.inside, job.Carries files.manifest.edits
  carries : stage = .started → (caller.record edit).Carries files.manifest.edits
  written : stage ≠ .started →
    ∃ front, files.manifest.records = front ++ [caller.record edit]
  synced : stage = .synced → files.manifest.records.length ≤ files.manifest.synced

/-- What the background thread is doing loses no entry. -/
def Work.Durable (imm : Option (List (Entry α β))) (files : Files α β) : Work α β → Prop
  | .idle => True
  | .building number synced inside =>
    (synced = true → ∀ content ∈ imm, content ≠ [] →
      number ∈ files.tables.numbers ∧ files.tables.file number = ⟨content, true⟩) ∧
      ∀ job ∈ inside, job.Carries files.manifest.edits
  | .logging edit stage caller => Logging edit stage caller imm files
  | .compacting job => job.Carries files.manifest.edits
  | .collecting inside => ∀ job ∈ inside, job.Carries files.manifest.edits

variable [Inhabited β]

/-- Where the batch of a sync write is. -/
def WriteStage.Durable (log : LogFile α β) (mem : List (Entry α β)) : WriteStage α β → Prop
  | .idle | .inserted _ false | .failed _ _ => True
  | .logged batch _ => batch ∈ log.records
  | .synced batch => batch ∈ log.durable
  | .inserted batch true => batch ∈ log.durable ∧ ∀ entry ∈ batch.entries, entry ∈ mem

/-- The batch is in the synced part of the log, its entries are in a memtable, and as long as they
are not in tables of the manifest the log is replayed. -/
structure Memory.Buffers (memory : Memory α β) (files : Files α β) (number : Nat)
    (batch : WriteBatch α β) : Prop where
  there : number ∈ files.logs.numbers
  log_le : memory.logNumber ≤ number
  durable : batch ∈ (files.logs.file number).durable
  inMemory : number = memory.logFileNumber ∧ (∀ entry ∈ batch.entries, entry ∈ memory.db.mem) ∨
    ∃ imm, memory.db.imm = some imm ∧ ∀ entry ∈ batch.entries, entry ∈ imm
  covers : files.Covers number batch

/-- Where an acknowledged batch is. -/
def Memory.Locates (memory : Memory α β) (files : Files α β) (batch : WriteBatch α β) : Prop :=
  (∃ number, memory.Buffers files number batch) ∨ files.Settles batch

/-- An open database keeps its promises. -/
structure Memory.Durable (memory : Memory α β) (files : Files α β)
    (acknowledged : List (WriteBatch α β)) : Prop where
  readable : files.Readable
  opened : 0 < files.manifest.synced
  work : memory.work.Durable memory.db.imm files
  settled : memory.bgError = false → (∀ edit caller, memory.work ≠ .logging edit .written caller) →
    files.manifest.records.length ≤ files.manifest.synced
  write : memory.write.Durable (files.logs.file memory.logFileNumber) memory.db.mem
  located : ∀ batch ∈ acknowledged, memory.Locates files batch

/-- Every acknowledged batch survives every crash. -/
theorem Memory.Durable.durable {memory : Memory α β} {files : Files α β}
    {acknowledged : List (WriteBatch α β)} (durable : memory.Durable files acknowledged) :
    files.Durable acknowledged := by
  refine ⟨durable.readable, fun batch member => ⟨durable.opened, fun kept le descriptor reads => ?_⟩⟩
  obtain ⟨number, buffers⟩ | settles := durable.located batch member
  · obtain log_le | isKept := buffers.covers kept le descriptor reads
    · exact Or.inl ⟨number, buffers.there, log_le, buffers.durable⟩
    · exact Or.inr isKept
  · exact Or.inr (settles kept le)

/-! ### Compactions -/

section Jobs

variable {job : CompactionJob α β} {edits : List (VersionEdit α β)} {edit : VersionEdit α β}

omit [Inhabited β] in
theorem CompactionJob.Carries.append (carries : job.Carries edits) (edit : VersionEdit α β) :
    job.Carries (edits ++ [edit]) := by
  refine ⟨fun level file isInput => ?_, carries.progress⟩
  obtain ⟨added, isAdded, same⟩ := carries.inputs level file isInput
  rw [addedFiles_append]
  exact ⟨added, List.mem_append_left _ isAdded, same⟩

omit [Inhabited β] in
/-- An entry is kept or dropped. -/
theorem mem_keptEntries_or_dropped (compaction : Compaction α β) (smallestSnapshot : Nat)
    (state : DropState α) {input : List (Entry α β)} {entry : Entry α β} (member : entry ∈ input) :
    entry ∈ keptEntries compaction smallestSnapshot state input ∨
      entry ∈ droppedEntries compaction smallestSnapshot state input := by
  induction input generalizing state with
  | nil => cases member
  | cons first rest inductionHypothesis =>
    rw [keptEntries, droppedEntries]
    split
    · obtain rfl | later := List.mem_cons.mp member
      · exact Or.inr List.mem_cons_self
      · exact (inductionHypothesis _ later).imp_right (List.mem_cons_of_mem _)
    · obtain rfl | later := List.mem_cons.mp member
      · exact Or.inl List.mem_cons_self
      · exact (inductionHypothesis _ later).imp_left (List.mem_cons_of_mem _)

omit [Inhabited β] in
/-- The compaction reads files of the manifest. -/
theorem Compaction.Chosen.carries {version : Version α β} {compaction : Compaction α β}
    (chosen : compaction.Chosen version) (same : version.files = (versionOf edits).files)
    (smallestSnapshot next : Nat) :
    CompactionJob.Carries
      { compaction
        manual := none
        smallestSnapshot
        loop := CompactionState.initial next
        remaining := makeInputIterator compaction } edits := by
  refine ⟨fun level file isInput => ?_, [], rfl, rfl, initial_fills next⟩
  have inVersion : file ∈ (versionOf edits).files level := by
    rw [← same]
    obtain ⟨rfl, first⟩ | ⟨rfl, second⟩ := isInput
    · exact chosen.inputs0_sublist.subset first
    · exact chosen.inputs1_sublist.subset second
  obtain ⟨new, isAdded, rfl⟩ := mem_versionOf inVersion
  exact ⟨_, isAdded, rfl, rfl⟩

omit [Inhabited β] in
/-- A round of the loop puts one more entry into the outputs, or drops it. -/
theorem CompactionJob.Carries.visit (carries : job.Carries edits) {options : Options α β}
    {entry : Entry α β} {rest : List (Entry α β)} {loop : CompactionState α β} {next : Nat}
    (remaining : job.remaining = entry :: rest)
    (isLoop : loop = { job.loop with nextFileNumber := next }.step options job.compaction
      job.smallestSnapshot entry) :
    CompactionJob.Carries { job with loop := loop, remaining := rest } edits := by
  obtain ⟨done, split, drop, fills⟩ := carries.progress
  have sameFills : { job.loop with nextFileNumber := next }.Fills
      (keptEntries job.compaction job.smallestSnapshot DropState.initial done) :=
    ⟨fills.built, fills.entries_eq⟩
  have stepped := sameFills.step options job.compaction job.smallestSnapshot entry
  have dropped := step_drop options job.compaction job.smallestSnapshot
    { job.loop with nextFileNumber := next } entry
  rw [← isLoop] at stepped dropped
  refine ⟨carries.inputs, done ++ [entry], ?_, ?_, ?_⟩
  · rw [split, remaining, List.append_assoc]
    rfl
  · rw [dropped, drop, dropRun, dropRun, List.foldl_append]
    rfl
  · rw [keptEntries_append, ← drop]
    exact stepped

omit [Inhabited β] in
/-- The edit of a compaction carries the entries of its inputs. -/
theorem CompactionJob.Carries.record_carries (carries : job.Carries edits)
    (successive : Successive edits) (remaining : job.remaining = []) {options : Options α β}
    (newFiles : edit.newFiles = (installEdit job.compaction
      (job.loop.finish.outputs.map (Output.toFile options))).newFiles)
    (deletedFiles : edit.deletedFiles = (installEdit job.compaction
      (job.loop.finish.outputs.map (Output.toFile options))).deletedFiles) :
    ((LogCaller.installResults job).record edit).Carries edits := by
  intro level file inVersion isDeleted entry inFile
  obtain ⟨input, isInput, sameNumber⟩ :=
    mem_installEdit_deletedFiles.mp ((deletedFiles ▸ isDeleted :))
  obtain ⟨added, isAdded, addedNumber, addedEntries⟩ := carries.inputs level input isInput
  obtain ⟨new, isNew, rfl⟩ := mem_versionOf inVersion
  have sameEntries : added.2.entries = new.entries :=
    successive.entries_eq added isAdded (level, new) isNew (addedNumber.trans sameNumber)
  have isRead : entry ∈ makeInputIterator job.compaction := by
    refine mem_makeInputIterator.mpr ⟨input, ?_, ?_⟩
    · exact isInput.imp And.right And.right
    · rw [← addedEntries, sameEntries]
      exact inFile
  obtain ⟨done, split, -, fills⟩ := carries.progress
  rw [remaining, List.append_nil] at split
  obtain isKept | isDropped := mem_keptEntries_or_dropped job.compaction job.smallestSnapshot
    DropState.initial isRead
  · rw [split, ← fills.entries_eq] at isKept
    obtain ⟨output, isOutput, inOutput⟩ := List.mem_flatMap.mp isKept
    refine Or.inr ⟨(job.compaction.level + 1, output.toFile options), ?_, inOutput⟩
    have isAdded : (job.compaction.level + 1, output.toFile options) ∈ edit.newFiles := by
      rw [newFiles, installEdit_newFiles]
      exact List.mem_map_of_mem (List.mem_map_of_mem isOutput)
    exact isAdded
  · exact Or.inl isDropped

omit [Inhabited β] in
/-- The edit of a trivial move carries its file. -/
theorem Compaction.Chosen.move_carries {version : Version α β} {compaction : Compaction α β}
    (chosen : compaction.Chosen version) (successive : Successive edits)
    (same : version.files = (versionOf edits).files) {options : Options α β}
    (isTrivialMove : compaction.isTrivialMove options = true)
    (newFiles : edit.newFiles = compaction.moveEdit.newFiles)
    (deletedFiles : edit.deletedFiles = compaction.moveEdit.deletedFiles) :
    ((LogCaller.trivialMove : LogCaller α β).record edit).Carries edits := by
  obtain ⟨moved, inputs0, -, isAdded, isDeleted⟩ := moveEdit_eq isTrivialMove
  intro level file inVersion deleted entry inFile
  have isMoved : (level, file.number) = (compaction.level, moved.number) := by
    have member : (level, file.number) ∈ edit.deletedFiles := deleted
    rw [deletedFiles, isDeleted] at member
    exact Finset.mem_singleton.mp member
  obtain ⟨rfl, sameNumber⟩ := Prod.mk.inj isMoved
  have movedIn : moved ∈ (versionOf edits).files compaction.level := by
    rw [← same]
    refine chosen.inputs0_sublist.subset ?_
    rw [inputs0]
    exact List.mem_singleton_self moved
  obtain rfl := successive.placed.eq_of_number inVersion movedIn sameNumber
  refine Or.inr ⟨(compaction.level + 1, file), ?_, inFile⟩
  have isNew : (compaction.level + 1, file) ∈ edit.newFiles := by
    rw [newFiles, isAdded]
    exact List.mem_singleton_self _
  exact isNew

end Jobs

/-! ### Logs -/

section Logs

variable {log : LogFile α β} {logs : Lib.Shelf (LogFile α β)}

omit [LinearOrder α] [Inhabited β] in
theorem durable_append (log : LogFile α β) (batch : WriteBatch α β) :
    log.durable ⊆ (log.append batch).durable :=
  ((List.prefix_append log.records [batch]).take log.synced).subset

omit [LinearOrder α] [Inhabited β] in
theorem durable_sync (log : LogFile α β) : log.durable ⊆ log.sync.durable := by
  rw [LogFile.durable, LogFile.durable, LogFile.sync, List.take_length]
  exact List.take_subset _ _

omit [LinearOrder α] [Inhabited β] in
/-- A log that is written to keeps what was synced. -/
theorem durable_put {number : Nat} (grows : (logs.file number).durable ⊆ log.durable) {other : Nat}
    (there : other ∈ logs.numbers) : other ∈ (logs.put number log).numbers ∧
      (logs.file other).durable ⊆ ((logs.put number log).file other).durable := by
  refine ⟨Lib.Shelf.mem_put.mpr (Or.inr there), ?_⟩
  by_cases same : other = number
  · rw [same, Lib.Shelf.put_file_self]
    exact grows
  · rw [Lib.Shelf.put_file_of_ne _ same]
    exact List.Subset.refl _

end Logs

/-! ### Where a batch is -/

section Located

variable {memory memory' : Memory α β} {files files' : Files α β} {batch : WriteBatch α β}
  {edit : VersionEdit α β} {caller : LogCaller α β} {flushed switched : Nat}

/-- The logs that are not obsolete keep what was synced, and the memtables what they have. -/
theorem Memory.Locates.frame (located : memory.Locates files batch)
    (manifest : files'.manifest = files.manifest)
    (logs : ∀ number ∈ files.logs.numbers, memory.logNumber ≤ number →
      number ∈ files'.logs.numbers ∧
        (files.logs.file number).durable ⊆ (files'.logs.file number).durable)
    (log : memory'.logNumber = memory.logNumber)
    (logFile : memory'.logFileNumber = memory.logFileNumber)
    (mem : memory.db.mem ⊆ memory'.db.mem) (imm : memory'.db.imm = memory.db.imm) :
    memory'.Locates files' batch := by
  obtain ⟨number, buffers⟩ | settles := located
  · obtain ⟨there, grows⟩ := logs number buffers.there buffers.log_le
    refine Or.inl ⟨number, there, log ▸ buffers.log_le, grows buffers.durable, ?_,
      buffers.covers.of_manifest manifest⟩
    rw [logFile, imm]
    exact buffers.inMemory.imp_left fun inMem =>
      ⟨inMem.1, fun entry member => mem (inMem.2 entry member)⟩
  · exact Or.inr (settles.of_manifest manifest)

/-- Nothing that concerns the batch has changed but the manifest. -/
theorem Memory.Locates.same (located : memory.Locates files batch)
    (manifest : files'.manifest = files.manifest) (logs : files'.logs = files.logs)
    (log : memory'.logNumber = memory.logNumber)
    (logFile : memory'.logFileNumber = memory.logFileNumber)
    (mem : memory'.db.mem = memory.db.mem) (imm : memory'.db.imm = memory.db.imm) :
    memory'.Locates files' batch := by
  refine located.frame manifest (fun number there _ => ?_) log logFile ?_ imm
  · rw [logs]
    exact ⟨there, List.Subset.refl _⟩
  · rw [mem]
    exact List.Subset.refl _

/-- The log number that is written is at most that of a log whose batches are not in the tables. -/
theorem Memory.Locates.appendEdit (located : memory.Locates files batch) (readable : files.Readable)
    (grounded : memory.Grounded files flushed switched)
    (isLogging : memory.work = .logging edit .started caller)
    (logging : Logging edit .started caller memory.db.imm files)
    (successive : Successive files.manifest.edits) (follows : edit.Follows files.manifest.edits)
    (appended : files'.manifest = files.manifest.append (caller.record edit))
    (logs : files'.logs = files.logs) (log : memory'.logNumber = memory.logNumber)
    (logFile : memory'.logFileNumber = memory.logFileNumber) (db : memory'.db = memory.db) :
    memory'.Locates files' batch := by
  obtain ⟨logNumber, next, last, completed⟩ := grounded.works.logging _ _ _ isLogging
  have isEdit : (caller.record edit).edit = edit := LogCaller.record_edit caller
  rw [← isEdit] at follows
  obtain ⟨number, buffers⟩ | settles := located
  · refine Or.inl ⟨number, logs ▸ buffers.there, log ▸ buffers.log_le, logs ▸ buffers.durable, ?_, ?_⟩
    · rw [logFile, db]
      exact buffers.inMemory
    · refine buffers.covers.append (isEdit.symm ▸ completed.numbered) ?_ appended
      have writes := completed.writes
      cases caller with
      | compactMemTable inside =>
        obtain ⟨-, rfl, -⟩ := writes
        obtain ⟨isLog, -⟩ | ⟨imm, isImm, inImm⟩ := buffers.inMemory
        · exact Or.inl isLog.ge
        · refine Or.inr fun entry member => ?_
          obtain ⟨added, isAdded, inAdded⟩ :=
            logging.flushed inside rfl imm isImm entry (inImm entry member)
          exact kept_of_added successive follows (isEdit.symm ▸ isAdded) inAdded
      | trivialMove => exact Or.inl (writes.1 ▸ buffers.log_le)
      | installResults job => exact Or.inl (writes.1 ▸ buffers.log_le)
  · exact Or.inr (settles.append readable successive follows (logging.carries rfl) appended)

theorem Memory.Locates.syncManifest (located : memory.Locates files batch)
    (readable : files.Readable) (synced : files'.manifest = files.manifest.sync)
    (logs : files'.logs = files.logs) (log : memory'.logNumber = memory.logNumber)
    (logFile : memory'.logFileNumber = memory.logFileNumber) (db : memory'.db = memory.db) :
    memory'.Locates files' batch := by
  obtain ⟨number, buffers⟩ | settles := located
  · refine Or.inl ⟨number, logs ▸ buffers.there, log ▸ buffers.log_le, logs ▸ buffers.durable, ?_,
      buffers.covers.sync readable synced⟩
    rw [logFile, db]
    exact buffers.inMemory
  · exact Or.inr (settles.sync readable synced)

/-- The memtable becomes the immutable one, and its log stays. -/
theorem Memory.Locates.switchMemTable (located : memory.Locates files batch)
    (grounded : memory.Grounded files flushed switched) (empty : memory.db.imm = none) :
    Memory.Locates { memory with
      db := { memory.db with
        mem := [], imm := some memory.db.mem, nextFileNumber := memory.db.nextFileNumber + 1 }
      logFileNumber := memory.db.nextFileNumber }
      (files.createLog memory.db.nextFileNumber) batch := by
  obtain ⟨number, buffers⟩ | settles := located
  · have differs : number ≠ memory.db.nextFileNumber :=
      ((grounded.sequenced.newest number buffers.there).trans_lt grounded.sequenced.logFile_lt).ne
    have sameLog : (files.createLog memory.db.nextFileNumber).logs.file number =
        files.logs.file number := Lib.Shelf.put_file_of_ne _ differs _
    refine Or.inl ⟨number, Lib.Shelf.mem_put.mpr (Or.inr buffers.there), buffers.log_le, ?_, ?_,
      buffers.covers.of_manifest rfl⟩
    · rw [sameLog]
      exact buffers.durable
    · obtain ⟨-, inMem⟩ | ⟨imm, isImm, -⟩ := buffers.inMemory
      · exact Or.inr ⟨_, rfl, inMem⟩
      · cases empty.symm.trans isImm
  · exact Or.inr (settles.of_manifest rfl)

/-- What a flush has put into a table of the manifest is no longer in a memtable. -/
theorem Memory.Locates.install (located : memory.Locates files batch)
    (grounded : memory.Grounded files flushed switched)
    (isLogging : memory.work = .logging edit .synced caller)
    (logging : Logging edit .synced caller memory.db.imm files)
    (successive : Successive files.manifest.edits) :
    ((memory.install edit).logged caller).Locates files batch := by
  obtain ⟨number, buffers⟩ | settles := located
  · obtain ⟨logNumber, next, last, completed⟩ := grounded.works.logging _ _ _ isLogging
    have isLog : (memory.install edit).logNumber = logNumber := by
      rw [Memory.install, completed.numbered.logNumber]
      rfl
    have writes := completed.writes
    cases caller with
    | compactMemTable inside =>
      obtain ⟨-, rfl, -⟩ := writes
      obtain ⟨isFile, inMem⟩ | ⟨imm, isImm, inImm⟩ := buffers.inMemory
      · exact Or.inl ⟨number, buffers.there, (isLog.trans isFile.symm).le, buffers.durable,
          Or.inl ⟨isFile, inMem⟩, buffers.covers⟩
      · refine Or.inr fun kept le entry member => ?_
        obtain ⟨front, split⟩ := logging.written (fun impossible => by cases impossible)
        rw [List.take_of_length_le ((logging.synced rfl).trans le), split]
        obtain ⟨added, isAdded, inAdded⟩ :=
          logging.flushed inside rfl imm isImm entry (inImm entry member)
        rw [ManifestFile.edits, split, List.map_append] at successive
        obtain ⟨before, follows⟩ := successive.of_append
        exact kept_of_added before follows isAdded inAdded
    | trivialMove =>
      exact Or.inl ⟨number, buffers.there, (isLog.trans writes.1).le.trans buffers.log_le,
        buffers.durable, buffers.inMemory, buffers.covers⟩
    | installResults job =>
      exact Or.inl ⟨number, buffers.there, (isLog.trans writes.1).le.trans buffers.log_le,
        buffers.durable, buffers.inMemory, buffers.covers⟩
  · exact Or.inr settles

end Located

/-! ### Every step -/

section Steps

variable {options : Options α β} {memory memory' : Memory α β} {files files' : Files α β}
  {action : RunningAction α β} {flushed switched : Nat} {acknowledged : List (WriteBatch α β)}

omit [LinearOrder α] [Inhabited β] in
theorem putTable_logs (files : Files α β) (number : Nat) (entries : List (Entry α β))
    (synced : Bool) : (files.putTable number entries synced).logs = files.logs := by
  cases entries <;> rfl

theorem Memory.Locates.afterFlush {batch : WriteBatch α β}
    (located : memory.Locates files batch) (inside : Option (CompactionJob α β)) :
    (memory.afterFlush inside).Locates files batch := by
  cases inside <;> exact located.same rfl rfl rfl rfl rfl rfl

omit [LinearOrder α] [Inhabited β] in
theorem Memory.logFailed_same (memory : Memory α β) (caller : LogCaller α β) :
    (memory.logFailed caller).logNumber = memory.logNumber ∧
      (memory.logFailed caller).logFileNumber = memory.logFileNumber ∧
      (memory.logFailed caller).write = memory.write := by
  cases caller with
  | compactMemTable inside => cases inside <;> exact ⟨rfl, rfl, rfl⟩
  | trivialMove => exact ⟨rfl, rfl, rfl⟩
  | installResults job => exact ⟨rfl, rfl, rfl⟩

/-- The manifest stays as it is, a record joins it, or it is synced. -/
theorem Memory.Grounded.manifest_moves (grounded : memory.Grounded files flushed switched)
    (moves : memory.Moves options files action memory' files') :
    (files'.manifest = files.manifest ∧ (∀ written, action ≠ .appendEdit true written) ∧
        action ≠ .syncManifest true) ∨
      (∃ edit caller succeeds written, action = .appendEdit succeeds written ∧
        memory.work = .logging edit .started caller ∧
          files'.manifest = files.manifest.append (caller.record edit)) ∨
      ∃ edit caller, action = .syncManifest true ∧ memory.work = .logging edit .written caller ∧
        files'.manifest = files.manifest.sync := by
  have appended : ∀ record, (files.appendEdit memory.manifestFileNumber record).manifest =
      files.manifest.append record := by
    intro record
    rw [← grounded.backs.isCurrent]
    exact Lib.Shelf.put_file_self _ _ _
  have other : (∀ written, action ≠ .appendEdit true written) → action ≠ .syncManifest true →
      files'.manifest = files.manifest → (files'.manifest = files.manifest ∧
        (∀ written, action ≠ .appendEdit true written) ∧ action ≠ .syncManifest true) :=
    fun noAppend noSync same => ⟨same, noAppend, noSync⟩
  cases moves with
  | append =>
    refine Or.inl (other (fun _ impossible => by cases impossible)
      (fun impossible => by cases impossible) ?_)
    split <;> rfl
  | startFlush =>
    exact Or.inl (other (fun _ impossible => by cases impossible)
      (fun impossible => by cases impossible) (putTable_manifest _ _ _ _))
  | syncTable =>
    exact Or.inl (other (fun _ impossible => by cases impossible)
      (fun impossible => by cases impossible) (putTable_manifest _ _ _ _))
  | read _ reads =>
    refine Or.inl (other (fun written isAppend => ?_) (fun isSync => ?_) rfl)
    · rw [isAppend] at reads
      cases reads
    · rw [isSync] at reads
      cases reads
  | appendEdit written edit caller stage =>
    exact Or.inr (Or.inl ⟨edit, caller, true, written, rfl, stage, appended _⟩)
  | appendEditFails written edit caller stage =>
    cases written with
    | true => exact Or.inr (Or.inl ⟨edit, caller, false, true, rfl, stage, appended _⟩)
    | false =>
      exact Or.inl (other (fun _ impossible => by cases impossible)
        (fun impossible => by cases impossible) rfl)
  | syncManifest edit caller stage =>
    refine Or.inr (Or.inr ⟨edit, caller, rfl, stage, ?_⟩)
    rw [← grounded.backs.isCurrent]
    exact Lib.Shelf.put_file_self _ _ _
  | removeFile kind =>
    refine Or.inl (other (fun _ impossible => by cases impossible)
      (fun impossible => by cases impossible) ?_)
    cases kind <;> rfl
  | _ =>
    exact Or.inl (other (fun _ impossible => by cases impossible)
      (fun impossible => by cases impossible) rfl)

/-- Every batch that was located is located after the step. -/
theorem Memory.Durable.locates (durable : memory.Durable files acknowledged)
    (grounded : memory.Grounded files flushed switched) (tracks : memory.Tracks files.manifest.edits)
    (moves : memory.Moves options files action memory' files') {batch : WriteBatch α β}
    (located : memory.Locates files batch) : memory'.Locates files' batch := by
  have work := durable.work
  have follows := tracks.work
  cases moves with
  | append ops sync succeeds written appended idle =>
    by_cases isWritten : (succeeds || written) = true
    · rw [if_pos isWritten]
      exact located.frame rfl (fun number there _ => durable_put (durable_append _ _) there) rfl rfl
        (List.Subset.refl _) rfl
    · rw [if_neg isWritten]
      exact located.same rfl rfl rfl rfl rfl rfl
  | syncLog synced stage =>
    exact located.frame rfl (fun number there _ => durable_put (durable_sync _) there) rfl rfl
      (List.Subset.refl _) rfl
  | insert inserted sync stage =>
    exact located.frame rfl (fun number there _ => ⟨there, List.Subset.refl _⟩) rfl rfl
      (fun entry member => mem_insertInto.mpr (Or.inl member)) rfl
  | switchMemTable idle noError empty => exact located.switchMemTable grounded empty
  | startFlush inside imm isImm stage =>
    exact located.same (putTable_manifest _ _ _ _) (putTable_logs _ _ _ _) rfl rfl rfl rfl
  | syncTable number inside imm isImm stage =>
    exact located.same (putTable_manifest _ _ _ _) (putTable_logs _ _ _ _) rfl rfl rfl rfl
  | syncTableFails number inside imm isImm stage =>
    refine Memory.Locates.afterFlush ?_ inside
    exact located.same rfl rfl rfl rfl rfl rfl
  | appendEdit written edit caller stage =>
    rw [stage] at work follows
    refine located.appendEdit durable.readable grounded stage work tracks.successive follows.1 ?_ rfl
      rfl rfl rfl
    rw [← grounded.backs.isCurrent]
    exact Lib.Shelf.put_file_self _ _ _
  | appendEditFails written edit caller stage =>
    rw [stage] at work follows
    obtain ⟨log, logFile, -⟩ := memory.logFailed_same caller
    cases written with
    | true =>
      refine located.appendEdit durable.readable grounded stage work tracks.successive follows.1 ?_
        rfl log logFile (Memory.logFailed_db _ _)
      rw [← grounded.backs.isCurrent]
      exact Lib.Shelf.put_file_self _ _ _
    | false =>
      exact located.same rfl rfl log logFile (by rw [Memory.logFailed_db])
        (by rw [Memory.logFailed_db])
  | syncManifest edit caller stage =>
    refine located.syncManifest durable.readable ?_ rfl rfl rfl rfl
    rw [← grounded.backs.isCurrent]
    exact Lib.Shelf.put_file_self _ _ _
  | syncManifestFails edit caller stage =>
    obtain ⟨log, logFile, -⟩ := memory.logFailed_same caller
    exact located.same rfl rfl log logFile (by rw [Memory.logFailed_db])
      (by rw [Memory.logFailed_db])
  | install edit caller stage =>
    rw [stage] at work
    exact located.install grounded stage work tracks.successive
  | removeFile kind number inside stage noError obsolete there =>
    refine located.frame ?_ (fun other present log_le => ?_) rfl rfl (List.Subset.refl _) rfl
    · cases kind <;> rfl
    · cases kind with
      | log =>
        have less := Memory.lt_of_keeps_log obsolete
        exact ⟨Lib.Shelf.mem_remove.mpr ⟨(less.trans_le log_le).ne', present⟩, List.Subset.refl _⟩
      | table => exact ⟨present, List.Subset.refl _⟩
      | manifest => exact ⟨present, List.Subset.refl _⟩
  | endCollecting inside stage => exact located.afterFlush inside
  | _ => exact located.same rfl rfl rfl rfl rfl rfl

/-- The tables that the manifest can need are not deleted. -/
theorem Memory.Durable.removeTable (durable : memory.Durable files acknowledged)
    (tracks : memory.Tracks files.manifest.edits) {number : Nat}
    {inside : Option (CompactionJob α β)} (stage : memory.work = .collecting inside)
    (noError : memory.bgError = false) (obsolete : memory.keeps .table number = false) :
    (files.remove number .table).Readable := by
  refine durable.readable.of_tables rfl fun kept le level file inVersion present => ?_
  have length_le := durable.settled noError fun edit caller impossible => by
    cases stage.symm.trans impossible
  have whole : files.manifest.edits.take kept = files.manifest.edits :=
    List.take_of_length_le ((List.length_map _).le.trans (length_le.trans le))
  obtain ⟨front, recorded⟩ := tracks.recorded noError
  have isFront : files.manifest.edits = front := by
    rw [recorded.split, stage]
    exact List.append_nil front
  rw [whole] at inVersion
  have inRange : level < Config.kNumLevels := by
    refine Nat.lt_of_not_le fun deep => ?_
    rw [tracks.successive.files_eq_nil deep] at inVersion
    cases inVersion
  rw [isFront, ← recorded.files] at inVersion
  refine present.removeTable fun same => ?_
  have live := Memory.version_live (List.mem_cons_self : memory.db.version ∈ memory.versions)
    inRange inVersion
  exact of_decide_eq_false obsolete (same ▸ live)

theorem Memory.Durable.readable_moves (durable : memory.Durable files acknowledged)
    (grounded : memory.Grounded files flushed switched) (tracks : memory.Tracks files.manifest.edits)
    (moves : memory.Moves options files action memory' files') : files'.Readable := by
  have readable := durable.readable
  have work := durable.work
  have new := tracks.work
  cases moves with
  | append ops sync succeeds written batch =>
    refine readable.of_tables ?_ fun kept le level file inVersion present => ?_
    · split <;> rfl
    · split <;> exact present
  | syncLog => exact readable.of_tables rfl fun _ _ _ _ _ present => present
  | switchMemTable => exact readable.of_tables rfl fun _ _ _ _ _ present => present
  | startFlush inside imm isImm stage =>
    exact readable.of_tables (putTable_manifest _ _ _ _) fun kept le level file inVersion present =>
      present.putTable (grounded.newNumber_next.ne_of_kept inVersion) _ _
  | syncTable number inside imm isImm stage =>
    rw [stage] at new
    exact readable.of_tables (putTable_manifest _ _ _ _) fun kept le level file inVersion present =>
      present.putTable (new.1.ne_of_kept inVersion) _ _
  | syncTableFails number inside imm isImm stage =>
    rw [stage] at new
    exact readable.of_tables rfl fun kept le level file inVersion present =>
      present.removeTable (new.1.ne_of_kept inVersion)
  | visit job entry rest loop stage remaining isLoop =>
    rw [stage] at new
    have visited : CompactionJob.New { job with loop := loop, remaining := rest }
        files.manifest.edits := CompactionJob.New.visit new grounded stage isLoop
    exact readable.of_tables rfl fun kept le level file inVersion present =>
      present.putOutputs fun output member =>
        ((visited.isNew output member).ne_of_kept inVersion).symm
  | endLoop job stage remaining =>
    rw [stage] at new
    refine readable.of_tables rfl fun kept le level file inVersion present =>
      present.putOutputs fun output member => ?_
    rw [allOutputs_finish] at member
    exact ((new.isNew output member).ne_of_kept inVersion).symm
  | appendEdit written edit caller stage =>
    rw [stage] at work new
    obtain ⟨logNumber, next, last, completed⟩ := grounded.works.logging _ _ _ stage
    have isEdit : (caller.record edit).edit = edit := LogCaller.record_edit caller
    refine readable.append durable.opened tracks.successive (isEdit.symm ▸ new.1)
      (isEdit.symm ▸ completed.numbered) (isEdit.symm ▸ work.tables) ?_ rfl
    rw [← grounded.backs.isCurrent]
    exact Lib.Shelf.put_file_self _ _ _
  | appendEditFails written edit caller stage =>
    rw [stage] at work new
    cases written with
    | true =>
      obtain ⟨logNumber, next, last, completed⟩ := grounded.works.logging _ _ _ stage
      have isEdit : (caller.record edit).edit = edit := LogCaller.record_edit caller
      refine readable.append durable.opened tracks.successive (isEdit.symm ▸ new.1)
        (isEdit.symm ▸ completed.numbered) (isEdit.symm ▸ work.tables) ?_ rfl
      rw [← grounded.backs.isCurrent]
      exact Lib.Shelf.put_file_self _ _ _
    | false => exact readable
  | syncManifest edit caller stage =>
    have whole := readable.reads durable.opened _ readable.synced_le
    rw [files.manifest.take_edits_length] at whole
    refine readable.sync whole ?_ rfl
    rw [← grounded.backs.isCurrent]
    exact Lib.Shelf.put_file_self _ _ _
  | removeFile kind number inside stage noError obsolete there =>
    cases kind with
    | table => exact durable.removeTable tracks stage noError obsolete
    | log => exact readable.of_tables rfl fun _ _ _ _ _ present => present
    | manifest => exact readable.of_tables rfl fun _ _ _ _ _ present => present
  | _ => exact readable

/-- The manifest of a database that has no error is synced between two edits. -/
theorem Memory.Durable.settled_moves (durable : memory.Durable files acknowledged)
    (grounded : memory.Grounded files flushed switched)
    (moves : memory.Moves options files action memory' files') (noError' : memory'.bgError = false)
    (notWritten : ∀ edit caller, memory'.work ≠ .logging edit .written caller) :
    files'.manifest.records.length ≤ files'.manifest.synced := by
  obtain ⟨noError, writes⟩ := moves.of_noError noError'
  have settled := durable.settled noError
  obtain ⟨same, noAppend, noSync⟩ | ⟨edit, caller, succeeds, written, rfl, stage, -⟩ |
    ⟨edit, caller, -, -, synced⟩ := grounded.manifest_moves moves
  · rw [same]
    refine settled fun edit caller isWritten => ?_
    cases moves with
    | startFlush inside imm isImm stage =>
      obtain ⟨idle, -⟩ | ⟨job, compacting, -⟩ := stage
      · cases idle.symm.trans isWritten
      · cases compacting.symm.trans isWritten
    | syncTable number inside imm isImm stage => cases stage.symm.trans isWritten
    | syncTableFails number inside imm isImm stage => cases stage.symm.trans isWritten
    | tableBuilt number inside imm isImm stage => cases stage.symm.trans isWritten
    | startMove choice compaction idle => cases idle.symm.trans isWritten
    | startCompaction choice compaction idle => cases idle.symm.trans isWritten
    | visit job entry rest loop stage => cases stage.symm.trans isWritten
    | endLoop job stage => cases stage.symm.trans isWritten
    | endLoopFails job stage => cases stage.symm.trans isWritten
    | appendEdit written other otherCaller stage => cases stage.symm.trans isWritten
    | appendEditFails => cases writes
    | syncManifest => exact noSync rfl
    | syncManifestFails => cases writes
    | install other otherCaller stage => cases stage.symm.trans isWritten
    | endCollecting inside stage => cases stage.symm.trans isWritten
    | _ => exact notWritten edit caller isWritten
  · cases moves with
    | appendEdit _ other otherCaller => exact absurd rfl (notWritten other otherCaller)
    | appendEditFails => cases writes
    | read _ reads => cases reads
  · rw [synced]
    exact le_rfl

end Steps

/-! ### The background thread -/

section Background

variable {options : Options α β} {memory memory' : Memory α β} {files files' : Files α β}
  {action : RunningAction α β} {flushed switched : Nat} {acknowledged : List (WriteBatch α β)}
  {edit : VersionEdit α β} {caller : LogCaller α β} {imm : Option (List (Entry α β))}

omit [Inhabited β] in
theorem Work.Durable.same {work : Work α β} (durable : work.Durable imm files)
    (manifest : files'.manifest = files.manifest) (tables : files'.tables = files.tables) :
    work.Durable imm files' := by
  cases work with
  | idle => trivial
  | building number synced inside =>
    refine ⟨?_, ?_⟩
    · rw [tables]
      exact durable.1
    · rw [manifest]
      exact durable.2
  | logging edit stage caller =>
    refine ⟨?_, durable.flushed, ?_, ?_, ?_, ?_⟩
    · intro added isAdded
      rw [Files.HasTable, tables]
      exact durable.tables added isAdded
    · rw [manifest]
      exact durable.inside
    · rw [manifest]
      exact durable.carries
    · rw [manifest]
      exact durable.written
    · rw [manifest]
      exact durable.synced
  | compacting job =>
    rw [Work.Durable, manifest]
    exact durable
  | collecting inside =>
    rw [Work.Durable, manifest]
    exact durable

/-- No flush is under way when the memtable is switched. -/
theorem Memory.Durable.work_switch (durable : memory.Durable files acknowledged)
    (grounded : memory.Grounded files flushed switched) (empty : memory.db.imm = none)
    (content : List (Entry α β)) : memory.work.Durable (some content) files := by
  have work := durable.work
  rw [empty] at work
  cases isWork : memory.work with
  | idle => trivial
  | building number synced inside =>
    have full := (grounded.works.building _ _ _ isWork).1
    rw [empty] at full
    cases full
  | logging edit stage caller =>
    rw [isWork] at work
    obtain ⟨logNumber, next, last, completed⟩ := grounded.works.logging _ _ _ isWork
    have writes := completed.writes
    refine ⟨work.tables, ?_, work.inside, work.carries, work.written, work.synced⟩
    rintro inside rfl
    have full := writes.1
    rw [empty] at full
    cases full
  | compacting job =>
    rw [isWork] at work
    exact work
  | collecting inside =>
    rw [isWork] at work
    exact work

omit [Inhabited β] in
theorem durable_afterFlush {inside : Option (CompactionJob α β)}
    (carries : ∀ job ∈ inside, job.Carries files.manifest.edits) :
    (memory.afterFlush inside).work.Durable imm files := by
  cases inside with
  | none => trivial
  | some job => exact carries job rfl

omit [Inhabited β] in
theorem durable_logFailed (carries : ∀ job ∈ caller.inside, job.Carries files.manifest.edits) :
    (memory.logFailed caller).work.Durable imm files := by
  cases caller with
  | compactMemTable inside => exact durable_afterFlush carries
  | trivialMove => trivial
  | installResults job => trivial

omit [Inhabited β] in
theorem durable_logged (carries : ∀ job ∈ caller.inside, job.Carries files.manifest.edits) :
    (memory.logged caller).work.Durable imm files := by
  cases caller with
  | compactMemTable inside => exact carries
  | trivialMove => trivial
  | installResults job => exact fun _ impossible => by cases impossible

omit [Inhabited β] in
/-- The edit of a flush adds the table that was built. -/
theorem logging_tableBuilt {base : Option (Version α β)} {number : Nat}
    {content : List (Entry α β)} {inside : Option (CompactionJob α β)}
    (work : (Work.building number true inside).Durable (some content) files)
    (newFiles : edit.newFiles = (writeLevel0Table options base number content {}).newFiles)
    (deletedFiles : edit.deletedFiles =
      (writeLevel0Table options base number content {}).deletedFiles) :
    Logging edit .started (.compactMemTable inside) (some content) files := by
  have noDeletion : ∀ {level other}, (level, other) ∉ edit.deletedFiles := by
    intro level other
    rw [deletedFiles]
    obtain ⟨same, -⟩ | ⟨file, -, -, same⟩ :=
      writeLevel0Table_added options base number content {}
    · rw [same]
      exact Finset.notMem_empty _
    · rw [same]
      exact Finset.notMem_empty _
  have carries : ((LogCaller.compactMemTable inside).record edit).Carries files.manifest.edits :=
    fun level file _ isDeleted => absurd isDeleted noDeletion
  obtain rfl | nonempty := eq_or_ne content []
  · have nothing : edit.newFiles = [] := newFiles
    refine ⟨?_, ?_, work.2, fun _ => carries, fun later => absurd rfl later,
      fun impossible => by cases impossible⟩
    · rw [nothing]
      exact List.forall_mem_nil _
    · rintro inside' - content' isContent entry member
      obtain rfl := Option.mem_some.mp isContent
      cases member
  · obtain ⟨-, empty⟩ | ⟨file, isNumber, isContent, isAdded⟩ :=
      writeLevel0Table_added options base number content {}
    · exact absurd empty nonempty
    · have single : edit.newFiles = [(outputLevel options base file, file)] := by
        rw [newFiles, isAdded]
        rfl
      refine ⟨?_, ?_, work.2, fun _ => carries, fun later => absurd rfl later,
        fun impossible => by cases impossible⟩
      · rw [single, List.forall_mem_singleton, Files.HasTable, isNumber, isContent]
        exact work.1 rfl content rfl nonempty
      · rintro inside' - content' isSame entry member
        obtain rfl := Option.mem_some.mp isSame
        rw [single]
        exact ⟨_, List.mem_singleton_self _, isContent.symm ▸ member⟩

/-- The edit of a trivial move adds a table of the version. -/
theorem Memory.Durable.logging_move (durable : memory.Durable files acknowledged)
    (tracks : memory.Tracks files.manifest.edits) (grounded : memory.Grounded files flushed switched)
    (idle : memory.work = .idle) (noError : memory.bgError = false) {choice : Action α β}
    {compaction : Compaction α β} (chooses : memory.db.chosen options choice = some compaction)
    (isTrivialMove : compaction.isTrivialMove options = true)
    (newFiles : edit.newFiles = compaction.moveEdit.newFiles)
    (deletedFiles : edit.deletedFiles = compaction.moveEdit.deletedFiles) :
    Logging edit .started .trivialMove imm files := by
  obtain ⟨front, recorded⟩ := tracks.recorded noError
  have isFront : files.manifest.edits = front := by
    rw [recorded.split, idle]
    exact List.append_nil front
  have same : memory.db.version.files = (versionOf files.manifest.edits).files :=
    isFront ▸ recorded.files
  have chosen := Db.chosen_of_seek grounded.listed.seek chooses
  obtain ⟨moved, inputs0, -, isAdded, -⟩ := moveEdit_eq isTrivialMove
  have inVersion : moved ∈ (versionOf files.manifest.edits).files compaction.level := by
    rw [← same]
    refine chosen.inputs0_sublist.subset ?_
    rw [inputs0]
    exact List.mem_singleton_self moved
  have whole := durable.readable.tables _ durable.readable.synced_le compaction.level moved
  rw [files.manifest.take_edits_length] at whole
  refine ⟨?_, fun inside impossible => (by cases impossible), fun _ impossible => (by cases impossible),
    fun _ => ?_, fun later => absurd rfl later, fun impossible => (by cases impossible)⟩
  · rw [newFiles, isAdded]
    exact List.forall_mem_singleton.mpr (whole inVersion)
  · exact chosen.move_carries tracks.successive same isTrivialMove newFiles deletedFiles

theorem Memory.Durable.work_moves (durable : memory.Durable files acknowledged)
    (grounded : memory.Grounded files flushed switched) (tracks : memory.Tracks files.manifest.edits)
    (moves : memory.Moves options files action memory' files') :
    memory'.work.Durable memory'.db.imm files' := by
  have work := durable.work
  have none : ∀ job ∈ (none : Option (CompactionJob α β)), job.Carries files.manifest.edits :=
    fun _ impossible => by cases impossible
  obtain ⟨same, noAppend, noSync⟩ | ⟨edit, caller, succeeds, written, rfl, stage, appended⟩ |
    ⟨edit, caller, rfl, stage, synced⟩ := grounded.manifest_moves moves
  · have edits : files'.manifest.edits = files.manifest.edits := congrArg ManifestFile.edits same
    cases moves with
    | append ops sync succeeds written batch =>
      refine work.same same ?_
      split <;> rfl
    | syncLog => exact work.same rfl rfl
    | switchMemTable idle noError empty =>
      exact (durable.work_switch grounded empty memory.db.mem).same rfl rfl
    | startFlush inside imm isImm stage =>
      refine ⟨fun impossible => (by cases impossible), ?_⟩
      rw [edits]
      obtain ⟨-, -, rfl⟩ | ⟨job, compacting, -, rfl⟩ := stage
      · exact none
      · rw [compacting] at work
        exact fun other isJob => Option.mem_some.mp isJob ▸ work
    | syncTable number inside imm isImm stage =>
      rw [stage] at work
      refine ⟨fun _ content isContent nonempty => ?_, ?_⟩
      · obtain rfl := Option.mem_some.mp (isImm ▸ isContent)
        obtain ⟨first, rest, rfl⟩ := List.exists_cons_of_ne_nil nonempty
        exact ⟨Lib.Shelf.mem_put.mpr (Or.inl rfl), Lib.Shelf.put_file_self _ _ _⟩
      · rw [edits]
        exact work.2
    | syncTableFails number inside imm isImm stage =>
      rw [stage] at work
      exact durable_afterFlush work.2
    | tableBuilt number inside imm isImm stage =>
      rw [stage, isImm] at work
      dsimp only
      rw [isImm]
      exact logging_tableBuilt work rfl rfl
    | startMove choice compaction idle noError empty chooses isTrivialMove pointer =>
      exact durable.logging_move tracks grounded idle noError chooses isTrivialMove rfl rfl
    | startCompaction choice compaction idle noError empty chooses pointer =>
      obtain ⟨front, recorded⟩ := tracks.recorded noError
      have isFront : files.manifest.edits = front := by
        rw [recorded.split, idle]
        exact List.append_nil front
      exact (Db.chosen_of_seek grounded.listed.seek chooses).carries (isFront ▸ recorded.files) _ _
    | visit job entry rest loop stage remaining isLoop =>
      rw [stage] at work
      exact CompactionJob.Carries.visit work remaining isLoop
    | endLoop job stage remaining =>
      have new := tracks.work
      rw [stage] at work new
      refine ⟨?_, fun inside impossible => (by cases impossible), none, fun _ => ?_,
        fun later => absurd rfl later, fun impossible => (by cases impossible)⟩
      · intro added isAdded
        have isOutput : added ∈ (job.loop.finish.outputs.map (Output.toFile options)).map
            fun file => (job.compaction.level + 1, file) := installEdit_newFiles _ ▸ isAdded
        obtain ⟨file, inFiles, rfl⟩ := List.mem_map.mp isOutput
        obtain ⟨output, inFinish, rfl⟩ := List.mem_map.mp inFiles
        exact hasTable_putOutputs new.distinct options output inFinish
      · exact CompactionJob.Carries.record_carries work tracks.successive remaining rfl rfl
    | endLoopFails job stage => trivial
    | appendEdit written edit caller stage => exact absurd rfl (noAppend written)
    | appendEditFails written edit caller stage =>
      rw [stage] at work
      refine durable_logFailed ?_
      rw [edits]
      exact work.inside
    | syncManifest edit caller stage => exact absurd rfl noSync
    | syncManifestFails edit caller stage =>
      rw [stage] at work
      exact durable_logFailed work.inside
    | install edit caller stage =>
      rw [stage] at work
      exact durable_logged work.inside
    | removeFile kind number inside stage noError obsolete there =>
      rw [stage] at work ⊢
      rw [Work.Durable, edits]
      exact work
    | endCollecting inside stage =>
      rw [stage] at work
      exact durable_afterFlush work
    | _ => exact work
  · rw [stage] at work
    have edits : files'.manifest.edits = files.manifest.edits ++ [edit] := by
      rw [appended, ManifestFile.edits, ManifestFile.append, List.map_append]
      exact congrArg (files.manifest.edits ++ [·]) (LogCaller.record_edit caller)
    have carries : ∀ job ∈ caller.inside, job.Carries files'.manifest.edits := by
      rw [edits]
      exact fun job isJob => (work.inside job isJob).append edit
    cases moves with
    | appendEdit _ other otherCaller otherStage =>
      cases stage.symm.trans otherStage
      refine ⟨work.tables, work.flushed, carries, fun impossible => (by cases impossible), fun _ => ?_,
        fun impossible => (by cases impossible)⟩
      rw [appended]
      exact ⟨_, rfl⟩
    | appendEditFails _ other otherCaller otherStage =>
      cases stage.symm.trans otherStage
      exact durable_logFailed carries
    | read _ reads => cases reads
  · rw [stage] at work
    have edits : files'.manifest.edits = files.manifest.edits := by rw [synced]; rfl
    cases moves with
    | syncManifest other otherCaller otherStage =>
      cases stage.symm.trans otherStage
      refine ⟨work.tables, work.flushed, ?_, fun impossible => (by cases impossible), fun _ => ?_,
        fun _ => ?_⟩
      · rw [edits]
        exact work.inside
      · rw [synced]
        exact work.written fun impossible => (by cases impossible)
      · rw [synced]
        exact le_rfl
    | read _ reads => cases reads

end Background

/-! ### Writers -/

section Writers

variable {options : Options α β} {memory memory' : Memory α β} {files files' : Files α β}
  {action : RunningAction α β} {flushed switched : Nat} {acknowledged : List (WriteBatch α β)}

theorem Memory.Durable.write_moves (durable : memory.Durable files acknowledged)
    (moves : memory.Moves options files action memory' files') :
    memory'.write.Durable (files'.logs.file memory'.logFileNumber) memory'.db.mem := by
  have write := durable.write
  cases moves with
  | append ops sync succeeds written batch =>
    cases succeeds with
    | true =>
      have isLast : batch ∈ ((files.logs.file memory.logFileNumber).append batch).records :=
        List.mem_append_right _ (List.mem_singleton_self _)
      have sameLog : (files.appendLog memory.logFileNumber batch).logs.file memory.logFileNumber =
          (files.logs.file memory.logFileNumber).append batch := Lib.Shelf.put_file_self _ _ _
      exact sameLog.symm ▸ isLast
    | false => trivial
  | syncLog batch stage =>
    rw [stage] at write
    have sameLog : (files.syncLog memory.logFileNumber).logs.file memory.logFileNumber =
        (files.logs.file memory.logFileNumber).sync := Lib.Shelf.put_file_self _ _ _
    dsimp only
    rw [sameLog, WriteStage.Durable, LogFile.durable, LogFile.sync, List.take_length]
    exact write
  | syncLogFails => trivial
  | insert batch sync stage =>
    obtain ⟨-, rfl⟩ | ⟨isSynced, rfl⟩ := stage
    · trivial
    · rw [isSynced] at write
      exact ⟨write, fun entry member => mem_insertInto.mpr (Or.inr member)⟩
  | finishWrite => trivial
  | switchMemTable idle =>
    dsimp only
    rw [idle]
    trivial
  | startFlush =>
    rw [putTable_logs]
    exact write
  | syncTable =>
    rw [putTable_logs]
    exact write
  | syncTableFails number inside => cases inside <;> exact write
  | appendEditFails written edit caller =>
    obtain ⟨-, logFile, same⟩ := memory.logFailed_same caller
    rw [same, logFile, Memory.logFailed_db]
    split
    · exact write
    · exact write
  | syncManifestFails edit caller =>
    obtain ⟨-, logFile, same⟩ := memory.logFailed_same caller
    rw [same, logFile, Memory.logFailed_db]
    exact write
  | install edit caller => cases caller <;> exact write
  | removeFile kind => cases kind <;> exact write
  | endCollecting inside => cases inside <;> exact write
  | _ => exact write

/-- A sync write is acknowledged when its batch is in the synced part of the log. -/
theorem Memory.Durable.acknowledges (durable : memory.Durable files acknowledged)
    (grounded : memory.Grounded files flushed switched) {batch : WriteBatch α β}
    (member : batch ∈ memory.acknowledges action) : memory.Locates files batch := by
  have sequenced := grounded.sequenced
  have write := durable.write
  cases action with
  | finishWrite =>
    rw [Memory.acknowledges] at member
    split at member
    · rename_i written stage
      obtain rfl := List.mem_singleton.mp member
      rw [stage] at write
      exact Or.inl ⟨_, sequenced.opened, sequenced.log_le, write.1, Or.inl ⟨rfl, write.2⟩,
        fun kept _ descriptor reads => Or.inl (grounded.backs.log_le kept descriptor reads)⟩
    · cases member
  | _ => cases member

/-- An open database keeps its promises in every step. -/
theorem Memory.Durable.step (durable : memory.Durable files acknowledged)
    (grounded : memory.Grounded files flushed switched) (tracks : memory.Tracks files.manifest.edits)
    (taken : memory.step options files action = some (memory', files')) :
    memory'.Durable files' (acknowledged ++ memory.acknowledges action) := by
  have moves := Memory.step_moves taken
  refine ⟨durable.readable_moves grounded tracks moves, ?_, durable.work_moves grounded tracks moves,
    durable.settled_moves grounded moves, durable.write_moves moves, fun batch member => ?_⟩
  · obtain ⟨same, -, -⟩ | ⟨edit, caller, -, -, -, -, appended⟩ | ⟨edit, caller, -, -, synced⟩ :=
      grounded.manifest_moves moves
    · rw [same]
      exact durable.opened
    · rw [appended]
      exact durable.opened
    · rw [synced]
      exact durable.opened.trans_le durable.readable.synced_le
  · obtain old | new := List.mem_append.mp member
    · exact durable.locates grounded tracks moves (durable.located batch old)
    · exact durable.locates grounded tracks moves (durable.acknowledges grounded new)

end Writers

end LevelDb
