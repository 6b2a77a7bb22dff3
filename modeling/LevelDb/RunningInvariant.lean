/-
This file proves what holds of an open database in every state, whatever calls to the Env fail:
the logs, the memtables and the tables are ordered by sequence numbers, the counters are beyond all
that is stored, and the manifest can be cut anywhere. Two marks separate what is stored: the logs
before the log number reach up to `flushed`, and those before the current log up to `switched`.
-/

import LevelDb.RecoverableFiles

namespace LevelDb

variable {α β : Type}

/-! ### The invariant -/

/-- The batch that is being written. -/
def WriteStage.batch : WriteStage α β → Option (WriteBatch α β)
  | .idle => none
  | .logged batch _ | .synced batch | .inserted batch _ | .failed batch _ => some batch

/-- The last sequence once the batch that is being written is counted. -/
def Memory.reached (memory : Memory α β) : Nat :=
  memory.db.lastSequence + (memory.write.batch.map WriteBatch.count).getD 0

/-- The logs and the memtables are in the order of their sequence numbers. -/
structure Memory.Sequenced (memory : Memory α β) (logs : Lib.Shelf (LogFile α β))
    (flushed switched : Nat) : Prop where
  flushed_le : flushed ≤ switched
  switched_le : switched ≤ memory.db.lastSequence
  opened : memory.logFileNumber ∈ logs.numbers
  newest : ∀ number ∈ logs.numbers, number ≤ memory.logFileNumber
  logFile_lt : memory.logFileNumber < memory.db.nextFileNumber
  log_le : memory.logNumber ≤ memory.logFileNumber
  prev : memory.prevLogNumber = 0
  batch : ∀ batch ∈ memory.write.batch,
    batch.sequence = memory.db.lastSequence + 1 ∧ batch.WellFormed
  logged : UpTo logs (memory.logFileNumber + 1) memory.reached
  older : UpTo logs memory.logFileNumber switched
  stale : UpTo logs memory.logNumber flushed
  mem : ∀ entry ∈ memory.db.mem, switched < entry.sequence ∧ entry.sequence ≤ memory.reached
  imm : ∀ imm ∈ memory.db.imm, ∀ entry ∈ imm, flushed < entry.sequence ∧ entry.sequence ≤ switched

/-- Every table of the version has a smaller number and no later entry. -/
def Version.Below (version : Version α β) (next last : Nat) : Prop :=
  ∀ level, ∀ file ∈ version.files level, file.Below next last

/-- The tables that are in use are below the counters. -/
structure Memory.Listed (memory : Memory α β) : Prop where
  version : memory.db.version.Below memory.db.nextFileNumber memory.db.lastSequence
  seek : ∀ file level, memory.db.version.fileToCompact = some (file, level) →
    file ∈ memory.db.version.files level
  pinned : ∀ version ∈ memory.pinned,
    version.Below memory.db.nextFileNumber memory.db.lastSequence
  pending : ∀ number ∈ memory.pendingOutputs, number < memory.db.nextFileNumber

/-- The compaction reads and writes nothing beyond the counters, and its outputs are pending. -/
structure CompactionJob.Below (job : CompactionJob α β) (pending : Finset Nat) (next last : Nat) :
    Prop where
  input : job.compaction.inputVersion.Below next last
  pending : ∀ output ∈ job.loop.allOutputs, output.number ∈ pending
  kept : ∃ kept, job.loop.Fills kept ∧ ∀ entry ∈ kept, entry.sequence ≤ last
  remaining : ∀ entry ∈ job.remaining, entry.sequence ≤ last

/-- The log number and the last sequence that `LogAndApply` writes for its caller. -/
def LogCaller.Writes (memory : Memory α β) (flushed switched logNumber lastSequence : Nat) :
    LogCaller α β → Prop
  | .compactMemTable _ => memory.db.imm.isSome = true ∧ logNumber = memory.logFileNumber ∧
      switched ≤ lastSequence
  | .trivialMove | .installResults _ => logNumber = memory.logNumber ∧ flushed ≤ lastSequence

variable [LinearOrder α]

/-- The manifest that `CURRENT` names is the one that is written, and it is below the counters. -/
structure Memory.Backs (memory : Memory α β) (files : Files α β) : Prop where
  isCurrent : files.current = memory.manifestFileNumber
  manifest_lt : memory.manifestFileNumber < memory.db.nextFileNumber
  below : EditsBelow files.manifest.edits memory.db.nextFileNumber memory.db.lastSequence
  log_le : ∀ kept descriptor, Descriptor.read (files.manifest.edits.take kept) = some descriptor →
    descriptor.logNumber ≤ memory.logFileNumber

/-- An edit that `LogAndApply` is writing: its numbers were the counters when it was completed. -/
structure VersionEdit.Completed (edit : VersionEdit α β) (memory : Memory α β)
    (edits : List (VersionEdit α β)) (flushed switched : Nat) (stage : ManifestStage)
    (caller : LogCaller α β) (logNumber next last : Nat) : Prop where
  numbered : edit.Numbered logNumber next last
  next_le : next ≤ memory.db.nextFileNumber
  last_le : last ≤ memory.db.lastSequence
  new : ∀ added ∈ edit.newFiles, added.2.Below next last
  writes : caller.Writes memory flushed switched logNumber last
  manifest : memory.manifestFileNumber < next
  log : logNumber < next
  below : stage = .started → EditsBelow edits next last

/-- What the background thread is doing fits the rest. -/
structure Memory.Works (memory : Memory α β) (edits : List (VersionEdit α β))
    (flushed switched : Nat) : Prop where
  job : ∀ job ∈ memory.work.job,
    job.Below memory.pendingOutputs memory.db.nextFileNumber memory.db.lastSequence
  building : ∀ number synced inside, memory.work = .building number synced inside →
    memory.db.imm.isSome = true ∧ number ∈ memory.pendingOutputs ∧
      ∀ job ∈ inside, ∀ output ∈ job.loop.allOutputs, output.number ≠ number
  logging : ∀ edit stage caller, memory.work = .logging edit stage caller →
    ∃ logNumber next last,
      edit.Completed memory edits flushed switched stage caller logNumber next last

/-- What holds of an open database and its files. -/
structure Memory.Grounded (memory : Memory α β) (files : Files α β) (flushed switched : Nat) :
    Prop where
  recoverable : files.Recoverable
  sequenced : memory.Sequenced files.logs flushed switched
  listed : memory.Listed
  backs : memory.Backs files
  works : memory.Works files.manifest.edits flushed switched

/-! ### Counters that grow -/

omit [LinearOrder α] in
theorem Version.Below.mono {version : Version α β} {next last next' last' : Nat}
    (below : version.Below next last) (nexts : next ≤ next') (lasts : last ≤ last') :
    version.Below next' last' :=
  fun level file member => (below level file member).mono nexts lasts

omit [LinearOrder α] in
theorem CompactionJob.Below.mono {job : CompactionJob α β} {pending pending' : Finset Nat}
    {next last next' last' : Nat} (below : job.Below pending next last)
    (pendings : ∀ output ∈ job.loop.allOutputs, output.number ∈ pending → output.number ∈ pending')
    (nexts : next ≤ next') (lasts : last ≤ last') : job.Below pending' next' last' := by
  obtain ⟨kept, fills, kept_le⟩ := below.kept
  refine ⟨below.input.mono nexts lasts, fun output member => ?_, ⟨kept, fills, ?_⟩, ?_⟩
  · exact pendings output member (below.pending output member)
  · exact fun entry member => (kept_le entry member).trans lasts
  · exact fun entry member => (below.remaining entry member).trans lasts

section Growing

variable {memory memory' : Memory α β} {files : Files α β} {edits : List (VersionEdit α β)}
  {flushed switched : Nat}

omit [LinearOrder α] in
theorem Memory.Listed.mono (listed : memory.Listed)
    (version : memory'.db.version = memory.db.version) (pinned : memory'.pinned = memory.pinned)
    (pending : ∀ number ∈ memory'.pendingOutputs, number ∈ memory.pendingOutputs ∨
      number < memory'.db.nextFileNumber)
    (nexts : memory.db.nextFileNumber ≤ memory'.db.nextFileNumber)
    (lasts : memory.db.lastSequence ≤ memory'.db.lastSequence) : memory'.Listed := by
  refine ⟨?_, ?_, ?_, fun number member => ?_⟩
  · rw [version]
    exact listed.version.mono nexts lasts
  · rw [version]
    exact listed.seek
  · rw [pinned]
    exact fun version member => (listed.pinned version member).mono nexts lasts
  · rcases pending number member with old | new
    · exact (listed.pending number old).trans_le nexts
    · exact new

theorem Memory.Backs.mono (backs : memory.Backs files)
    (manifest : memory'.manifestFileNumber = memory.manifestFileNumber)
    (logFile : memory.logFileNumber ≤ memory'.logFileNumber)
    (nexts : memory.db.nextFileNumber ≤ memory'.db.nextFileNumber)
    (lasts : memory.db.lastSequence ≤ memory'.db.lastSequence) : memory'.Backs files := by
  refine ⟨backs.isCurrent.trans manifest.symm, ?_, backs.below.mono nexts lasts, ?_⟩
  · rw [manifest]
    exact backs.manifest_lt.trans_le nexts
  · exact fun kept descriptor reads => (backs.log_le kept descriptor reads).trans logFile

/-- The thread did nothing while others moved the counters. -/
theorem Memory.Works.mono {switched' : Nat} (works : memory.Works edits flushed switched)
    (work : memory'.work = memory.work) (pending : memory'.pendingOutputs = memory.pendingOutputs)
    (manifest : memory'.manifestFileNumber = memory.manifestFileNumber)
    (nexts : memory.db.nextFileNumber ≤ memory'.db.nextFileNumber)
    (lasts : memory.db.lastSequence ≤ memory'.db.lastSequence)
    (log : memory'.logNumber = memory.logNumber)
    (full : memory.db.imm.isSome = true → memory'.db.imm.isSome = true ∧
      memory'.logFileNumber = memory.logFileNumber ∧ switched' = switched) :
    memory'.Works edits flushed switched' := by
  refine ⟨fun job isJob => ?_, fun number synced inside stage => ?_, ?_⟩
  · rw [work] at isJob
    rw [pending]
    exact (works.job job isJob).mono (fun _ _ member => member) nexts lasts
  · rw [work] at stage
    rw [pending]
    obtain ⟨isFull, rest⟩ := works.building number synced inside stage
    exact ⟨(full isFull).1, rest⟩
  · intro edit stage caller isLogging
    rw [work] at isLogging
    obtain ⟨logNumber, next, last, completed⟩ := works.logging edit stage caller isLogging
    refine ⟨logNumber, next, last, completed.numbered, completed.next_le.trans nexts,
      completed.last_le.trans lasts, completed.new, ?_, manifest ▸ completed.manifest,
      completed.log, completed.below⟩
    have writes := completed.writes
    cases caller with
    | compactMemTable inside =>
      obtain ⟨wasFull, isLog, switched_le⟩ := writes
      obtain ⟨isFull, sameLog, sameMark⟩ := full wasFull
      exact ⟨isFull, isLog.trans sameLog.symm, sameMark.le.trans switched_le⟩
    | trivialMove => exact ⟨writes.1.trans log.symm, writes.2⟩
    | installResults job => exact ⟨writes.1.trans log.symm, writes.2⟩

/-- A thread that neither builds a table nor writes the manifest. -/
theorem Memory.Works.of_job
    (job : ∀ job ∈ memory.work.job,
      job.Below memory.pendingOutputs memory.db.nextFileNumber memory.db.lastSequence)
    (notBuilding : ∀ number synced inside, memory.work ≠ .building number synced inside)
    (notLogging : ∀ edit stage caller, memory.work ≠ .logging edit stage caller) :
    memory.Works edits flushed switched :=
  ⟨job, fun number synced inside stage => absurd stage (notBuilding number synced inside),
    fun edit stage caller isLogging => absurd isLogging (notLogging edit stage caller)⟩

end Growing

/-! ### Writers -/

section Writers

variable {memory : Memory α β} {files : Files α β} {flushed switched : Nat}
  {batch : WriteBatch α β}

omit [LinearOrder α] in
theorem WriteBatch.WellFormed.entry_bounds [Inhabited β] (wellFormed : batch.WellFormed)
    {entry : Entry α β} (member : entry ∈ batch.entries) :
    batch.sequence ≤ entry.sequence ∧ entry.sequence < batch.next := by
  rw [WriteBatch.next, wellFormed]
  exact batchEntries_sequence_bounds member

omit [LinearOrder α] in
theorem Memory.reached_eq (isBatch : memory.write.batch = some batch) :
    memory.reached = memory.db.lastSequence + batch.count := by
  rw [Memory.reached, isBatch]
  rfl

/-- Logs lose records or files, but not the last file. -/
theorem Files.Recoverable.shrink (recoverable : files.Recoverable) (backs : memory.Backs files)
    {shrunk : Lib.Shelf (LogFile α β)} (shrinks : Shrinks files.logs shrunk)
    (opened : memory.logFileNumber ∈ shrunk.numbers) :
    Files.Recoverable { files with logs := shrunk } :=
  ⟨recoverable.order.shrinks shrinks, recoverable.current,
    recoverable.backed.of_logs (fun _ _ _ stale => stale.shrinks shrinks)
      fun kept descriptor reads _ => ⟨_, opened, backs.log_le kept descriptor reads⟩⟩

omit [LinearOrder α] in
theorem Memory.Sequenced.shrink {logs shrunk : Lib.Shelf (LogFile α β)}
    (sequenced : memory.Sequenced logs flushed switched) (shrinks : Shrinks logs shrunk)
    (opened : memory.logFileNumber ∈ shrunk.numbers) :
    memory.Sequenced shrunk flushed switched :=
  { sequenced with
    opened
    newest := fun number member => sequenced.newest number (shrinks.numbers member)
    logged := sequenced.logged.shrinks shrinks
    older := sequenced.older.shrinks shrinks
    stale := sequenced.stale.shrinks shrinks }

variable {write : WriteStage α β}

/-- The batch takes the sequence numbers after the last one. -/
theorem Memory.Grounded.begin (grounded : memory.Grounded files flushed switched)
    (idle : memory.write = .idle) (isBatch : write.batch = some batch)
    (sequence : batch.sequence = memory.db.lastSequence + 1) (wellFormed : batch.WellFormed) :
    Memory.Grounded { memory with write } files flushed switched := by
  have le : memory.reached ≤ Memory.reached { memory with write } := by
    rw [Memory.reached, idle]
    exact Nat.le_add_right _ _
  have sequenced := grounded.sequenced
  have newSequenced : Memory.Sequenced { memory with write } files.logs flushed switched :=
    { sequenced with
      batch := fun other isOther => by
        obtain rfl := Option.mem_some.mp (isBatch ▸ isOther)
        exact ⟨sequence, wellFormed⟩
      logged := sequenced.logged.mono le_rfl le
      mem := fun entry member =>
        ⟨(sequenced.mem entry member).1, (sequenced.mem entry member).2.trans le⟩ }
  exact ⟨grounded.recoverable, newSequenced, { grounded.listed with }, { grounded.backs with },
    grounded.works.mono rfl rfl rfl le_rfl le_rfl rfl fun full => ⟨full, rfl, rfl⟩⟩

/-- The log takes the batch. -/
theorem Memory.Grounded.appendLog (grounded : memory.Grounded files flushed switched)
    (idle : memory.write = .idle) (isBatch : write.batch = some batch)
    (sequence : batch.sequence = memory.db.lastSequence + 1) (wellFormed : batch.WellFormed) :
    Memory.Grounded { memory with write } (files.appendLog memory.logFileNumber batch) flushed
      switched := by
  have begun := grounded.begin idle isBatch sequence wellFormed
  have sequenced := grounded.sequenced
  have logged : UpTo files.logs (memory.logFileNumber + 1) memory.db.lastSequence := by
    have reached := sequenced.logged
    rwa [Memory.reached, idle] at reached
  have there : memory.logFileNumber ∈ files.logs.numbers := sequenced.opened
  refine ⟨⟨?_, grounded.recoverable.current, ?_⟩, ?_, begun.listed, { begun.backs with },
    begun.works⟩
  · exact grounded.recoverable.order.append there sequenced.newest logged wellFormed
      (sequence ▸ Nat.lt_succ_self _)
  · refine grounded.recoverable.backed.of_logs (fun kept descriptor reads stale => ?_) ?_
    · exact stale.append_below (grounded.backs.log_le kept descriptor reads)
    · exact fun kept descriptor reads _ => ⟨_, Lib.Shelf.mem_put.mpr (Or.inl rfl),
        grounded.backs.log_le kept descriptor reads⟩
  · have batch_le : batch.next ≤ Memory.reached { memory with write } + 1 := by
      have reached : Memory.reached { memory with write } = memory.db.lastSequence + batch.count :=
        Memory.reached_eq isBatch
      rw [reached, WriteBatch.next, sequence]
      omega
    exact { begun.sequenced with
      opened := Lib.Shelf.mem_put.mpr (Or.inl rfl)
      newest := fun number member => by
        rcases Lib.Shelf.mem_put.mp member with same | old
        · exact same.le
        · exact sequenced.newest number old
      logged := begun.sequenced.logged.append there (Nat.lt_succ_self _) le_rfl batch_le
      older := sequenced.older.append_below le_rfl
      stale := sequenced.stale.append_below sequenced.log_le }

theorem Memory.Grounded.syncLog (grounded : memory.Grounded files flushed switched) :
    memory.Grounded (files.syncLog memory.logFileNumber) flushed switched := by
  have shrinks := shrinks_sync grounded.sequenced.opened
  have opened : memory.logFileNumber ∈ (files.syncLog memory.logFileNumber).logs.numbers :=
    Lib.Shelf.mem_put.mpr (Or.inl rfl)
  exact ⟨grounded.recoverable.shrink grounded.backs shrinks opened,
    grounded.sequenced.shrink shrinks opened, grounded.listed, { grounded.backs with },
    grounded.works⟩

/-- The writer goes on with its batch. -/
theorem Memory.Grounded.goOn (grounded : memory.Grounded files flushed switched)
    (same : write.batch = memory.write.batch) :
    Memory.Grounded { memory with write } files flushed switched := by
  have reached : Memory.reached { memory with write } = memory.reached := by
    rw [Memory.reached, Memory.reached, same]
  have sequenced := grounded.sequenced
  have newSequenced : Memory.Sequenced { memory with write } files.logs flushed switched :=
    { sequenced with
      batch := by
        rw [same]
        exact sequenced.batch
      logged := by
        rw [reached]
        exact sequenced.logged
      mem := by
        rw [reached]
        exact sequenced.mem }
  exact ⟨grounded.recoverable, newSequenced, { grounded.listed with }, { grounded.backs with },
    grounded.works.mono rfl rfl rfl le_rfl le_rfl rfl fun full => ⟨full, rfl, rfl⟩⟩

theorem Memory.Grounded.insertBatch [Inhabited β] (grounded : memory.Grounded files flushed switched)
    (isBatch : memory.write.batch = some batch) :
    Memory.Grounded { memory with db := { memory.db with
      mem := insertInto memory.db.mem batch.entries } } files flushed switched := by
  have sequenced := grounded.sequenced
  obtain ⟨sequence, wellFormed⟩ := sequenced.batch batch isBatch
  have inserted : ∀ entry ∈ insertInto memory.db.mem batch.entries,
      switched < entry.sequence ∧ entry.sequence ≤ memory.reached := by
    intro entry member
    rcases mem_insertInto.mp member with old | new
    · exact sequenced.mem entry old
    · have bounds := wellFormed.entry_bounds new
      have after := sequenced.switched_le
      rw [Memory.reached_eq isBatch]
      rw [WriteBatch.next, sequence] at bounds
      omega
  exact ⟨grounded.recoverable, { sequenced with mem := inserted }, { grounded.listed with },
    { grounded.backs with },
    grounded.works.mono rfl rfl rfl le_rfl le_rfl rfl fun full => ⟨full, rfl, rfl⟩⟩

theorem Memory.Grounded.finishWrite (grounded : memory.Grounded files flushed switched)
    (isBatch : memory.write.batch = some batch) (error : Bool) :
    Memory.Grounded { memory with
      db := { memory.db with lastSequence := batch.sequence - 1 + batch.count }
      bgError := error
      write := .idle } files flushed switched := by
  have sequenced := grounded.sequenced
  obtain ⟨sequence, wellFormed⟩ := sequenced.batch batch isBatch
  have isLast : batch.sequence - 1 + batch.count = memory.reached := by
    rw [Memory.reached_eq isBatch, sequence]
    rfl
  have le : memory.db.lastSequence ≤ memory.reached := Nat.le_add_right _ _
  rw [isLast]
  have newSequenced : Memory.Sequenced { memory with
      db := { memory.db with lastSequence := memory.reached }
      bgError := error
      write := .idle } files.logs flushed switched :=
    { sequenced with
      switched_le := sequenced.switched_le.trans le
      batch := fun other isOther => by cases isOther }
  exact ⟨grounded.recoverable, newSequenced,
    grounded.listed.mono rfl rfl (fun _ => Or.inl) le_rfl le,
    grounded.backs.mono rfl le_rfl le_rfl le,
    grounded.works.mono rfl rfl rfl le_rfl le rfl fun full => ⟨full, rfl, rfl⟩⟩

/-- A new log is created, and the memtable waits to be flushed. -/
theorem Memory.Grounded.switchMemTable (grounded : memory.Grounded files flushed switched)
    (idle : memory.write = .idle) (empty : memory.db.imm = none) :
    Memory.Grounded { memory with
      db := { memory.db with
        mem := [], imm := some memory.db.mem, nextFileNumber := memory.db.nextFileNumber + 1 }
      logFileNumber := memory.db.nextFileNumber }
      (files.createLog memory.db.nextFileNumber) flushed memory.db.lastSequence := by
  have sequenced := grounded.sequenced
  have below : ∀ number ∈ files.logs.numbers, number < memory.db.nextFileNumber :=
    fun number member => (sequenced.newest number member).trans_lt sequenced.logFile_lt
  have isReached : memory.reached = memory.db.lastSequence := by
    rw [Memory.reached, idle]
    rfl
  have logged : UpTo files.logs (memory.logFileNumber + 1) memory.db.lastSequence :=
    isReached ▸ sequenced.logged
  have all : ∀ limit, UpTo files.logs limit memory.db.lastSequence := fun limit number member _ =>
    logged number member (Nat.lt_succ_of_le (sequenced.newest number member))
  have log_lt : memory.logNumber < memory.db.nextFileNumber :=
    sequenced.log_le.trans_lt sequenced.logFile_lt
  have descriptor_lt := fun kept descriptor reads =>
    (grounded.backs.log_le kept descriptor reads).trans sequenced.logFile_lt.le
  refine ⟨⟨?_, grounded.recoverable.current, ?_⟩, ?_, ?_, ?_, ?_⟩
  · exact grounded.recoverable.order.create below ((Nat.zero_le _).trans_lt sequenced.logFile_lt)
  · refine grounded.recoverable.backed.of_logs (fun kept descriptor reads stale => stale.create) ?_
    exact fun kept descriptor reads _ => ⟨_, Lib.Shelf.mem_put.mpr (Or.inl rfl),
      descriptor_lt kept descriptor reads⟩
  · exact
      { flushed_le := sequenced.flushed_le.trans sequenced.switched_le
        switched_le := le_rfl
        opened := Lib.Shelf.mem_put.mpr (Or.inl rfl)
        newest := fun number member => by
          rcases Lib.Shelf.mem_put.mp member with same | old
          · exact same.le
          · exact (below number old).le
        logFile_lt := Nat.lt_succ_self _
        log_le := log_lt.le
        prev := sequenced.prev
        batch := sequenced.batch
        logged := (all _).create.mono le_rfl (Nat.le_add_right _ _)
        older := (all _).create
        stale := sequenced.stale.create
        mem := fun entry member => absurd member List.not_mem_nil
        imm := fun imm isImm entry member => by
          obtain rfl := Option.mem_some.mp isImm
          have bounds := sequenced.mem entry member
          rw [isReached] at bounds
          exact ⟨sequenced.flushed_le.trans_lt bounds.1, bounds.2⟩ }
  · exact grounded.listed.mono rfl rfl (fun _ => Or.inl) (Nat.le_succ _) le_rfl
  · have moved : Memory.Backs { memory with
        db := { memory.db with
          mem := [], imm := some memory.db.mem, nextFileNumber := memory.db.nextFileNumber + 1 }
        logFileNumber := memory.db.nextFileNumber } files :=
      grounded.backs.mono rfl sequenced.logFile_lt.le (Nat.le_succ _) le_rfl
    exact { moved with }
  · refine grounded.works.mono rfl rfl rfl (Nat.le_succ _) le_rfl rfl fun full => ?_
    rw [empty] at full
    cases full

end Writers

/-! ### Readers and the background thread -/

section Background

variable {memory : Memory α β} {files : Files α β} {flushed switched : Nat}

theorem Memory.Grounded.read (grounded : memory.Grounded files flushed switched)
    {snapshots : List Nat} {fileToCompact : Option (FileMetaData α β × Nat)}
    {pinned : List (Version α β)}
    (seek : fileToCompact = memory.db.version.fileToCompact ∨ ∃ file level,
      fileToCompact = some (file, level) ∧ file ∈ memory.db.version.files level)
    (pins : ∀ version ∈ pinned, version ∈ memory.pinned ∨ version = memory.db.version) :
    Memory.Grounded { memory with
      db := { memory.db with snapshots, version := { memory.db.version with fileToCompact } }
      pinned } files flushed switched := by
  have listed := grounded.listed
  refine ⟨grounded.recoverable, { grounded.sequenced with }, ⟨listed.version, ?_, ?_, ?_⟩,
    { grounded.backs with },
    grounded.works.mono rfl rfl rfl le_rfl le_rfl rfl fun full => ⟨full, rfl, rfl⟩⟩
  · intro file level isSeek
    rcases seek with same | ⟨other, otherLevel, isOther, member⟩
    · exact listed.seek file level (same ▸ isSeek)
    · cases isOther.symm.trans isSeek
      exact member
  · intro version member
    rcases pins version member with old | rfl
    · exact listed.pinned version old
    · exact listed.version
  · exact listed.pending

variable {pointer : Nat → Option (InternalKey α)} {pending : Finset Nat}

/-- The background thread goes on and takes file numbers. -/
theorem Memory.Grounded.background (grounded : memory.Grounded files flushed switched)
    {next : Nat} {error : Bool}
    {work : Work α β} (nexts : memory.db.nextFileNumber ≤ next)
    (pendings : ∀ number ∈ pending, number ∈ memory.pendingOutputs ∨ number < next)
    (works : Memory.Works { memory with
      db := { memory.db with compactPointer := pointer, nextFileNumber := next }
      pendingOutputs := pending
      bgError := error
      work } files.manifest.edits flushed switched) :
    Memory.Grounded { memory with
      db := { memory.db with compactPointer := pointer, nextFileNumber := next }
      pendingOutputs := pending
      bgError := error
      work } files flushed switched := by
  have sequenced := grounded.sequenced
  exact ⟨grounded.recoverable,
    { sequenced with logFile_lt := sequenced.logFile_lt.trans_le nexts },
    grounded.listed.mono rfl rfl pendings nexts le_rfl,
    grounded.backs.mono rfl le_rfl nexts le_rfl, works⟩

theorem Memory.Grounded.of_tables (grounded : memory.Grounded files flushed switched)
    (tables : Lib.Shelf (TableFile α β)) :
    memory.Grounded { files with tables } flushed switched :=
  ⟨{ grounded.recoverable with }, grounded.sequenced, grounded.listed, { grounded.backs with },
    grounded.works⟩

omit [LinearOrder α] in
theorem exists_putTable (files : Files α β) (number : Nat) (entries : List (Entry α β))
    (synced : Bool) : ∃ tables, files.putTable number entries synced = { files with tables } := by
  cases entries with
  | nil => exact ⟨files.tables, rfl⟩
  | cons first rest => exact ⟨_, rfl⟩

theorem Memory.Grounded.putTable (grounded : memory.Grounded files flushed switched)
    (number : Nat) (entries : List (Entry α β)) (synced : Bool) :
    memory.Grounded (files.putTable number entries synced) flushed switched := by
  obtain ⟨tables, isTables⟩ := exists_putTable files number entries synced
  rw [isTables]
  exact grounded.of_tables tables

/-- After a flush the thread is where it was before. -/
theorem Memory.Grounded.afterFlush (grounded : memory.Grounded files flushed switched)
    {pending : Finset Nat} {error : Bool} {inside : Option (CompactionJob α β)}
    (pendings : ∀ number ∈ pending, number ∈ memory.pendingOutputs)
    (job : ∀ job ∈ inside, job.Below pending memory.db.nextFileNumber memory.db.lastSequence) :
    (Memory.afterFlush { memory with pendingOutputs := pending, bgError := error }
      inside).Grounded files flushed switched := by
  cases inside with
  | none =>
    refine grounded.background le_rfl (fun number member => Or.inl (pendings number member)) ?_
    exact Memory.Works.of_job (fun job isJob => by cases isJob) (fun _ _ _ stage => by cases stage)
      fun _ _ _ stage => by cases stage
  | some running =>
    refine grounded.background le_rfl (fun number member => Or.inl (pendings number member)) ?_
    exact Memory.Works.of_job job (fun _ _ _ stage => by cases stage)
      fun _ _ _ stage => by cases stage

/-- The thread stops. -/
theorem Memory.Grounded.stop (grounded : memory.Grounded files flushed switched) {error : Bool}
    (pendings : ∀ number ∈ pending, number ∈ memory.pendingOutputs) :
    Memory.Grounded { memory with pendingOutputs := pending, bgError := error, work := .idle } files
      flushed switched :=
  @Memory.Grounded.afterFlush _ _ _ memory files flushed switched grounded pending error none
    pendings fun job isJob => by cases isJob

theorem Memory.Grounded.logFailed (grounded : memory.Grounded files flushed switched)
    {edit : VersionEdit α β} {stage : ManifestStage} {caller : LogCaller α β}
    (isLogging : memory.work = .logging edit stage caller) :
    (memory.logFailed caller).Grounded files flushed switched := by
  have job := grounded.works.job
  rw [isLogging] at job
  cases caller with
  | compactMemTable inside =>
    exact grounded.afterFlush (fun _ member => member) job
  | trivialMove => exact grounded.stop fun _ member => member
  | installResults running =>
    exact grounded.stop fun number member => (Finset.mem_sdiff.mp member).1

variable {inside : Option (CompactionJob α β)}

/-- `CompactMemTable` begins. -/
theorem Memory.Grounded.startFlush (grounded : memory.Grounded files flushed switched)
    (full : memory.db.imm.isSome = true) (isJob : memory.work.job = inside) :
    Memory.Grounded { memory.newFileNumber with
      pendingOutputs := insert memory.db.nextFileNumber memory.pendingOutputs
      work := .building memory.db.nextFileNumber false inside } files flushed switched := by
  have works := grounded.works
  refine grounded.background (Nat.le_succ _) (fun number member => ?_) ⟨?_, ?_, ?_⟩
  · rcases Finset.mem_insert.mp member with same | old
    · exact Or.inr (same ▸ Nat.lt_succ_self _)
    · exact Or.inl old
  · intro job member
    exact (works.job job (isJob ▸ member)).mono
      (fun _ _ old => Finset.mem_insert_of_mem old) (Nat.le_succ _) le_rfl
  · intro number synced inside' stage
    cases stage
    refine ⟨full, Finset.mem_insert_self _ _, fun job member output inOutputs => ?_⟩
    have pending := (works.job job (isJob ▸ member)).pending output inOutputs
    exact (grounded.listed.pending _ pending).ne
  · exact fun _ _ _ stage => by cases stage

theorem Memory.Grounded.tableSynced (grounded : memory.Grounded files flushed switched)
    {number : Nat} {synced : Bool} (stage : memory.work = .building number synced inside) :
    Memory.Grounded { memory with work := .building number true inside } files flushed switched := by
  have works := grounded.works
  refine grounded.background le_rfl (fun _ => Or.inl) ⟨?_, ?_, ?_⟩
  · have job := works.job
    rw [stage] at job
    exact job
  · intro _ _ _ same
    cases same
    exact works.building number synced inside stage
  · exact fun _ _ _ impossible => by cases impossible

/-- The number of a table that is no longer being built is given back. -/
theorem Memory.Grounded.erase_pending (grounded : memory.Grounded files flushed switched)
    {number : Nat} {synced : Bool} (stage : memory.work = .building number synced inside) :
    ∀ job ∈ inside, job.Below (memory.pendingOutputs.erase number) memory.db.nextFileNumber
      memory.db.lastSequence := by
  intro job member
  have below := grounded.works.job job (by rw [stage]; exact member)
  have different := (grounded.works.building number synced inside stage).2.2 job member
  exact below.mono (fun output inOutputs pending => Finset.mem_erase.mpr
    ⟨different output inOutputs, pending⟩) le_rfl le_rfl

/-- `LogAndApply` completes the edit. -/
theorem Memory.Grounded.complete (grounded : memory.Grounded files flushed switched)
    {edit : VersionEdit α β}
    {caller : LogCaller α β} (pendings : ∀ number ∈ pending, number ∈ memory.pendingOutputs)
    (prev : edit.prevLogNumber.getD 0 = 0)
    (new : ∀ added ∈ edit.newFiles,
      added.2.Below memory.db.nextFileNumber memory.db.lastSequence)
    (writes : caller.Writes memory flushed switched (edit.logNumber.getD memory.logNumber)
      memory.db.lastSequence)
    (job : ∀ job ∈ (Work.logging (memory.completeEdit edit) .started caller).job,
      job.Below pending memory.db.nextFileNumber memory.db.lastSequence) :
    Memory.Grounded { memory with
      db := { memory.db with compactPointer := pointer }
      pendingOutputs := pending
      work := .logging (memory.completeEdit edit) .started caller } files flushed switched := by
  have sequenced := grounded.sequenced
  refine grounded.background le_rfl (fun number member => Or.inl (pendings number member))
    ⟨job, fun _ _ _ stage => (by cases stage), ?_⟩
  intro other stage otherCaller same
  cases same
  have log_lt : edit.logNumber.getD memory.logNumber < memory.db.nextFileNumber := by
    cases caller with
    | compactMemTable inside => exact writes.2.1.trans_lt sequenced.logFile_lt
    | trivialMove => exact writes.1.trans_lt (sequenced.log_le.trans_lt sequenced.logFile_lt)
    | installResults running =>
      exact writes.1.trans_lt (sequenced.log_le.trans_lt sequenced.logFile_lt)
  refine ⟨_, _, _, ⟨rfl, ?_, rfl, rfl⟩, le_rfl, le_rfl, new, ?_, grounded.backs.manifest_lt, log_lt,
    fun _ => grounded.backs.below⟩
  · show some (edit.prevLogNumber.getD memory.prevLogNumber) = some 0
    rw [sequenced.prev, prev]
  · cases caller with
    | compactMemTable inside => exact writes
    | trivialMove => exact writes
    | installResults running => exact writes

variable {options : Options α β}

theorem Memory.Grounded.tableBuilt (grounded : memory.Grounded files flushed switched)
    {number : Nat} {imm : List (Entry α β)} (isImm : memory.db.imm = some imm)
    (stage : memory.work = .building number true inside) :
    Memory.Grounded { memory with
      pendingOutputs := memory.pendingOutputs.erase number
      work := .logging (memory.completeEdit (((writeLevel0Table options
          (some memory.db.version) number imm {}).setPrevLogNumber 0).setLogNumber
            memory.logFileNumber)) .started (.compactMemTable inside) } files flushed switched := by
  have sequenced := grounded.sequenced
  have building := grounded.works.building number true inside stage
  have number_lt := grounded.listed.pending number building.2.1
  refine grounded.complete (fun _ member => Finset.mem_of_mem_erase member) rfl ?_
    ⟨building.1, rfl, sequenced.switched_le⟩ (grounded.erase_pending stage)
  intro added member
  rcases (writeLevel0Table_flushes options (some memory.db.version) number imm).newFiles with
    ⟨_, none⟩ | ⟨level, file, single, isNumber, isEntries⟩
  · cases none ▸ member
  · obtain rfl := List.mem_singleton.mp (single ▸ member)
    refine ⟨isNumber ▸ number_lt, fun entry inFile => ?_⟩
    have bounds := sequenced.imm imm isImm entry (isEntries ▸ inFile)
    exact bounds.2.trans sequenced.switched_le

variable {compaction : Compaction α β} {choice : Action α β}

/-- A compaction that the thread sets up is a chosen one. -/
theorem Db.chosen_of_seek {db : Db α β}
    (seek : ∀ file level, db.version.fileToCompact = some (file, level) →
      file ∈ db.version.files level)
    (chooses : db.chosen options choice = some compaction) : compaction.Chosen db.version := by
  cases choice with
  | backgroundCompaction => exact Scheduler.pickCompaction_chosen_of_seek seek chooses
  | manualCompaction level first last =>
    rw [Db.chosen] at chooses
    split at chooses
    · exact (compactRange_chosen chooses).2
    · cases chooses
  | _ => cases chooses

omit [LinearOrder α] in
theorem moveEdit_numbers (compaction : Compaction α β) :
    compaction.moveEdit.logNumber = none ∧ compaction.moveEdit.prevLogNumber = none := by
  rw [Compaction.moveEdit]
  split
  · exact ⟨rfl, rfl⟩
  · exact ⟨rfl, rfl⟩

omit [LinearOrder α] in
theorem installEdit_numbers (compaction : Compaction α β) (outputs : List (FileMetaData α β)) :
    (installEdit compaction outputs).logNumber = none ∧
      (installEdit compaction outputs).prevLogNumber = none := by
  have kept : ∀ (files : List (FileMetaData α β)) (edit : VersionEdit α β),
      (files.foldl (fun edit file => edit.addFile (compaction.level + 1) file) edit).logNumber =
          edit.logNumber ∧
        (files.foldl (fun edit file => edit.addFile (compaction.level + 1) file)
          edit).prevLogNumber = edit.prevLogNumber := by
    intro files
    induction files with
    | nil => exact fun edit => ⟨rfl, rfl⟩
    | cons file rest inductionHypothesis =>
      exact fun edit => inductionHypothesis (edit.addFile (compaction.level + 1) file)
  exact kept outputs _

theorem Memory.Grounded.startMove (grounded : memory.Grounded files flushed switched)
    (chooses : memory.db.chosen options choice = some compaction)
    (isTrivialMove : compaction.isTrivialMove options = true) :
    Memory.Grounded { memory with
      db := { memory.db with compactPointer := pointer }
      work := .logging (memory.completeEdit compaction.moveEdit) .started .trivialMove } files
        flushed switched := by
  have sequenced := grounded.sequenced
  have chosen := Db.chosen_of_seek grounded.listed.seek chooses
  obtain ⟨noLog, noPrev⟩ := moveEdit_numbers compaction
  refine grounded.complete (fun _ member => member) (by rw [noPrev]; rfl) ?_ ?_
    fun job isJob => by cases isJob
  · intro added member
    obtain ⟨file, inputs0, _, replaces⟩ := moveEdit_replaces isTrivialMove
    rw [replaces.newFiles] at member
    obtain rfl := List.mem_singleton.mp member
    have isInput : file ∈ compaction.inputs0 := by
      rw [inputs0]
      exact List.mem_singleton_self _
    exact grounded.listed.version _ file (chosen.inputs0_sublist.subset isInput)
  · rw [noLog]
    exact ⟨rfl, sequenced.flushed_le.trans sequenced.switched_le⟩

theorem Memory.Grounded.startCompaction (grounded : memory.Grounded files flushed switched)
    (chooses : memory.db.chosen options choice = some compaction) :
    Memory.Grounded { memory with
      db := { memory.db with compactPointer := pointer }
      work := .compacting
        { compaction
          manual := none
          smallestSnapshot := oldestSnapshot memory.db.snapshots memory.db.lastSequence
          loop := CompactionState.initial memory.db.nextFileNumber
          remaining := makeInputIterator compaction } } files flushed switched := by
  have chosen := Db.chosen_of_seek grounded.listed.seek chooses
  refine grounded.background le_rfl (fun _ => Or.inl) (Memory.Works.of_job ?_
    (fun _ _ _ stage => by cases stage) fun _ _ _ stage => by cases stage)
  intro job isJob
  obtain rfl := Option.mem_some.mp isJob
  refine ⟨?_, fun output member => absurd member List.not_mem_nil, ⟨[], initial_fills _, ?_⟩, ?_⟩
  · rw [chosen.inputVersion_eq]
    exact grounded.listed.version
  · exact fun entry member => absurd member List.not_mem_nil
  · intro entry member
    obtain ⟨file, isInput, inFile⟩ := mem_makeInputIterator.mp member
    rcases isInput with first | second
    · exact (grounded.listed.version _ file (chosen.inputs0_sublist.subset first)).2 entry inFile
    · exact (grounded.listed.version _ file (chosen.inputs1_sublist.subset second)).2 entry inFile

/-- A round of the loop takes the next number at most, and it is pending then. -/
theorem Memory.Grounded.visit (grounded : memory.Grounded files flushed switched)
    {job : CompactionJob α β} {entry : Entry α β}
    {rest : List (Entry α β)} {loop : CompactionState α β}
    (stage : memory.work = .compacting job) (remaining : job.remaining = entry :: rest)
    (isLoop : loop = { job.loop with nextFileNumber := memory.db.nextFileNumber }.step options
      job.compaction job.smallestSnapshot entry) :
    Memory.Grounded { memory.setNextFileNumber loop.nextFileNumber with
      pendingOutputs := memory.pendingOutputs ∪ (loop.allOutputs.map Output.number).toFinset
      work := .compacting { job with loop := loop, remaining := rest } } files flushed
        switched := by
  have below := grounded.works.job job (by rw [stage]; rfl)
  have le : memory.db.nextFileNumber ≤ loop.nextFileNumber := by
    rw [isLoop]
    exact le_nextFileNumber_step { job.loop with nextFileNumber := memory.db.nextFileNumber }
      options _ _ _
  have numbers := step_numbers { job.loop with nextFileNumber := memory.db.nextFileNumber }
    options job.compaction job.smallestSnapshot entry
  rw [← isLoop] at numbers
  have old : ∀ number ∈ job.loop.allOutputs.map Output.number, number ∈ memory.pendingOutputs := by
    intro number member
    obtain ⟨output, inOutputs, rfl⟩ := List.mem_map.mp member
    exact below.pending output inOutputs
  refine grounded.background le (fun number member => ?_) (Memory.Works.of_job ?_
    (fun _ _ _ impossible => by cases impossible) fun _ _ _ impossible => by cases impossible)
  · rcases Finset.mem_union.mp member with pending | output
    · exact Or.inl pending
    · rw [List.mem_toFinset] at output
      rcases numbers with same | ⟨grown, isNext⟩
      · exact Or.inl (old number (same ▸ output))
      · rw [grown] at output
        rcases List.mem_append.mp output with before | new
        · exact Or.inl (old number before)
        · rw [List.mem_singleton.mp new, isNext]
          exact Or.inr (Nat.lt_succ_self _)
  · intro other isOther
    obtain rfl := Option.mem_some.mp isOther
    obtain ⟨kept, fills, kept_le⟩ := below.kept
    have sameFills : { job.loop with nextFileNumber := memory.db.nextFileNumber }.Fills kept :=
      ⟨fills.built, fills.entries_eq⟩
    have stepped := sameFills.step options job.compaction job.smallestSnapshot entry
    rw [← isLoop] at stepped
    have visited : ∀ other ∈ job.remaining, other.sequence ≤ memory.db.lastSequence :=
      below.remaining
    rw [remaining] at visited
    refine ⟨below.input.mono le le_rfl, fun output inOutputs => ?_, ⟨_, stepped, ?_⟩, ?_⟩
    · exact Finset.mem_union_right _ (List.mem_toFinset.mpr (List.mem_map_of_mem inOutputs))
    · intro added member
      rcases List.mem_append.mp member with before | new
      · exact kept_le added before
      · split at new
        · cases new
        · rw [List.mem_singleton.mp new]
          exact visited entry List.mem_cons_self
    · exact fun other member => visited other (List.mem_cons_of_mem _ member)

/-- The outputs of a compaction are below the counters. -/
theorem Memory.Grounded.endLoop (grounded : memory.Grounded files flushed switched)
    {job : CompactionJob α β} (stage : memory.work = .compacting job) :
    Memory.Grounded { memory with
      work := .logging (memory.completeEdit (installEdit job.compaction
        (job.loop.finish.outputs.map (Output.toFile options)))) .started
          (.installResults job) } files flushed switched := by
  have sequenced := grounded.sequenced
  have below := grounded.works.job job (by rw [stage]; rfl)
  obtain ⟨noLog, noPrev⟩ := installEdit_numbers job.compaction
    (job.loop.finish.outputs.map (Output.toFile options))
  refine grounded.complete (fun _ member => member) (by rw [noPrev]; rfl) ?_ ?_ ?_
  · intro added member
    rw [installEdit_newFiles] at member
    obtain ⟨file, inFiles, rfl⟩ := List.mem_map.mp member
    obtain ⟨output, inFinish, rfl⟩ := List.mem_map.mp inFiles
    have inOutputs : output ∈ job.loop.allOutputs := inFinish
    obtain ⟨kept, fills, kept_le⟩ := below.kept
    refine ⟨grounded.listed.pending _ (below.pending output inOutputs), fun entry inFile => ?_⟩
    refine kept_le entry ?_
    rw [← fills.entries_eq]
    exact List.mem_flatMap_of_mem inOutputs inFile
  · rw [noLog]
    exact ⟨rfl, sequenced.flushed_le.trans sequenced.switched_le⟩
  · intro other isOther
    obtain rfl := Option.mem_some.mp isOther
    exact below

end Background

/-! ### The manifest -/

section Manifest

variable {memory : Memory α β} {files : Files α β} {flushed switched : Nat}
  {edit : VersionEdit α β} {stage : ManifestStage} {caller : LogCaller α β}

theorem LogCaller.record_edit (caller : LogCaller α β) : (caller.record edit).edit = edit := by
  cases caller <;> rfl

omit [LinearOrder α] in
theorem appendEdit_edits (files : Files α β) (record : ManifestRecord α β) :
    (files.appendEdit files.current record).manifest.edits =
      files.manifest.edits ++ [record.edit] := by
  rw [Files.manifest, Files.appendEdit]
  simp only [Lib.Shelf.put_file_self]
  exact List.map_append

omit [LinearOrder α] in
theorem syncManifest_edits (files : Files α β) :
    (files.syncManifest files.current).manifest.edits = files.manifest.edits := by
  rw [Files.manifest, Files.syncManifest]
  simp only [Lib.Shelf.put_file_self]
  rfl

/-- The edit joins the manifest. -/
theorem Memory.Grounded.appendEdit (grounded : memory.Grounded files flushed switched)
    (isLogging : memory.work = .logging edit .started caller) :
    memory.Grounded (files.appendEdit memory.manifestFileNumber (caller.record edit)) flushed
      switched := by
  obtain ⟨logNumber, next, last, completed⟩ := grounded.works.logging _ _ _ isLogging
  have sequenced := grounded.sequenced
  have below := completed.below rfl
  have log_le : logNumber ≤ memory.logFileNumber := by
    have writes := completed.writes
    cases caller with
    | compactMemTable inside => exact writes.2.1.le
    | trivialMove => exact writes.1.le.trans sequenced.log_le
    | installResults job => exact writes.1.le.trans sequenced.log_le
  have stale : UpTo files.logs logNumber last := by
    have writes := completed.writes
    cases caller with
    | compactMemTable inside => exact sequenced.older.mono writes.2.1.le writes.2.2
    | trivialMove => exact sequenced.stale.mono writes.1.le writes.2
    | installResults job => exact sequenced.stale.mono writes.1.le writes.2
  have edits : (files.appendEdit memory.manifestFileNumber (caller.record edit)).manifest.edits =
      files.manifest.edits ++ [edit] := by
    rw [← grounded.backs.isCurrent, appendEdit_edits, LogCaller.record_edit]
  have appended := below.append completed.numbered completed.new
  refine ⟨⟨grounded.recoverable.order, ?_, ?_⟩, sequenced, grounded.listed, ⟨?_, ?_, ?_, ?_⟩, ?_⟩
  · exact Lib.Shelf.mem_put.mpr (Or.inr grounded.recoverable.current)
  · rw [edits]
    refine grounded.recoverable.backed.append completed.numbered completed.log ?_ below
      completed.new stale ⟨_, sequenced.opened, log_le⟩
    rw [grounded.backs.isCurrent]
    exact completed.manifest
  · exact grounded.backs.isCurrent
  · exact grounded.backs.manifest_lt
  · rw [edits]
    exact appended.mono completed.next_le completed.last_le
  · rw [edits]
    intro kept descriptor reads
    rcases read_take_append completed.numbered reads with ⟨_, old⟩ | ⟨_, isLog, _⟩
    · exact grounded.backs.log_le kept descriptor old
    · exact isLog.le.trans log_le
  · rw [edits]
    refine ⟨grounded.works.job, grounded.works.building, fun other otherStage otherCaller same => ?_⟩
    cases isLogging.symm.trans same
    exact ⟨logNumber, next, last, { completed with below := fun _ => appended }⟩

theorem Memory.Grounded.syncManifest (grounded : memory.Grounded files flushed switched) :
    memory.Grounded (files.syncManifest memory.manifestFileNumber) flushed switched := by
  have edits : (files.syncManifest memory.manifestFileNumber).manifest.edits =
      files.manifest.edits := by
    rw [← grounded.backs.isCurrent, syncManifest_edits]
  refine ⟨⟨grounded.recoverable.order, ?_, ?_⟩, grounded.sequenced, grounded.listed, ?_, ?_⟩
  · exact Lib.Shelf.mem_put.mpr (Or.inr grounded.recoverable.current)
  · rw [edits]
    exact grounded.recoverable.backed
  · refine ⟨grounded.backs.isCurrent, grounded.backs.manifest_lt, ?_, ?_⟩
    · rw [edits]
      exact grounded.backs.below
    · rw [edits]
      exact grounded.backs.log_le
  · rw [edits]
    exact grounded.works

theorem Memory.Grounded.advance (grounded : memory.Grounded files flushed switched)
    (isLogging : memory.work = .logging edit stage caller) {stage' : ManifestStage}
    (later : stage' ≠ .started) :
    Memory.Grounded { memory with work := .logging edit stage' caller } files flushed
      switched := by
  have works := grounded.works
  refine grounded.background le_rfl (fun _ => Or.inl)
    ⟨?_, fun _ _ _ impossible => (by cases impossible), ?_⟩
  · have job := works.job
    rw [isLogging] at job
    cases caller <;> exact job
  · intro other otherStage otherCaller same
    cases same
    obtain ⟨logNumber, next, last, completed⟩ := works.logging _ _ _ isLogging
    refine ⟨logNumber, next, last, completed.numbered, completed.next_le, completed.last_le,
      completed.new, ?_, completed.manifest, completed.log, fun started => absurd started later⟩
    have writes := completed.writes
    cases caller <;> exact writes

/-- The tables of the new version are below the counters. -/
theorem Memory.Grounded.applied (grounded : memory.Grounded files flushed switched)
    (isLogging : memory.work = .logging edit stage caller) :
    (memory.db.version.applyEdit edit).Below memory.db.nextFileNumber memory.db.lastSequence := by
  obtain ⟨logNumber, next, last, completed⟩ := grounded.works.logging _ _ _ isLogging
  intro level file member
  rcases mem_applyEdit member with old | ⟨new, isNew, rfl⟩
  · exact grounded.listed.version level file old
  · exact (completed.new _ isNew).mono completed.next_le completed.last_le

/-- The marks after a step. -/
def Memory.marks (memory : Memory α β) (action : RunningAction α β) (flushed switched : Nat) :
    Nat × Nat :=
  match action, memory.work with
  | .switchMemTable, _ => (flushed, memory.db.lastSequence)
  | .install, .logging _ _ (.compactMemTable _) => (switched, switched)
  | _, _ => (flushed, switched)

omit [LinearOrder α] in
theorem Memory.marks_read (memory : Memory α β) {action : RunningAction α β}
    (reads : action.reads = true) (flushed switched : Nat) :
    memory.marks action flushed switched = (flushed, switched) := by
  cases action with
  | getSnapshot | releaseSnapshot | chargeSeek | pin | unpin => rfl
  | _ => cases reads

omit [LinearOrder α] in
theorem Memory.marks_flush {inside : Option (CompactionJob α β)}
    (isLogging : memory.work = .logging edit stage (.compactMemTable inside)) :
    memory.marks .install flushed switched = (switched, switched) := by
  simp only [Memory.marks, isLogging]

omit [LinearOrder α] in
theorem Memory.marks_install (isLogging : memory.work = .logging edit stage caller)
    (notFlush : ∀ inside, caller ≠ .compactMemTable inside) :
    memory.marks .install flushed switched = (flushed, switched) := by
  cases caller with
  | compactMemTable inside => exact absurd rfl (notFlush inside)
  | trivialMove => simp only [Memory.marks, isLogging]
  | installResults job => simp only [Memory.marks, isLogging]

/-- `LogAndApply` installs the version, and its caller goes on. A flush moves the first mark. -/
theorem Memory.Grounded.install (grounded : memory.Grounded files flushed switched)
    (isLogging : memory.work = .logging edit stage caller) :
    ((memory.install edit).logged caller).Grounded files
      (memory.marks .install flushed switched).1 (memory.marks .install flushed switched).2 := by
  obtain ⟨logNumber, next, last, completed⟩ := grounded.works.logging _ _ _ isLogging
  have sequenced := grounded.sequenced
  have version := grounded.applied isLogging
  have listed := grounded.listed
  have job := grounded.works.job
  rw [isLogging] at job
  have isLog : edit.logNumber.getD memory.logNumber = logNumber := by
    rw [completed.numbered.logNumber]
    rfl
  have isPrev : edit.prevLogNumber.getD memory.prevLogNumber = 0 := by
    rw [completed.numbered.prevLogNumber]
    rfl
  have newListed : ∀ pending ⊆ memory.pendingOutputs, ∀ number ∈ pending,
      number < memory.db.nextFileNumber := fun pending less number member =>
    listed.pending number (less member)
  have writes := completed.writes
  cases caller with
  | compactMemTable inside =>
    rw [Memory.marks_flush isLogging]
    refine ⟨grounded.recoverable, ?_, ⟨version, applyEdit_seek _ _, listed.pinned,
      listed.pending⟩, { grounded.backs with }, ?_⟩
    · exact
        { sequenced with
          flushed_le := le_rfl
          log_le := isLog.le.trans writes.2.1.le
          prev := isPrev
          stale := sequenced.older.mono (isLog.le.trans writes.2.1.le) le_rfl
          imm := fun imm isImm => by cases isImm }
    · exact Memory.Works.of_job job (fun _ _ _ impossible => by cases impossible)
        fun _ _ _ impossible => by cases impossible
  | trivialMove =>
    rw [Memory.marks_install isLogging fun _ impossible => by cases impossible]
    refine ⟨grounded.recoverable, ?_, ⟨version, applyEdit_seek _ _, listed.pinned,
      listed.pending⟩, { grounded.backs with }, ?_⟩
    · exact
        { sequenced with
          log_le := (isLog.trans writes.1).le.trans sequenced.log_le
          prev := isPrev
          stale := sequenced.stale.mono (isLog.trans writes.1).le le_rfl }
    · exact Memory.Works.of_job (fun _ isJob => by cases isJob)
        (fun _ _ _ impossible => by cases impossible) fun _ _ _ impossible => by cases impossible
  | installResults running =>
    rw [Memory.marks_install isLogging fun _ impossible => by cases impossible]
    refine ⟨grounded.recoverable, ?_, ⟨version, applyEdit_seek _ _, listed.pinned,
      newListed _ Finset.sdiff_subset⟩, { grounded.backs with }, ?_⟩
    · exact
        { sequenced with
          log_le := (isLog.trans writes.1).le.trans sequenced.log_le
          prev := isPrev
          stale := sequenced.stale.mono (isLog.trans writes.1).le le_rfl }
    · exact Memory.Works.of_job (fun _ isJob => by cases isJob)
        (fun _ _ _ impossible => by cases impossible) fun _ _ _ impossible => by cases impossible

/-! ### Deletions -/

omit [LinearOrder α] in
theorem Memory.lt_of_keeps_log {number : Nat} (obsolete : memory.keeps .log number = false) :
    number < memory.logNumber :=
  Nat.lt_of_not_le (of_decide_eq_false (Bool.or_eq_false_iff.mp obsolete).1)

omit [LinearOrder α] in
theorem Memory.lt_of_keeps_manifest {number : Nat}
    (obsolete : memory.keeps .manifest number = false) : number < memory.manifestFileNumber :=
  Nat.lt_of_not_le (of_decide_eq_false obsolete)

theorem Memory.Grounded.removeFile (grounded : memory.Grounded files flushed switched)
    {kind : FileKind} {number : Nat} (obsolete : memory.keeps kind number = false) :
    memory.Grounded (files.remove number kind) flushed switched := by
  cases kind with
  | log =>
    have sequenced := grounded.sequenced
    have less := Memory.lt_of_keeps_log obsolete
    have shrinks := shrinks_remove files.logs number
    have opened : memory.logFileNumber ∈ (files.logs.remove number).numbers :=
      Lib.Shelf.mem_remove.mpr ⟨(less.trans_le sequenced.log_le).ne', sequenced.opened⟩
    exact ⟨grounded.recoverable.shrink grounded.backs shrinks opened,
      sequenced.shrink shrinks opened, grounded.listed, { grounded.backs with }, grounded.works⟩
  | table => exact grounded.of_tables _
  | manifest =>
    have less := Memory.lt_of_keeps_manifest obsolete
    have current : files.current ∈ (files.manifests.remove number).numbers :=
      Lib.Shelf.mem_remove.mpr ⟨grounded.backs.isCurrent ▸ less.ne', grounded.recoverable.current⟩
    exact ⟨⟨grounded.recoverable.order, current, grounded.recoverable.backed⟩, grounded.sequenced,
      grounded.listed, { grounded.backs with }, grounded.works⟩

end Manifest

/-! ### Every step -/

/-- A step of an open database keeps the invariant. -/
theorem Memory.Grounded.moves [Inhabited β] {options : Options α β}
    {memory memory' : Memory α β} {files files' : Files α β} {action : RunningAction α β}
    {flushed switched : Nat} (grounded : memory.Grounded files flushed switched)
    (moves : memory.Moves options files action memory' files') :
    memory'.Grounded files' (memory.marks action flushed switched).1
      (memory.marks action flushed switched).2 := by
  cases moves with
  | append ops sync succeeds written batch idle noError fits isBatch =>
    have stage : (if succeeds then WriteStage.logged batch sync
        else .failed batch false).batch = some batch := by
      split <;> rfl
    have sequence : batch.sequence = memory.db.lastSequence + 1 := isBatch ▸ rfl
    have wellFormed : batch.WellFormed := isBatch ▸ rfl
    by_cases inLog : (succeeds || written) = true
    · rw [if_pos inLog]
      exact grounded.appendLog idle stage sequence wellFormed
    · rw [if_neg inLog]
      exact grounded.begin idle stage sequence wellFormed
  | syncLog batch stage =>
    exact (grounded.goOn (by rw [stage]; rfl)).syncLog
  | syncLogFails batch stage =>
    exact grounded.goOn (by rw [stage]; rfl)
  | insert batch sync stage =>
    have isBatch : memory.write.batch = some batch := by
      rcases stage with ⟨logged, _⟩ | ⟨synced, _⟩
      · rw [logged]
        rfl
      · rw [synced]
        rfl
    exact (grounded.insertBatch isBatch).goOn isBatch.symm
  | finishWrite batch error stage =>
    have isBatch : memory.write.batch = some batch := by
      rcases stage with ⟨⟨sync, inserted⟩, _⟩ | ⟨syncError, failed, _⟩
      · rw [inserted]
        rfl
      · rw [failed]
        rfl
    exact grounded.finishWrite isBatch error
  | switchMemTable idle noError empty =>
    exact grounded.switchMemTable idle empty
  | newLogFails idle noError empty => exact grounded
  | read _ reads snapshots fileToCompact pinned seek pins =>
    rw [memory.marks_read reads]
    exact grounded.read seek pins
  | startFlush inside imm isImm stage =>
    have isJob : memory.work.job = inside := by
      rcases stage with ⟨idle, _, isNone⟩ | ⟨job, compacting, _, isSome⟩
      · rw [idle, isNone]
        rfl
      · rw [compacting, isSome]
        rfl
    have full : memory.db.imm.isSome = true := by
      rw [isImm]
      rfl
    exact (grounded.startFlush full isJob).putTable _ imm false
  | syncTable number inside imm isImm stage =>
    exact (grounded.tableSynced stage).putTable number imm true
  | syncTableFails number inside imm isImm stage =>
    refine Memory.Grounded.of_tables ?_ _
    exact grounded.afterFlush (fun _ member => Finset.mem_of_mem_erase member)
      (grounded.erase_pending stage)
  | tableBuilt number inside imm isImm stage =>
    exact grounded.tableBuilt isImm stage
  | startMove choice compaction idle noError empty chooses isTrivialMove pointer =>
    exact grounded.startMove chooses isTrivialMove
  | startCompaction choice compaction idle noError empty chooses pointer =>
    exact grounded.startCompaction chooses
  | visit job entry rest loop stage remaining isLoop =>
    exact (grounded.visit stage remaining isLoop).of_tables _
  | endLoop job stage remaining =>
    exact (grounded.endLoop stage).of_tables _
  | endLoopFails job stage =>
    exact grounded.stop fun _ member => (Finset.mem_sdiff.mp member).1
  | appendEdit written edit caller stage =>
    refine (grounded.appendEdit stage).advance stage ?_
    exact fun impossible => by cases impossible
  | appendEditFails written edit caller stage =>
    split
    · exact (grounded.appendEdit stage).logFailed stage
    · exact grounded.logFailed stage
  | syncManifest edit caller stage =>
    refine grounded.syncManifest.advance stage ?_
    exact fun impossible => by cases impossible
  | syncManifestFails edit caller stage =>
    exact grounded.logFailed stage
  | install edit caller stage =>
    exact grounded.install stage
  | removeFile kind number inside stage noError obsolete there =>
    exact grounded.removeFile obsolete
  | endCollecting inside stage =>
    have job := grounded.works.job
    rw [stage] at job
    exact grounded.afterFlush (fun _ member => member) job

end LevelDb
