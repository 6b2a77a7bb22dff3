/-
This file proves that the order of the file numbers at level 0 is the order of age, over runs in
which no write to a manifest fails: what a manifest lists is older than the records of the logs that
are replayed with it, a flush takes a greater number than every table before it, and the memtables
are newer than all tables.
-/

import LevelDb.StoreSafety

namespace LevelDb

variable {α β : Type}

/-! ### What is listed and what is logged -/

/-- A table at level 0 with a greater number has only later entries. -/
def LevelZeroOrder (listed : List (Nat × FileMetaData α β)) : Prop :=
  ∀ older ∈ listed, ∀ newer ∈ listed, older.1 = 0 → newer.1 = 0 →
    older.2.number < newer.2.number → ∀ entry ∈ older.2.entries, ∀ later ∈ newer.2.entries,
      entry.sequence < later.sequence

/-- The tables have entries up to the bound. -/
def ListedUpTo (listed : List (Nat × FileMetaData α β)) (bound : Nat) : Prop :=
  ∀ added ∈ listed, ∀ entry ∈ added.2.entries, entry.sequence ≤ bound

/-- The logs from the limit on have records beyond the bound. -/
def LogsAbove (logs : Lib.Shelf (LogFile α β)) (limit bound : Nat) : Prop :=
  ∀ number ∈ logs.numbers, limit ≤ number → ∀ record ∈ (logs.file number).records,
    bound < record.sequence

/-- The tables are older than the logs from the limit on. -/
def Precede (listed : List (Nat × FileMetaData α β)) (logs : Lib.Shelf (LogFile α β))
    (limit : Nat) : Prop :=
  ∀ added ∈ listed, ∀ entry ∈ added.2.entries, LogsAbove logs limit entry.sequence

/-- The table is listed at the level, perhaps with another number of allowed seeks. -/
def ListedAt (listed : List (Nat × FileMetaData α β)) (level : Nat) (file : FileMetaData α β) :
    Prop :=
  ∃ new, (level, new) ∈ listed ∧ file.number = new.number ∧ file.entries = new.entries

section Listed

variable {listed others : List (Nat × FileMetaData α β)} {logs shrunk : Lib.Shelf (LogFile α β)}
  {limit bound : Nat}

theorem LevelZeroOrder.of_listed (order : LevelZeroOrder listed)
    (same : ∀ added ∈ others, ListedAt listed added.1 added.2) : LevelZeroOrder others := by
  intro older isOlder newer isNewer olderZero newerZero less entry inOlder later inNewer
  obtain ⟨first, firstListed, firstNumber, firstEntries⟩ := same older isOlder
  obtain ⟨second, secondListed, secondNumber, secondEntries⟩ := same newer isNewer
  rw [firstNumber, secondNumber] at less
  exact order _ firstListed _ secondListed olderZero newerZero less entry (firstEntries ▸ inOlder)
    later (secondEntries ▸ inNewer)

theorem ListedAt.self {added : Nat × FileMetaData α β} (member : added ∈ listed) :
    ListedAt listed added.1 added.2 :=
  ⟨added.2, member, rfl, rfl⟩

theorem ListedAt.mono {level : Nat} {file : FileMetaData α β} (isListed : ListedAt listed level file)
    (subset : listed ⊆ others) : ListedAt others level file := by
  obtain ⟨new, member, number, entries⟩ := isListed
  exact ⟨new, subset member, number, entries⟩

/-- One more table at level 0, or others below it. -/
theorem LevelZeroOrder.append (order : LevelZeroOrder listed)
    (single : ∀ added ∈ others, ∀ other ∈ others, added.1 = 0 → other.1 = 0 → added = other)
    (greater : ∀ old ∈ listed, ∀ new ∈ others, new.1 = 0 → old.2.number < new.2.number)
    (later : ∀ old ∈ listed, ∀ new ∈ others, new.1 = 0 → ∀ entry ∈ old.2.entries,
      ∀ other ∈ new.2.entries, entry.sequence < other.sequence) :
    LevelZeroOrder (listed ++ others) := by
  intro older isOlder newer isNewer olderZero newerZero less entry inOlder other inNewer
  rcases List.mem_append.mp isOlder with oldOlder | newOlder
  · rcases List.mem_append.mp isNewer with oldNewer | newNewer
    · exact order older oldOlder newer oldNewer olderZero newerZero less entry inOlder other inNewer
    · exact later older oldOlder newer newNewer newerZero entry inOlder other inNewer
  · rcases List.mem_append.mp isNewer with oldNewer | newNewer
    · exact absurd less (lt_asymm (greater newer oldNewer older newOlder olderZero))
    · obtain rfl := single older newOlder newer newNewer olderZero newerZero
      exact absurd less (lt_irrefl _)

theorem LevelZeroOrder.sublist (order : LevelZeroOrder listed) (subset : others ⊆ listed) :
    LevelZeroOrder others :=
  fun older isOlder newer isNewer => order older (subset isOlder) newer (subset isNewer)

theorem LogsAbove.shrinks (above : LogsAbove logs limit bound) (shrinks : Shrinks logs shrunk) :
    LogsAbove shrunk limit bound :=
  fun number there le record member => above number (shrinks.numbers there) le record
    ((shrinks.records number there).subset member)

theorem LogsAbove.mono {limit' bound' : Nat} (above : LogsAbove logs limit bound)
    (limits : limit ≤ limit') (bounds : bound' ≤ bound) : LogsAbove logs limit' bound' :=
  fun number there le record member =>
    bounds.trans_lt (above number there (limits.trans le) record member)

theorem LogsAbove.create {number : Nat} (above : LogsAbove logs limit bound) :
    LogsAbove (logs.put number LogFile.new) limit bound := by
  have created := @Lib.Shelf.forall_put _ logs number LogFile.new
    (fun other log => limit ≤ other → ∀ record ∈ log.records, bound < record.sequence)
  exact created (fun _ record impossible => absurd impossible List.not_mem_nil)
    fun other there _ => above other there

theorem LogsAbove.append {number : Nat} {batch : WriteBatch α β}
    (above : LogsAbove logs limit bound) (there : number ∈ logs.numbers)
    (younger : bound < batch.sequence) :
    LogsAbove (logs.put number ((logs.file number).append batch)) limit bound := by
  have appended := @Lib.Shelf.forall_put _ logs number ((logs.file number).append batch)
    (fun other log => limit ≤ other → ∀ record ∈ log.records, bound < record.sequence)
  refine appended (fun le record member => ?_) fun other inLogs _ => above other inLogs
  rcases List.mem_append.mp member with old | new
  · exact above number there le record old
  · rw [List.mem_singleton.mp new]
    exact younger

theorem Precede.shrinks (precede : Precede listed logs limit) (shrinks : Shrinks logs shrunk) :
    Precede listed shrunk limit :=
  fun added member entry inFile => (precede added member entry inFile).shrinks shrinks

theorem Precede.create {number : Nat} (precede : Precede listed logs limit) :
    Precede listed (logs.put number LogFile.new) limit :=
  fun added member entry inFile => (precede added member entry inFile).create

theorem Precede.append {number : Nat} {batch : WriteBatch α β} (precede : Precede listed logs limit)
    (there : number ∈ logs.numbers) (younger : ListedUpTo listed (batch.sequence - 1))
    (pos : 0 < batch.sequence) :
    Precede listed (logs.put number ((logs.file number).append batch)) limit :=
  fun added member entry inFile => (precede added member entry inFile).append there
    (Nat.lt_of_le_pred pos (younger added member entry inFile))

theorem LogsAbove.precede (above : LogsAbove logs limit bound) (upTo : ListedUpTo listed bound) :
    Precede listed logs limit :=
  fun added member entry inFile => above.mono le_rfl (upTo added member entry inFile)

end Listed

variable [LinearOrder α]

/-- Whatever is kept of the manifest is older than the logs that are replayed with it. -/
structure ManifestAged (logs : Lib.Shelf (LogFile α β)) (edits : List (VersionEdit α β)) :
    Prop where
  order : LevelZeroOrder (addedFiles edits)
  precede : ∀ kept descriptor, Descriptor.read (edits.take kept) = some descriptor →
    Precede (addedFiles (edits.take kept)) logs descriptor.logNumber

omit [LinearOrder α] in
theorem addedFiles_take_subset (edits : List (VersionEdit α β)) (kept : Nat) :
    addedFiles (edits.take kept) ⊆ addedFiles edits := by
  intro added member
  obtain ⟨edit, inEdits, isNew⟩ := List.mem_flatMap.mp member
  exact List.mem_flatMap.mpr ⟨edit, List.mem_of_mem_take inEdits, isNew⟩

section Manifest

variable {logs logs' : Lib.Shelf (LogFile α β)} {edits : List (VersionEdit α β)}

theorem ManifestAged.take (aged : ManifestAged logs edits) (kept : Nat) :
    ManifestAged logs (edits.take kept) := by
  refine ⟨aged.order.sublist (addedFiles_take_subset edits kept), fun fewer descriptor reads => ?_⟩
  rw [List.take_take] at reads ⊢
  exact aged.precede _ descriptor reads

theorem ManifestAged.of_logs (aged : ManifestAged logs edits)
    (precede : ∀ kept descriptor, Descriptor.read (edits.take kept) = some descriptor →
      Precede (addedFiles (edits.take kept)) logs descriptor.logNumber →
        Precede (addedFiles (edits.take kept)) logs' descriptor.logNumber) :
    ManifestAged logs' edits :=
  ⟨aged.order, fun kept descriptor reads =>
    precede kept descriptor reads (aged.precede kept descriptor reads)⟩

/-- One more edit. -/
theorem ManifestAged.append (aged : ManifestAged logs edits) {edit : VersionEdit α β}
    {logNumber next last : Nat} (numbered : edit.Numbered logNumber next last)
    (order : LevelZeroOrder (addedFiles (edits ++ [edit])))
    (precede : Precede (addedFiles (edits ++ [edit])) logs logNumber) :
    ManifestAged logs (edits ++ [edit]) := by
  refine ⟨order, fun kept descriptor reads => ?_⟩
  rcases read_take_append numbered reads with ⟨same, old⟩ | ⟨same, isLog, _⟩
  · rw [same]
    exact aged.precede kept descriptor old
  · rw [same, isLog]
    exact precede

end Manifest

/-! ### The open database -/

/-- The mark that the tables of the manifest reach up to: an edit of a flush that is written lists
the memtable. -/
def Work.listedUpTo (flushed switched : Nat) : Work α β → Nat
  | .logging _ .written (.compactMemTable _) | .logging _ .synced (.compactMemTable _) => switched
  | _ => flushed

omit [LinearOrder α] in
theorem Work.listedUpTo_eq {work : Work α β} {flushed switched : Nat}
    (notFlush : ∀ edit stage inside, work ≠ .logging edit stage (.compactMemTable inside)) :
    work.listedUpTo flushed switched = flushed := by
  rw [Work.listedUpTo]
  · exact fun edit inside isLogging => notFlush _ _ _ isLogging
  · exact fun edit inside isLogging => notFlush _ _ _ isLogging

/-- What the edit of a caller adds. -/
def LogCaller.Adds (imm : Option (List (Entry α β))) (listed : List (Nat × FileMetaData α β))
    (flushed : Nat) (stage : ManifestStage) (edit : VersionEdit α β) : LogCaller α β → Prop
  | .compactMemTable _ => ∃ number content, imm = some content ∧ edit.Flushes number content ∧
      (stage = .started → ∀ old ∈ listed, old.2.number < number)
  | .trivialMove | .installResults _ => ∀ new ∈ edit.newFiles, new.1 ≠ 0 ∧
      ∀ entry ∈ new.2.entries, entry.sequence ≤ flushed

/-- The tables are older than the memtables, and the tables of the manifest than the logs. -/
structure Memory.Aged (memory : Memory α β) (files : Files α β) (flushed switched : Nat) :
    Prop where
  manifest : ManifestAged files.logs files.manifest.edits
  version : ∀ level, ∀ file ∈ memory.db.version.files level, ∀ entry ∈ file.entries,
    entry.sequence ≤ flushed
  listed : ∀ file ∈ memory.db.version.files 0, ListedAt (addedFiles files.manifest.edits) 0 file
  upTo : ListedUpTo (addedFiles files.manifest.edits) (memory.work.listedUpTo flushed switched)
  switchedLogs : LogsAbove files.logs memory.logFileNumber switched
  flushedLogs : LogsAbove files.logs memory.logNumber flushed
  job : ∀ job ∈ memory.work.job,
    (∃ kept, job.loop.Fills kept ∧ ∀ entry ∈ kept, entry.sequence ≤ flushed) ∧
      ∀ entry ∈ job.remaining, entry.sequence ≤ flushed
  building : ∀ number synced inside, memory.work = .building number synced inside →
    ∀ old ∈ addedFiles files.manifest.edits, old.2.number < number
  logging : ∀ edit stage caller, memory.work = .logging edit stage caller →
    caller.Adds memory.db.imm (addedFiles files.manifest.edits) flushed stage edit ∧
      (stage ≠ .started → edit.newFiles ⊆ addedFiles files.manifest.edits)

section Running

variable {memory memory' : Memory α β} {files : Files α β} {flushed switched : Nat}

theorem Memory.Grounded.listed_le (grounded : memory.Grounded files flushed switched) :
    ListedUpTo (addedFiles files.manifest.edits) memory.db.lastSequence :=
  fun added member => (grounded.backs.below.added added member).2

/-- Only the work of the background thread has changed. -/
theorem Memory.Aged.goOn (aged : memory.Aged files flushed switched)
    (version : memory'.db.version = memory.db.version) (log : memory'.logNumber = memory.logNumber)
    (logFile : memory'.logFileNumber = memory.logFileNumber)
    (upTo : memory.work.listedUpTo flushed switched ≤ memory'.work.listedUpTo flushed switched)
    (job : ∀ job ∈ memory'.work.job,
      (∃ kept, job.loop.Fills kept ∧ ∀ entry ∈ kept, entry.sequence ≤ flushed) ∧
        ∀ entry ∈ job.remaining, entry.sequence ≤ flushed)
    (building : ∀ number synced inside, memory'.work = .building number synced inside →
      ∀ old ∈ addedFiles files.manifest.edits, old.2.number < number)
    (logging : ∀ edit stage caller, memory'.work = .logging edit stage caller →
      caller.Adds memory'.db.imm (addedFiles files.manifest.edits) flushed stage edit ∧
        (stage ≠ .started → edit.newFiles ⊆ addedFiles files.manifest.edits)) :
    memory'.Aged files flushed switched := by
  refine ⟨aged.manifest, ?_, ?_, ?_, ?_, ?_, job, building, logging⟩
  · rw [version]
    exact aged.version
  · rw [version]
    exact aged.listed
  · exact fun added member entry inFile => (aged.upTo added member entry inFile).trans upTo
  · rw [logFile]
    exact aged.switchedLogs
  · rw [log]
    exact aged.flushedLogs

/-- The thread neither builds a table nor writes the manifest now. -/
theorem Memory.Aged.quiet (aged : memory.Aged files flushed switched)
    (version : memory'.db.version = memory.db.version) (log : memory'.logNumber = memory.logNumber)
    (logFile : memory'.logFileNumber = memory.logFileNumber)
    (upTo : memory.work.listedUpTo flushed switched = flushed)
    (job : ∀ job ∈ memory'.work.job,
      (∃ kept, job.loop.Fills kept ∧ ∀ entry ∈ kept, entry.sequence ≤ flushed) ∧
        ∀ entry ∈ job.remaining, entry.sequence ≤ flushed)
    (notBuilding : ∀ number synced inside, memory'.work ≠ .building number synced inside)
    (notLogging : ∀ edit stage caller, memory'.work ≠ .logging edit stage caller) :
    memory'.Aged files flushed switched := by
  have upTo' : memory'.work.listedUpTo flushed switched = flushed :=
    Work.listedUpTo_eq fun edit stage inside => notLogging edit stage _
  exact aged.goOn version log logFile (upTo.trans upTo'.symm).le job
    (fun number synced inside isBuilding => absurd isBuilding (notBuilding number synced inside))
    fun edit stage caller isLogging => absurd isLogging (notLogging edit stage caller)

theorem Memory.Aged.of_tables (aged : memory.Aged files flushed switched)
    (tables : Lib.Shelf (TableFile α β)) : memory.Aged { files with tables } flushed switched :=
  { aged with }

theorem Memory.Aged.putTable (aged : memory.Aged files flushed switched) (number : Nat)
    (entries : List (Entry α β)) (synced : Bool) :
    memory.Aged (files.putTable number entries synced) flushed switched := by
  obtain ⟨tables, isTables⟩ := exists_putTable files number entries synced
  rw [isTables]
  exact aged.of_tables tables

theorem Memory.Aged.shrink (aged : memory.Aged files flushed switched)
    {logs : Lib.Shelf (LogFile α β)} (shrinks : Shrinks files.logs logs) :
    memory.Aged { files with logs } flushed switched :=
  { aged with
    manifest := aged.manifest.of_logs fun _ _ _ precede => precede.shrinks shrinks
    switchedLogs := aged.switchedLogs.shrinks shrinks
    flushedLogs := aged.flushedLogs.shrinks shrinks }

/-- The log takes a batch. -/
theorem Memory.Aged.appendLog (aged : memory.Aged files flushed switched)
    (grounded : memory.Grounded files flushed switched) {batch : WriteBatch α β}
    {write : WriteStage α β} (sequence : batch.sequence = memory.db.lastSequence + 1) :
    Memory.Aged { memory with write } (files.appendLog memory.logFileNumber batch) flushed
      switched := by
  have there := grounded.sequenced.opened
  have switched_lt : switched < batch.sequence :=
    sequence ▸ Nat.lt_succ_of_le grounded.sequenced.switched_le
  have listed : ListedUpTo (addedFiles files.manifest.edits) (batch.sequence - 1) := by
    rw [sequence]
    exact grounded.listed_le
  refine
    { aged with
      manifest := aged.manifest.of_logs fun kept descriptor _ precede => ?_
      switchedLogs := aged.switchedLogs.append there switched_lt
      flushedLogs :=
        aged.flushedLogs.append there (grounded.sequenced.flushed_le.trans_lt switched_lt) }
  exact precede.append there
    (fun added member => listed added (addedFiles_take_subset _ kept member))
    ((Nat.zero_le _).trans_lt switched_lt)

/-- A new log is created. -/
theorem Memory.Aged.switchMemTable (aged : memory.Aged files flushed switched)
    (grounded : memory.Grounded files flushed switched) (empty : memory.db.imm = none) :
    Memory.Aged { memory with
      db := { memory.db with
        mem := [], imm := some memory.db.mem, nextFileNumber := memory.db.nextFileNumber + 1 }
      logFileNumber := memory.db.nextFileNumber }
      (files.createLog memory.db.nextFileNumber) flushed memory.db.lastSequence := by
  have sequenced := grounded.sequenced
  have notFlush : ∀ edit stage inside, memory.work ≠ .logging edit stage (.compactMemTable inside) := by
    intro edit stage inside isLogging
    obtain ⟨_, _, _, completed⟩ := grounded.works.logging _ _ _ isLogging
    have full := completed.writes.1
    rw [empty] at full
    cases full
  have upTo : memory.work.listedUpTo flushed memory.db.lastSequence =
      memory.work.listedUpTo flushed switched := by
    rw [Work.listedUpTo_eq notFlush, Work.listedUpTo_eq notFlush]
  refine
    { aged with
      manifest := aged.manifest.of_logs fun _ _ _ precede => precede.create
      upTo := fun added member entry inFile =>
        (aged.upTo added member entry inFile).trans upTo.symm.le
      switchedLogs := ?_
      flushedLogs := aged.flushedLogs.create
      logging := fun edit stage caller isLogging => ?_ }
  · have created := @Lib.Shelf.forall_put _ files.logs memory.db.nextFileNumber LogFile.new
      (fun other log => memory.db.nextFileNumber ≤ other → ∀ record ∈ log.records,
        memory.db.lastSequence < record.sequence)
    refine created (fun _ record impossible => absurd impossible List.not_mem_nil) ?_
    intro other there _ le
    exact absurd (le.trans (sequenced.newest other there)) (Nat.not_le.mpr sequenced.logFile_lt)
  · obtain ⟨adds, isListed⟩ := aged.logging edit stage caller isLogging
    cases caller with
    | compactMemTable inside => exact absurd isLogging (notFlush _ _ _)
    | trivialMove => exact ⟨adds, isListed⟩
    | installResults job => exact ⟨adds, isListed⟩

theorem Memory.Aged.startFlush (aged : memory.Aged files flushed switched)
    (grounded : memory.Grounded files flushed switched) {inside : Option (CompactionJob α β)}
    (isJob : memory.work.job = inside)
    (notLogging : ∀ edit stage caller, memory.work ≠ .logging edit stage caller) :
    Memory.Aged { memory.newFileNumber with
      pendingOutputs := insert memory.db.nextFileNumber memory.pendingOutputs
      work := .building memory.db.nextFileNumber false inside } files flushed switched := by
  refine aged.goOn rfl rfl rfl ?_ (isJob ▸ aged.job) (fun number synced inside' isBuilding => ?_)
    fun _ _ _ impossible => by cases impossible
  · exact (Work.listedUpTo_eq fun edit stage inside => notLogging edit stage _).le
  · cases isBuilding
    exact fun old member => (grounded.backs.below.added old member).1

theorem Memory.Aged.tableSynced (aged : memory.Aged files flushed switched) {number : Nat}
    {synced : Bool} {inside : Option (CompactionJob α β)}
    (stage : memory.work = .building number synced inside) :
    Memory.Aged { memory with work := .building number true inside } files flushed switched := by
  have job := aged.job
  have upTo : memory.work.listedUpTo flushed switched = flushed := by
    rw [stage]
    rfl
  rw [stage] at job
  refine aged.goOn rfl rfl rfl upTo.le job (fun _ _ _ isBuilding => ?_)
    fun _ _ _ impossible => by cases impossible
  cases isBuilding
  exact aged.building number synced inside stage

theorem Memory.Aged.tableBuilt (aged : memory.Aged files flushed switched) {options : Options α β}
    {number : Nat} {inside : Option (CompactionJob α β)} {imm : List (Entry α β)}
    (isImm : memory.db.imm = some imm) (stage : memory.work = .building number true inside) :
    Memory.Aged { memory with
      pendingOutputs := memory.pendingOutputs.erase number
      work := .logging (memory.completeEdit (((writeLevel0Table options
          (some memory.db.version) number imm {}).setPrevLogNumber 0).setLogNumber
            memory.logFileNumber)) .started (.compactMemTable inside) } files flushed switched := by
  have job := aged.job
  have upTo : memory.work.listedUpTo flushed switched = flushed := by
    rw [stage]
    rfl
  rw [stage] at job
  refine aged.goOn rfl rfl rfl upTo.le job (fun _ _ _ impossible => by cases impossible)
    fun edit manifestStage caller isLogging => ?_
  cases isLogging
  have flushes := writeLevel0Table_flushes options (some memory.db.version) number imm
  exact ⟨⟨number, imm, isImm, ⟨flushes.deletedFiles, flushes.newFiles⟩,
    fun _ => aged.building number true inside stage⟩, fun later => absurd rfl later⟩

theorem Memory.Aged.startMove (aged : memory.Aged files flushed switched)
    {compaction : Compaction α β} {options : Options α β} {pointer : Nat → Option (InternalKey α)}
    (idle : memory.work = .idle) (chosen : compaction.Chosen memory.db.version)
    (isTrivialMove : compaction.isTrivialMove options = true) :
    Memory.Aged { memory with
      db := { memory.db with compactPointer := pointer }
      work := .logging (memory.completeEdit compaction.moveEdit) .started .trivialMove } files
        flushed switched := by
  have upTo : memory.work.listedUpTo flushed switched = flushed := by
    rw [idle]
    rfl
  refine aged.goOn rfl rfl rfl upTo.le (fun _ isJob => by cases isJob)
    (fun _ _ _ impossible => by cases impossible) fun edit stage caller isLogging => ?_
  cases isLogging
  refine ⟨fun new isNew => ?_, fun later => absurd rfl later⟩
  obtain ⟨file, inputs0, _, replaces⟩ := moveEdit_replaces isTrivialMove
  have isSingle : new ∈ compaction.moveEdit.newFiles := isNew
  rw [replaces.newFiles] at isSingle
  obtain rfl := List.mem_singleton.mp isSingle
  have isInput : file ∈ compaction.inputs0 := by
    rw [inputs0]
    exact List.mem_singleton_self _
  exact ⟨Nat.succ_ne_zero _, aged.version _ file (chosen.inputs0_sublist.subset isInput)⟩

theorem Memory.Aged.startCompaction (aged : memory.Aged files flushed switched)
    {compaction : Compaction α β} {pointer : Nat → Option (InternalKey α)}
    (idle : memory.work = .idle) (chosen : compaction.Chosen memory.db.version) :
    Memory.Aged { memory with
      db := { memory.db with compactPointer := pointer }
      work := .compacting
        { compaction
          manual := none
          smallestSnapshot := oldestSnapshot memory.db.snapshots memory.db.lastSequence
          loop := CompactionState.initial memory.db.nextFileNumber
          remaining := makeInputIterator compaction } } files flushed switched := by
  have upTo : memory.work.listedUpTo flushed switched = flushed := by
    rw [idle]
    rfl
  refine aged.quiet rfl rfl rfl upTo (fun job isJob => ?_)
    (fun _ _ _ impossible => by cases impossible) fun _ _ _ impossible => by cases impossible
  obtain rfl := Option.mem_some.mp isJob
  refine ⟨⟨[], initial_fills _, fun entry member => absurd member List.not_mem_nil⟩, ?_⟩
  intro entry member
  obtain ⟨file, isInput, inFile⟩ := mem_makeInputIterator.mp member
  rcases isInput with first | second
  · exact aged.version _ file (chosen.inputs0_sublist.subset first) entry inFile
  · exact aged.version _ file (chosen.inputs1_sublist.subset second) entry inFile

theorem Memory.Aged.visit (aged : memory.Aged files flushed switched) {options : Options α β}
    {job : CompactionJob α β} {entry : Entry α β} {rest : List (Entry α β)}
    {loop : CompactionState α β} {pending : Finset Nat}
    (stage : memory.work = .compacting job) (remaining : job.remaining = entry :: rest)
    (isLoop : loop = { job.loop with nextFileNumber := memory.db.nextFileNumber }.step options
      job.compaction job.smallestSnapshot entry) :
    Memory.Aged { memory.setNextFileNumber loop.nextFileNumber with
      pendingOutputs := pending
      work := .compacting { job with loop := loop, remaining := rest } } files flushed
        switched := by
  have upTo : memory.work.listedUpTo flushed switched = flushed := by
    rw [stage]
    rfl
  refine aged.quiet rfl rfl rfl upTo (fun other isOther => ?_)
    (fun _ _ _ impossible => by cases impossible) fun _ _ _ impossible => by cases impossible
  obtain rfl := Option.mem_some.mp isOther
  obtain ⟨⟨kept, fills, kept_le⟩, remaining_le⟩ := aged.job job (by rw [stage]; rfl)
  rw [remaining] at remaining_le
  have sameFills : { job.loop with nextFileNumber := memory.db.nextFileNumber }.Fills kept :=
    ⟨fills.built, fills.entries_eq⟩
  have stepped := sameFills.step options job.compaction job.smallestSnapshot entry
  rw [← isLoop] at stepped
  refine ⟨⟨_, stepped, fun added member => ?_⟩,
    fun other member => remaining_le other (List.mem_cons_of_mem _ member)⟩
  rcases List.mem_append.mp member with before | new
  · exact kept_le added before
  · split at new
    · cases new
    · rw [List.mem_singleton.mp new]
      exact remaining_le entry List.mem_cons_self

theorem Memory.Aged.endLoop (aged : memory.Aged files flushed switched) {options : Options α β}
    {job : CompactionJob α β} (stage : memory.work = .compacting job) :
    Memory.Aged { memory with
      work := .logging (memory.completeEdit (installEdit job.compaction
        (job.loop.finish.outputs.map (Output.toFile options)))) .started
          (.installResults job) } files flushed switched := by
  have upTo : memory.work.listedUpTo flushed switched = flushed := by
    rw [stage]
    rfl
  have ofJob := aged.job job (by rw [stage]; rfl)
  refine aged.goOn rfl rfl rfl upTo.le (fun other isOther => ?_)
    (fun _ _ _ impossible => by cases impossible) fun edit manifestStage caller isLogging => ?_
  · obtain rfl := Option.mem_some.mp isOther
    exact ofJob
  · cases isLogging
    refine ⟨fun new isNew => ?_, fun later => absurd rfl later⟩
    have isOutput : new ∈ (job.loop.finish.outputs.map (Output.toFile options)).map
        fun file => (job.compaction.level + 1, file) := installEdit_newFiles _ ▸ isNew
    obtain ⟨file, inFiles, rfl⟩ := List.mem_map.mp isOutput
    obtain ⟨output, inFinish, rfl⟩ := List.mem_map.mp inFiles
    obtain ⟨⟨kept, fills, kept_le⟩, _⟩ := ofJob
    refine ⟨Nat.succ_ne_zero _, fun entry inFile => kept_le entry ?_⟩
    rw [← fills.entries_eq]
    exact List.mem_flatMap_of_mem inFinish inFile

/-- The edit joins the manifest. -/
theorem Memory.Aged.appendEdit (aged : memory.Aged files flushed switched)
    (grounded : memory.Grounded files flushed switched) {edit : VersionEdit α β}
    {caller : LogCaller α β} (isLogging : memory.work = .logging edit .started caller) :
    Memory.Aged { memory with work := .logging edit .written caller }
      (files.appendEdit memory.manifestFileNumber (caller.record edit)) flushed switched := by
  obtain ⟨logNumber, next, last, completed⟩ := grounded.works.logging _ _ _ isLogging
  have sequenced := grounded.sequenced
  obtain ⟨adds, _⟩ := aged.logging _ _ _ isLogging
  have writes := completed.writes
  have edits : (files.appendEdit memory.manifestFileNumber (caller.record edit)).manifest.edits =
      files.manifest.edits ++ [edit] := by
    rw [← grounded.backs.isCurrent, appendEdit_edits, LogCaller.record_edit]
  have upTo : ListedUpTo (addedFiles files.manifest.edits) flushed := by
    have upTo := aged.upTo
    rw [isLogging] at upTo
    cases caller <;> exact upTo
  have bounds : LevelZeroOrder (addedFiles (files.manifest.edits ++ [edit])) ∧
      ListedUpTo (addedFiles (files.manifest.edits ++ [edit]))
        ((Work.logging edit .written caller).listedUpTo flushed switched) ∧
      LogsAbove files.logs logNumber
        ((Work.logging edit .written caller).listedUpTo flushed switched) := by
    rw [addedFiles_append]
    cases caller with
    | compactMemTable inside =>
      obtain ⟨number, content, isImm, flushes, greater⟩ := adds
      have entry_bounds : ∀ new ∈ edit.newFiles, new.2.number = number ∧
          ∀ entry ∈ new.2.entries, flushed < entry.sequence ∧ entry.sequence ≤ switched := by
        intro new isNew
        rcases flushes.newFiles with ⟨_, nothing⟩ | ⟨level, file, single, isNumber, isContent⟩
        · cases nothing ▸ isNew
        · obtain rfl := List.mem_singleton.mp (single ▸ isNew)
          exact ⟨isNumber, fun entry inFile =>
            sequenced.imm content isImm entry (isContent ▸ inFile)⟩
      refine ⟨?_, ?_, aged.switchedLogs.mono writes.2.1.symm.le le_rfl⟩
      · refine aged.manifest.order.append (fun first isFirst second isSecond _ _ => ?_)
          (fun old isOld new isNew _ => ?_) fun old isOld new isNew _ entry inOld other inNew => ?_
        · rcases flushes.newFiles with ⟨_, nothing⟩ | ⟨level, file, single, _, _⟩
          · cases nothing ▸ isFirst
          · rw [single] at isFirst isSecond
            rw [List.mem_singleton.mp isFirst, List.mem_singleton.mp isSecond]
        · exact (greater rfl old isOld).trans_le (entry_bounds new isNew).1.symm.le
        · exact (upTo old isOld entry inOld).trans_lt ((entry_bounds new isNew).2 other inNew).1
      · intro added member entry inFile
        rcases List.mem_append.mp member with old | new
        · exact (upTo added old entry inFile).trans sequenced.flushed_le
        · exact ((entry_bounds added new).2 entry inFile).2
    | trivialMove | installResults =>
      refine ⟨?_, ?_, aged.flushedLogs.mono writes.1.symm.le le_rfl⟩
      · exact aged.manifest.order.append (fun first isFirst _ _ zero => absurd zero (adds first isFirst).1)
          (fun _ _ new isNew zero => absurd zero (adds new isNew).1)
          fun _ _ new isNew zero => absurd zero (adds new isNew).1
      · intro added member entry inFile
        rcases List.mem_append.mp member with old | new
        · exact upTo added old entry inFile
        · exact (adds added new).2 entry inFile
  obtain ⟨order, listed, above⟩ := bounds
  have job := aged.job
  rw [isLogging] at job
  refine ⟨?_, aged.version, ?_, ?_, aged.switchedLogs, aged.flushedLogs, ?_,
    fun _ _ _ impossible => (by cases impossible), ?_⟩
  · rw [edits]
    exact aged.manifest.append completed.numbered order (above.precede listed)
  · rw [edits, addedFiles_append]
    exact fun file member => (aged.listed file member).mono (List.subset_append_left _ _)
  · rw [edits]
    exact listed
  · cases caller <;> exact job
  · intro other stage otherCaller isOther
    cases isOther
    rw [edits, addedFiles_append]
    refine ⟨?_, fun _ => List.subset_append_right _ _⟩
    cases caller with
    | compactMemTable inside =>
      obtain ⟨number, content, isImm, flushes, _⟩ := adds
      exact ⟨number, content, isImm, flushes, fun impossible => by cases impossible⟩
    | trivialMove => exact adds
    | installResults running => exact adds

theorem Memory.Aged.syncManifest (aged : memory.Aged files flushed switched)
    (grounded : memory.Grounded files flushed switched) {edit : VersionEdit α β}
    {caller : LogCaller α β} (isLogging : memory.work = .logging edit .written caller) :
    Memory.Aged { memory with work := .logging edit .synced caller }
      (files.syncManifest memory.manifestFileNumber) flushed switched := by
  have edits : (files.syncManifest memory.manifestFileNumber).manifest.edits =
      files.manifest.edits := by
    rw [← grounded.backs.isCurrent, syncManifest_edits]
  obtain ⟨adds, isListed⟩ := aged.logging _ _ _ isLogging
  have job := aged.job
  have upTo := aged.upTo
  rw [isLogging] at job upTo
  refine ⟨?_, aged.version, ?_, ?_, aged.switchedLogs, aged.flushedLogs, ?_,
    fun _ _ _ impossible => (by cases impossible), ?_⟩
  · rw [edits]
    exact aged.manifest
  · rw [edits]
    exact aged.listed
  · rw [edits]
    cases caller <;> exact upTo
  · cases caller <;> exact job
  · intro other stage otherCaller isOther
    cases isOther
    rw [edits]
    refine ⟨?_, fun _ => isListed fun impossible => by cases impossible⟩
    cases caller with
    | compactMemTable inside =>
      obtain ⟨number, content, isImm, flushes, _⟩ := adds
      exact ⟨number, content, isImm, flushes, fun impossible => by cases impossible⟩
    | trivialMove => exact adds
    | installResults running => exact adds

/-- The new version is older than the memtables that are left. -/
theorem Memory.Aged.install (aged : memory.Aged files flushed switched)
    (grounded : memory.Grounded files flushed switched) {edit : VersionEdit α β}
    {caller : LogCaller α β} (isLogging : memory.work = .logging edit .synced caller) :
    ((memory.install edit).logged caller).Aged files (memory.marks .install flushed switched).1
      (memory.marks .install flushed switched).2 := by
  obtain ⟨logNumber, next, last, completed⟩ := grounded.works.logging _ _ _ isLogging
  have sequenced := grounded.sequenced
  have writes := completed.writes
  obtain ⟨adds, subset⟩ := aged.logging _ _ _ isLogging
  have isListed := subset fun impossible => by cases impossible
  have isLog : edit.logNumber.getD memory.logNumber = logNumber := by
    rw [completed.numbered.logNumber]
    rfl
  have listed : ∀ file ∈ (memory.db.version.applyEdit edit).files 0,
      ListedAt (addedFiles files.manifest.edits) 0 file := by
    intro file member
    rcases mem_applyEdit member with old | ⟨new, isNew, rfl⟩
    · exact aged.listed file old
    · exact ⟨new, isListed isNew, rfl, rfl⟩
  have version : ∀ bound, flushed ≤ bound →
      (∀ new ∈ edit.newFiles, ∀ entry ∈ new.2.entries, entry.sequence ≤ bound) →
      ∀ level, ∀ file ∈ (memory.db.version.applyEdit edit).files level, ∀ entry ∈ file.entries,
        entry.sequence ≤ bound := by
    intro bound le new_le level file member entry inFile
    rcases mem_applyEdit member with old | ⟨new, isNew, rfl⟩
    · exact (aged.version level file old entry inFile).trans le
    · exact new_le _ isNew entry inFile
  have job := aged.job
  have upTo := aged.upTo
  rw [isLogging] at job upTo
  cases caller with
  | compactMemTable inside =>
    rw [Memory.marks_flush isLogging]
    refine ⟨aged.manifest, version switched sequenced.flushed_le ?_, listed, upTo,
      aged.switchedLogs, ?_, fun running isJob => ?_, fun _ _ _ impossible => (by cases impossible),
      fun _ _ _ impossible => by cases impossible⟩
    · obtain ⟨number, content, isImm, flushes, _⟩ := adds
      intro new isNew entry inFile
      rcases flushes.newFiles with ⟨_, nothing⟩ | ⟨level, file, single, _, isContent⟩
      · cases nothing ▸ isNew
      · obtain rfl := List.mem_singleton.mp (single ▸ isNew)
        exact (sequenced.imm content isImm entry (isContent ▸ inFile)).2
    · exact aged.switchedLogs.mono (isLog.trans writes.2.1).symm.le le_rfl
    · obtain ⟨⟨kept, fills, kept_le⟩, remaining_le⟩ := job running isJob
      exact ⟨⟨kept, fills, fun entry member => (kept_le entry member).trans sequenced.flushed_le⟩,
        fun entry member => (remaining_le entry member).trans sequenced.flushed_le⟩
  | trivialMove =>
    rw [Memory.marks_install isLogging fun _ impossible => by cases impossible]
    exact ⟨aged.manifest, version flushed le_rfl fun new isNew => (adds new isNew).2, listed, upTo,
      aged.switchedLogs, aged.flushedLogs.mono (isLog.trans writes.1).symm.le le_rfl,
      fun _ isJob => (by cases isJob), fun _ _ _ impossible => (by cases impossible),
      fun _ _ _ impossible => by cases impossible⟩
  | installResults running =>
    rw [Memory.marks_install isLogging fun _ impossible => by cases impossible]
    exact ⟨aged.manifest, version flushed le_rfl fun new isNew => (adds new isNew).2, listed, upTo,
      aged.switchedLogs, aged.flushedLogs.mono (isLog.trans writes.1).symm.le le_rfl,
      fun _ isJob => (by cases isJob), fun _ _ _ impossible => (by cases impossible),
      fun _ _ _ impossible => by cases impossible⟩

theorem Memory.Aged.afterFlush (aged : memory.Aged files flushed switched) {pending : Finset Nat}
    {error : Bool} {inside : Option (CompactionJob α β)}
    (upTo : memory.work.listedUpTo flushed switched = flushed) (isJob : memory.work.job = inside) :
    (Memory.afterFlush { memory with pendingOutputs := pending, bgError := error } inside).Aged
      files flushed switched := by
  have job := aged.job
  rw [isJob] at job
  cases inside with
  | none =>
    exact aged.quiet rfl rfl rfl upTo (fun _ impossible => by cases impossible)
      (fun _ _ _ impossible => by cases impossible) fun _ _ _ impossible => by cases impossible
  | some running =>
    exact aged.quiet rfl rfl rfl upTo job (fun _ _ _ impossible => by cases impossible)
      fun _ _ _ impossible => by cases impossible

/-- Whether a step of an open database is no failing write to the manifest. -/
def RunningAction.writesManifest : RunningAction α β → Bool
  | .appendEdit succeeds _ | .syncManifest succeeds => succeeds
  | _ => true

/-- A step in which no write to the manifest fails keeps the order. -/
theorem Memory.Aged.moves [Inhabited β] {options : Options α β} {files' : Files α β}
    {action : RunningAction α β} (aged : memory.Aged files flushed switched)
    (grounded : memory.Grounded files flushed switched) (writes : action.writesManifest = true)
    (moves : memory.Moves options files action memory' files') :
    memory'.Aged files' (memory.marks action flushed switched).1
      (memory.marks action flushed switched).2 := by
  cases moves with
  | append ops sync succeeds written batch idle noError fits isBatch =>
    have sequence : batch.sequence = memory.db.lastSequence + 1 := isBatch ▸ rfl
    by_cases inLog : (succeeds || written) = true
    · rw [if_pos inLog]
      exact aged.appendLog grounded sequence
    · rw [if_neg inLog]
      exact { aged with }
  | syncLog batch stage =>
    have synced := aged.shrink (shrinks_sync grounded.sequenced.opened)
    exact { synced with }
  | syncLogFails batch stage => exact { aged with }
  | insert batch sync stage => exact { aged with }
  | finishWrite batch error stage => exact { aged with }
  | switchMemTable idle noError empty => exact aged.switchMemTable grounded empty
  | newLogFails idle noError empty => exact aged
  | read _ reads snapshots fileToCompact pinned seek pins =>
    rw [memory.marks_read reads]
    exact { aged with }
  | startFlush inside imm isImm stage =>
    refine Memory.Aged.putTable ?_ _ imm false
    rcases stage with ⟨idle, _, isNone⟩ | ⟨job, compacting, _, isSome⟩
    · refine aged.startFlush grounded (by rw [idle, isNone]; rfl) fun edit stage caller isLogging => ?_
      cases idle.symm.trans isLogging
    · refine aged.startFlush grounded (by rw [compacting, isSome]; rfl)
        fun edit stage caller isLogging => ?_
      cases compacting.symm.trans isLogging
  | syncTable number inside imm isImm stage =>
    exact (aged.tableSynced stage).putTable number imm true
  | syncTableFails number inside imm isImm stage =>
    refine Memory.Aged.of_tables ?_ _
    exact aged.afterFlush (by rw [stage]; rfl) (by rw [stage]; rfl)
  | tableBuilt number inside imm isImm stage => exact aged.tableBuilt isImm stage
  | startMove choice compaction idle noError empty chooses isTrivialMove pointer =>
    exact aged.startMove idle (Db.chosen_of_seek grounded.listed.seek chooses) isTrivialMove
  | startCompaction choice compaction idle noError empty chooses pointer =>
    exact aged.startCompaction idle (Db.chosen_of_seek grounded.listed.seek chooses)
  | visit job entry rest loop stage remaining isLoop =>
    exact (aged.visit stage remaining isLoop).of_tables _
  | endLoop job stage remaining => exact (aged.endLoop stage).of_tables _
  | endLoopFails job stage =>
    exact aged.quiet rfl rfl rfl (by rw [stage]; rfl) (fun _ impossible => by cases impossible)
      (fun _ _ _ impossible => by cases impossible) fun _ _ _ impossible => by cases impossible
  | appendEdit written edit caller stage => exact aged.appendEdit grounded stage
  | appendEditFails written edit caller stage => cases writes
  | syncManifest edit caller stage => exact aged.syncManifest grounded stage
  | syncManifestFails edit caller stage => cases writes
  | install edit caller stage => exact aged.install grounded stage
  | removeFile kind number inside stage noError obsolete there =>
    cases kind with
    | log => exact aged.shrink (shrinks_remove files.logs number)
    | table => exact aged.of_tables _
    | manifest => exact { aged with }
  | endCollecting inside stage =>
    exact aged.afterFlush (by rw [stage]; rfl) (by rw [stage]; rfl)

end Running

/-! ### Opening -/

/-- The tables of the manifest and those of the replay. -/
def Opening.tables (opening : Opening α β) (files : Files α β) : List (Nat × FileMetaData α β) :=
  addedFiles files.manifest.edits ++ opening.edit.newFiles

/-- The entries that are not in tables yet are younger than the tables. -/
structure Opening.Waits (opening : Opening α β) (files : Files α β) (sequence : Nat) : Prop where
  mem : ∀ later ∈ opening.mem.getD [], sequence < later.sequence
  unread : opening.logs ≠ [] → ∀ record ∈ opening.unread, sequence < record.sequence
  logs : ∀ log ∈ opening.logs.tail, ∀ record ∈ (files.logs.file log).records,
    sequence < record.sequence
  whole : opening.compactions = 0 → ∀ log rest, opening.logs = log :: rest →
    ∀ record ∈ (files.logs.file log).records, sequence < record.sequence

/-- As long as there is nothing to save, the logs that were replayed were empty, except for one
that is kept. -/
structure Opening.Clean (opening : Opening α β) (files : Files α β) : Prop where
  edit : opening.edit.newFiles = []
  done : ∀ number ∈ files.logs.numbers, opening.memory.logNumber ≤ number →
    number ∉ opening.logs → opening.logOpened = true ∧ number = opening.memory.logFileNumber ∨
      (files.logs.file number).records = []
  head : ∀ log rest, opening.logs = log :: rest → opening.mem = none →
    opening.unread = (files.logs.file log).records

/-- The manifest that will be installed lists these tables. -/
structure Opening.Lists (opening : Opening α β) (files : Files α β) (edit : VersionEdit α β) :
    Prop where
  tables : ∀ added ∈ addedFiles
    (files.manifests.file opening.memory.manifestFileNumber).edits,
      ListedAt (opening.tables files) added.1 added.2
  version : ∀ file ∈ opening.memory.db.version.files 0, ListedAt (addedFiles
    (files.manifests.file opening.memory.manifestFileNumber).edits) 0 file
  new : edit.newFiles ⊆ addedFiles (files.manifests.file opening.memory.manifestFileNumber).edits
  precede : ∀ kept descriptor, Descriptor.read
    ((files.manifests.file opening.memory.manifestFileNumber).edits.take kept) = some descriptor →
      Precede (addedFiles ((files.manifests.file
        opening.memory.manifestFileNumber).edits.take kept)) files.logs descriptor.logNumber

/-- What is recovered is in the order of age. -/
structure Opening.Aged (opening : Opening α β) (files : Files α β) : Prop where
  manifest : ManifestAged files.logs files.manifest.edits
  version : ∀ level, ∀ file ∈ opening.memory.db.version.files level,
    ListedAt (addedFiles files.manifest.edits) level file
  order : LevelZeroOrder (opening.tables files)
  waits : ∀ added ∈ opening.tables files, ∀ entry ∈ added.2.entries,
    opening.Waits files entry.sequence
  building : ∀ number synced, opening.stage = .building number synced →
    opening.saveManifest = true ∧ opening.compactions ≠ 0 ∧
      ∀ old ∈ opening.tables files, old.2.number < number
  clean : opening.saveManifest = false → opening.Clean files
  opened : opening.logOpened = true → ∃ switched,
    opening.memory.Sequenced files.logs switched switched ∧
      ListedUpTo (opening.tables files) switched ∧
      LogsAbove files.logs opening.memory.logFileNumber switched
  logging : ∀ edit stage, opening.stage = .logging edit stage →
    edit.newFiles = opening.edit.newFiles ∧ (stage ≠ .started → opening.Lists files edit)

section Opening

variable [Inhabited β] {opening : Opening α β} {files : Files α β}

omit [Inhabited β] in
theorem listedAt_versionOf {edits : List (VersionEdit α β)} {level : Nat} {file : FileMetaData α β}
    (member : file ∈ (versionOf edits).files level) : ListedAt (addedFiles edits) level file := by
  obtain ⟨new, added, rfl⟩ := mem_versionOf member
  exact ⟨new, added, rfl, rfl⟩

theorem ManifestAged.recover {reuseLogs reuseManifest : Bool} (recoverable : files.Recoverable)
    (aged : ManifestAged files.logs files.manifest.edits)
    (recovers : files.recover reuseLogs reuseManifest = some opening) : opening.Aged files := by
  obtain ⟨descriptor, reads, rfl⟩ := Files.recover_eq recovers
  have backed := recoverable.backed.read reads
  have whole : Precede (addedFiles files.manifest.edits) files.logs descriptor.logNumber := by
    have precede := aged.precede files.manifest.edits.length descriptor
    rw [List.take_length] at precede
    exact precede reads
  have started : (Opening.start files descriptor reuseLogs (reuseLogs && reuseManifest)).Replays
      files.logs := replays_start recoverable.order backed _
  have isLog : ∀ log ∈ logsToReplay files descriptor, log ∈ files.logs.numbers ∧
      descriptor.logNumber ≤ log := started.there
  have later : ∀ added ∈ addedFiles files.manifest.edits, ∀ entry ∈ added.2.entries,
      ∀ log ∈ logsToReplay files descriptor, ∀ record ∈ (files.logs.file log).records,
        entry.sequence < record.sequence := fun added member entry inFile log isReplayed =>
    whole added member entry inFile log (isLog log isReplayed).1 (isLog log isReplayed).2
  have tables : (Opening.start files descriptor reuseLogs
      (reuseLogs && reuseManifest)).tables files = addedFiles files.manifest.edits :=
    List.append_nil _
  refine ⟨aged, ?_, ?_, ?_, fun _ _ impossible => (by cases impossible), ?_,
    fun impossible => (by cases impossible), fun _ _ impossible => by cases impossible⟩
  · intro level file member
    exact listedAt_versionOf (Descriptor.read_version reads ▸ member)
  · rw [tables]
    exact aged.order
  · rw [tables]
    intro added member entry inFile
    refine ⟨fun later isLater => absurd isLater List.not_mem_nil, fun notNil record inUnread => ?_,
      fun log isLog' record inLog => ?_, fun _ log rest isLogs record inLog => ?_⟩
    · cases isLogs : logsToReplay files descriptor with
      | nil => exact absurd isLogs notNil
      | cons log rest =>
        have inLog : record ∈ (files.logs.file log).records := by
          have unread : record ∈ nextUnread files (logsToReplay files descriptor) := inUnread
          rwa [isLogs] at unread
        exact later added member entry inFile log (isLogs ▸ List.mem_cons_self) record inLog
    · exact later added member entry inFile log (List.mem_of_mem_tail isLog') record inLog
    · have isFirst : log ∈ logsToReplay files descriptor := by
        have isList : logsToReplay files descriptor = log :: rest := isLogs
        rw [isList]
        exact List.mem_cons_self
      exact later added member entry inFile log isFirst record inLog
  · intro _
    refine ⟨rfl, fun number there le notLog => ?_, fun log rest isLogs _ => ?_⟩
    · exact absurd (mem_logsToReplay.mpr ⟨there, Or.inl le⟩) notLog
    · have isList : logsToReplay files descriptor = log :: rest := isLogs
      show nextUnread files (logsToReplay files descriptor) = _
      rw [isList]
      rfl

omit [Inhabited β] in
theorem Opening.Aged.of_tables (aged : opening.Aged files) (tables : Lib.Shelf (TableFile α β)) :
    opening.Aged { files with tables } :=
  { aged with
    waits := fun added member entry inFile => { aged.waits added member entry inFile with }
    clean := fun saves => { aged.clean saves with }
    logging := fun edit stage isLogging =>
      ⟨(aged.logging edit stage isLogging).1, fun later =>
        { (aged.logging edit stage isLogging).2 later with }⟩ }

omit [Inhabited β] in
theorem Opening.Aged.putTable (aged : opening.Aged files) (number : Nat)
    (entries : List (Entry α β)) (synced : Bool) :
    opening.Aged (files.putTable number entries synced) := by
  obtain ⟨tables, isTables⟩ := exists_putTable files number entries synced
  rw [isTables]
  exact aged.of_tables tables

theorem Opening.Aged.replay (aged : opening.Aged files) (grounded : opening.Grounded files)
    {log : Nat} {logs : List Nat} {batch : WriteBatch α β} {unread : List (WriteBatch α β)}
    (replaying : opening.stage = .replaying) (isLogs : opening.logs = log :: logs)
    (isUnread : opening.unread = batch :: unread) :
    Opening.Aged { opening with
      unread
      mem := some (insertInto (opening.mem.getD []) batch.entries)
      maxSequence := max opening.maxSequence (batch.sequence + batch.count - 1) } files := by
  have notNil : opening.logs ≠ [] := by
    rw [isLogs]
    exact List.cons_ne_nil _ _
  have wellFormed : batch.WellFormed := by
    obtain ⟨read, isRecords, _, _⟩ := grounded.replays.head log logs isLogs
    have there := (grounded.replays.there log (isLogs ▸ List.mem_cons_self)).1
    have inRecords : batch ∈ (files.logs.file log).records := by
      rw [isRecords, isUnread]
      exact List.mem_append_right _ List.mem_cons_self
    exact (grounded.recoverable.order.wellFormed log there batch inRecords).1
  refine
    { aged with
      waits := fun added member entry inFile => ?_
      clean := fun saves => ?_
      logging := fun edit stage isLogging => by cases replaying.symm.trans isLogging }
  · have waits := aged.waits added member entry inFile
    have unreadLater := waits.unread notNil
    rw [isUnread] at unreadLater
    refine { waits with
      mem := fun later isLater => ?_
      unread := fun _ record inUnread => unreadLater record (List.mem_cons_of_mem _ inUnread) }
    rcases mem_insertInto.mp isLater with old | new
    · exact waits.mem later old
    · exact (unreadLater batch List.mem_cons_self).trans_le (wellFormed.entry_bounds new).1
  · have clean := aged.clean saves
    exact { clean with head := fun _ _ _ impossible => by cases impossible }

theorem Opening.Aged.startFlush (aged : opening.Aged files) (grounded : opening.Grounded files) :
    Opening.Aged { opening with
      memory := { opening.memory.newFileNumber with
        pendingOutputs := insert opening.memory.db.nextFileNumber opening.memory.pendingOutputs }
      compactions := opening.compactions + 1
      saveManifest := true
      stage := .building opening.memory.db.nextFileNumber false } files := by
  refine
    { aged with
      waits := fun added member entry inFile => ?_
      building := fun number synced isBuilding => ?_
      clean := fun impossible => (by cases impossible)
      opened := fun isOpened => ?_
      logging := fun _ _ impossible => by cases impossible }
  · have waits := aged.waits added member entry inFile
    exact { waits with whole := fun impossible => absurd impossible (Nat.succ_ne_zero _) }
  · cases isBuilding
    refine ⟨rfl, Nat.succ_ne_zero _, fun old member => ?_⟩
    rcases List.mem_append.mp member with inManifest | inEdit
    · exact (grounded.below.added old inManifest).1
    · exact (grounded.edit old inEdit).1
  · obtain ⟨switched, sequenced, upTo, above⟩ := aged.opened isOpened
    exact ⟨switched, { sequenced with
      logFile_lt := sequenced.logFile_lt.trans (Nat.lt_succ_self _) }, upTo, above⟩

/-- The table of the replayed memtable joins the edit. -/
theorem Opening.Aged.tableBuilt (aged : opening.Aged files) (grounded : opening.Grounded files)
    {options : Options α β} {number : Nat} {mem : List (Entry α β)}
    (stage : opening.stage = .building number true) (isMem : opening.mem = some mem) :
    Opening.Aged { opening with
      memory := { opening.memory with
        pendingOutputs := opening.memory.pendingOutputs.erase number }
      mem := none
      edit := writeLevel0Table options none number mem opening.edit
      stage := .replaying } files := by
  obtain ⟨saves, someCompactions, greater⟩ := aged.building number true stage
  have notOpened : opening.logOpened ≠ true := by
    intro isOpened
    have ended := (grounded.opened isOpened).1
    cases (grounded.replays.ended ended).1.symm.trans isMem
  have inTables : ∀ added ∈ addedFiles files.manifest.edits ++
      (writeLevel0Table options none number mem opening.edit).newFiles,
      added ∈ opening.tables files ∨ added.2.number = number ∧ added.2.entries = mem := by
    intro added member
    rcases writeLevel0Table_added options none number mem opening.edit with
      ⟨same, _⟩ | ⟨file, isNumber, isEntries, isEdit⟩
    · rw [same] at member
      exact Or.inl member
    · have newFiles : (writeLevel0Table options none number mem opening.edit).newFiles =
          opening.edit.newFiles ++ [(0, file)] := by
        rw [isEdit]
        rfl
      rw [newFiles, ← List.append_assoc] at member
      rcases List.mem_append.mp member with old | new
      · exact Or.inl old
      · rw [List.mem_singleton.mp new]
        exact Or.inr ⟨isNumber, isEntries⟩
  have memWaits : ∀ entry ∈ mem, Opening.Waits { opening with mem := none } files
      entry.sequence := by
    intro entry inMem
    cases isLogs : opening.logs with
    | nil => cases (grounded.replays.ended isLogs).1.symm.trans isMem
    | cons log rest =>
      have order := grounded.recoverable.order
      have replays := grounded.replays
      obtain ⟨read, isRecords, _, isRead⟩ := replays.head log rest isLogs
      rw [isMem] at isRead
      obtain ⟨record, inRead, inRecord⟩ := isRead entry inMem
      have there := (replays.there log (isLogs ▸ List.mem_cons_self)).1
      have inRecords : record ∈ (files.logs.file log).records := by
        rw [isRecords]
        exact List.mem_append_left _ inRead
      have less := ((order.wellFormed log there record inRecords).1.entry_bounds inRecord).2
      refine ⟨fun later impossible => absurd impossible List.not_mem_nil,
        fun _ later inUnread => ?_, fun other isOther later inOther => ?_,
        fun impossible => absurd impossible someCompactions⟩
      · have within := order.within log there
        rw [isRecords] at within
        exact less.trans_le ((List.pairwise_append.mp within).2.2 record inRead later inUnread)
      · have isRest : other ∈ rest := isOther
        have sorted := replays.sorted
        rw [isLogs] at sorted
        have otherThere := (replays.there other (isLogs ▸ List.mem_cons_of_mem _ isRest)).1
        exact less.trans_le (order.across log there other otherThere
          (List.rel_of_pairwise_cons sorted isRest) record inRecords later inOther)
  refine
    { manifest := aged.manifest
      version := aged.version
      order := ?_
      waits := fun added member entry inFile => ?_
      building := fun _ _ impossible => (by cases impossible)
      clean := fun notSaves => (by cases saves.symm.trans notSaves)
      opened := fun isOpened => absurd isOpened notOpened
      logging := fun _ _ impossible => by cases impossible }
  · rcases writeLevel0Table_added options none number mem opening.edit with
      ⟨same, _⟩ | ⟨file, isNumber, isEntries, isEdit⟩
    · show LevelZeroOrder (addedFiles files.manifest.edits ++ _)
      rw [same]
      exact aged.order
    · have newFiles : (writeLevel0Table options none number mem opening.edit).newFiles =
          opening.edit.newFiles ++ [(0, file)] := by
        rw [isEdit]
        rfl
      show LevelZeroOrder (addedFiles files.manifest.edits ++ _)
      rw [newFiles, ← List.append_assoc]
      refine aged.order.append (fun first isFirst second isSecond _ _ => ?_)
        (fun old isOld new isNew _ => ?_) fun old isOld new isNew _ entry inOld other inNew => ?_
      · rw [List.mem_singleton.mp isFirst, List.mem_singleton.mp isSecond]
      · rw [List.mem_singleton.mp isNew]
        exact (greater old isOld).trans_le isNumber.symm.le
      · rw [List.mem_singleton.mp isNew] at inNew
        have waits := (aged.waits old isOld entry inOld).mem
        rw [isMem] at waits
        exact waits other (isEntries ▸ inNew)
  · rcases inTables added member with old | ⟨_, isEntries⟩
    · have waits := aged.waits added old entry inFile
      exact { waits with mem := fun later impossible => absurd impossible List.not_mem_nil }
    · exact { memWaits entry (isEntries ▸ inFile) with }

/-- The replay goes on with the next log. -/
theorem Opening.Aged.finishLog (aged : opening.Aged files) (grounded : opening.Grounded files)
    {log : Nat} {rest : List Nat} (replaying : opening.stage = .replaying)
    (isLogs : opening.logs = log :: rest) (isUnread : opening.unread = [])
    (noMem : opening.mem = none) :
    (opening.finishLog files log rest).Aged files := by
  have notOpened : opening.logOpened ≠ true := fun isOpened => by
    cases isLogs.symm.trans (grounded.opened isOpened).1
  rw [Opening.finishLog_eq]
  refine
    { manifest := aged.manifest
      version := aged.version
      order := aged.order
      waits := fun added member entry inFile => ?_
      building := fun _ _ impossible => (by cases replaying.symm.trans impossible)
      clean := fun saves => ⟨(aged.clean saves).edit, ?_, ?_⟩
      opened := fun isOpened => absurd isOpened notOpened
      logging := fun _ _ impossible => by cases replaying.symm.trans impossible }
  · have waits := aged.waits added member entry inFile
    have logs := waits.logs
    rw [isLogs] at logs
    have next : ∀ other others, rest = other :: others → ∀ record ∈ (files.logs.file other).records,
        entry.sequence < record.sequence := by
      intro other others isRest
      exact logs other (isRest ▸ List.mem_cons_self)
    refine ⟨fun later impossible => absurd impossible List.not_mem_nil, fun notNil record inUnread => ?_,
      fun other isOther => logs other (List.mem_of_mem_tail isOther),
      fun _ other others isRest => next other others isRest⟩
    cases rest with
    | nil => exact absurd rfl notNil
    | cons other others => exact next other others rfl record inUnread
  · intro number there le notRest
    have clean := aged.clean saves
    by_cases same : number = log
    · refine Or.inr ?_
      rw [same, ← clean.head log rest isLogs noMem, isUnread]
    · refine clean.done number there le ?_
      rw [isLogs]
      exact List.not_mem_cons_of_ne_of_not_mem same notRest
  · intro other others isRest _
    have isList : rest = other :: others := isRest
    subst isList
    rfl

/-- The last log is kept. -/
theorem Opening.Aged.reuseLog (aged : opening.Aged files) (grounded : opening.Grounded files)
    {log : Nat} (replaying : opening.stage = .replaying) (isLogs : opening.logs = [log])
    (isUnread : opening.unread = []) (whole : opening.compactions = 0) :
    (opening.reusing files log).Aged files := by
  obtain ⟨switched, sequenced, younger, greatest⟩ :=
    grounded.reuseLog_sequenced replaying isLogs isUnread
  have notOpened : opening.logOpened ≠ true := fun isOpened => by
    cases isLogs.symm.trans (grounded.opened isOpened).1
  have reached : ∀ added ∈ opening.tables files, ∀ entry ∈ added.2.entries,
      entry.sequence ≤ opening.reached := by
    intro added member entry inFile
    rcases List.mem_append.mp member with inManifest | inEdit
    · exact ((grounded.below.added added inManifest).2 entry inFile).trans (le_max_left _ _)
    · exact (grounded.edit added inEdit).2 entry inFile
  have there := (grounded.replays.there log (isLogs ▸ List.mem_singleton_self log)).1
  have above : LogsAbove files.logs log switched := by
    intro number inLogs le
    have isLog : number = log := le_antisymm (sequenced.newest number inLogs) le
    rw [isLog]
    exact younger
  rw [Opening.reusing, Opening.finishLog_eq] at sequenced ⊢
  refine
    { manifest := aged.manifest
      version := aged.version
      order := aged.order
      waits := fun added member entry inFile => ?_
      building := fun _ _ impossible => (by cases replaying.symm.trans impossible)
      clean := fun saves => ⟨(aged.clean saves).edit, ?_, fun _ _ impossible => by cases impossible⟩
      opened := fun _ => ⟨switched, sequenced, fun added member entry inFile => ?_, above⟩
      logging := fun _ _ impossible => by cases replaying.symm.trans impossible }
  · exact ⟨fun later impossible => absurd impossible List.not_mem_nil,
      fun notNil => absurd rfl notNil, fun other impossible => absurd impossible List.not_mem_nil,
      fun _ _ _ impossible => by cases impossible⟩
  · intro number inLogs le _
    by_cases same : number = log
    · exact Or.inl ⟨rfl, same⟩
    · refine Or.inr (((aged.clean saves).done number inLogs le ?_).resolve_left fun opened =>
        notOpened opened.1)
      rw [isLogs]
      exact fun isLog => same (List.mem_singleton.mp isLog)
  · exact greatest entry.sequence (reached added member entry inFile)
      ((aged.waits added member entry inFile).whole whole log [] isLogs)

theorem Opening.Aged.createLog (aged : opening.Aged files) (grounded : opening.Grounded files)
    (replaying : opening.stage = .replaying) (isLogs : opening.logs = [])
    (noLog : opening.logOpened = false) :
    opening.creating.Aged (files.createLog opening.memory.db.nextFileNumber) := by
  obtain ⟨below, _⟩ := grounded.all_done isLogs
  have ended := grounded.replays.ended isLogs
  refine
    { manifest := aged.manifest.of_logs fun _ _ _ precede => precede.create
      version := aged.version
      order := aged.order
      waits := fun added member entry inFile => ?_
      building := fun _ _ impossible => (by cases replaying.symm.trans impossible)
      clean := fun saves => ⟨(aged.clean saves).edit, fun number there le _ => ?_, ?_⟩
      opened := fun _ => ⟨_, grounded.createLog_sequenced isLogs noLog, ?_, ?_⟩
      logging := fun _ _ impossible => by cases replaying.symm.trans impossible }
  · refine ⟨?_, fun notNil => absurd isLogs notNil, fun other isOther => ?_,
      fun _ _ _ impossible => by cases isLogs.symm.trans impossible⟩
    · show ∀ later ∈ opening.mem.getD [], _
      rw [ended.1]
      exact fun later impossible => absurd impossible List.not_mem_nil
    · have impossible : other ∈ opening.logs.tail := isOther
      rw [isLogs] at impossible
      cases impossible
  · by_cases same : number = opening.memory.db.nextFileNumber
    · exact Or.inl ⟨rfl, same⟩
    · have old := (Lib.Shelf.mem_put.mp there).resolve_left same
      have clean := (aged.clean saves).done number old le (by rw [isLogs]; exact List.not_mem_nil)
      refine Or.inr ?_
      show ((files.logs.put _ LogFile.new).file number).records = []
      rw [Lib.Shelf.put_file_of_ne _ same]
      exact clean.resolve_left fun opened => by cases noLog.symm.trans opened.1
  · exact fun _ _ impossible => by cases isLogs.symm.trans impossible
  · intro added member entry inFile
    rcases List.mem_append.mp member with inManifest | inEdit
    · exact (grounded.below.added added inManifest).2 entry inFile
    · exact (grounded.new_le isLogs inEdit).2 entry inFile
  · have created := @Lib.Shelf.forall_put _ files.logs opening.memory.db.nextFileNumber LogFile.new
      (fun other log => opening.memory.db.nextFileNumber ≤ other → ∀ record ∈ log.records,
        opening.memory.db.lastSequence < record.sequence)
    refine created (fun _ record impossible => absurd impossible List.not_mem_nil) ?_
    exact fun other there _ le => absurd le (Nat.not_le.mpr (below other there))

omit [Inhabited β] in
theorem Opening.Aged.logEdit (aged : opening.Aged files) :
    Opening.Aged { opening with
      stage := .logging (opening.memory.completeEdit ((opening.edit.setPrevLogNumber
        0).setLogNumber opening.memory.logFileNumber)) .started } files :=
  { aged with
    waits := fun added member entry inFile => { aged.waits added member entry inFile with }
    building := fun _ _ impossible => (by cases impossible)
    clean := fun saves => { aged.clean saves with }
    logging := fun edit stage isLogging => by
      cases isLogging
      exact ⟨rfl, fun later => absurd rfl later⟩ }

omit [Inhabited β] in
/-- The next part of writing the manifest is done. -/
theorem Opening.Aged.advance (aged : opening.Aged files) {edit : VersionEdit α β}
    {stage stage' : ManifestStage} (isLogging : opening.stage = .logging edit stage)
    (lists : opening.Lists files edit) :
    Opening.Aged { opening with stage := .logging edit stage' } files :=
  { aged with
    waits := fun added member entry inFile => { aged.waits added member entry inFile with }
    building := fun _ _ impossible => (by cases impossible)
    clean := fun saves => { aged.clean saves with }
    logging := fun other otherStage isOther => by
      cases isOther
      exact ⟨(aged.logging edit stage isLogging).1, fun _ => { lists with }⟩ }

/-- The tables of a manifest are the recovered ones and are followed by the edit. -/
theorem Opening.Aged.lists_append (aged : opening.Aged files) (grounded : opening.Grounded files)
    {edit : VersionEdit α β} {stage : ManifestStage} {edits : List (VersionEdit α β)}
    (isLogging : opening.stage = .logging edit stage)
    (tables : ∀ added ∈ addedFiles edits, ListedAt (opening.tables files) added.1 added.2)
    (precede : ∀ kept descriptor, Descriptor.read (edits.take kept) = some descriptor →
      Precede (addedFiles (edits.take kept)) files.logs descriptor.logNumber) :
    (∀ added ∈ addedFiles (edits ++ [edit]), ListedAt (opening.tables files) added.1 added.2) ∧
      ∀ kept descriptor, Descriptor.read ((edits ++ [edit]).take kept) = some descriptor →
        Precede (addedFiles ((edits ++ [edit]).take kept)) files.logs descriptor.logNumber := by
  obtain ⟨newFiles, _⟩ := aged.logging edit stage isLogging
  obtain ⟨_, isOpened, numbered, _⟩ := grounded.logging edit stage isLogging
  obtain ⟨switched, sequenced, upTo, above⟩ := aged.opened isOpened
  have allTables : ∀ added ∈ addedFiles (edits ++ [edit]),
      ListedAt (opening.tables files) added.1 added.2 := by
    intro added member
    rw [addedFiles_append] at member
    rcases List.mem_append.mp member with old | new
    · exact tables added old
    · exact ListedAt.self (List.mem_append_right _ (newFiles ▸ new))
  refine ⟨allTables, fun kept descriptor reads => ?_⟩
  rcases read_take_append numbered reads with ⟨same, old⟩ | ⟨same, isLog, _⟩
  · rw [same]
    exact precede kept descriptor old
  · rw [same, isLog]
    refine above.precede fun added member entry inFile => ?_
    obtain ⟨new, inTables, _, entries⟩ := allTables added member
    exact upTo _ inTables entry (entries ▸ inFile)

theorem Opening.Aged.appendReused (aged : opening.Aged files) (grounded : opening.Grounded files)
    {edit : VersionEdit α β} {stage : ManifestStage}
    (isLogging : opening.stage = .logging edit stage) (isReused : opening.manifestReused = true) :
    Opening.Aged { opening with stage := .logging edit .written }
      (files.appendEdit opening.memory.manifestFileNumber ⟨edit, []⟩) := by
  have same := grounded.reused isReused
  obtain ⟨newFiles, _⟩ := aged.logging edit stage isLogging
  have edits : (files.appendEdit opening.memory.manifestFileNumber ⟨edit, []⟩).manifest.edits =
      files.manifest.edits ++ [edit] := by
    rw [← same, appendEdit_edits]
  have written : ((files.appendEdit opening.memory.manifestFileNumber ⟨edit, []⟩).manifests.file
      opening.memory.manifestFileNumber).edits = files.manifest.edits ++ [edit] := by
    rw [← edits, Files.manifest]
    exact congrArg (fun number => ManifestFile.edits (Lib.Shelf.file _ number)) same.symm
  obtain ⟨tables, precede⟩ := aged.lists_append grounded isLogging
    (fun added member => ListedAt.self (List.mem_append_left _ member)) aged.manifest.precede
  have subset : opening.tables files ⊆ opening.tables
      (files.appendEdit opening.memory.manifestFileNumber ⟨edit, []⟩) := by
    intro added member
    rw [Opening.tables, edits, addedFiles_append]
    rcases List.mem_append.mp member with inManifest | inEdit
    · exact List.mem_append_left _ (List.mem_append_left _ inManifest)
    · exact List.mem_append_right _ inEdit
  have superset : opening.tables (files.appendEdit opening.memory.manifestFileNumber
      ⟨edit, []⟩) ⊆ opening.tables files := by
    intro added member
    rw [Opening.tables, edits, addedFiles_append, newFiles] at member
    rcases List.mem_append.mp member with inManifest | inEdit
    · exact inManifest
    · exact List.mem_append_right _ inEdit
  have lists : opening.Lists (files.appendEdit opening.memory.manifestFileNumber ⟨edit, []⟩)
      edit := by
    refine ⟨?_, ?_, ?_, ?_⟩
    · rw [written]
      exact fun added member => (tables added member).mono subset
    · rw [written, addedFiles_append]
      exact fun file member => (aged.version 0 file member).mono (List.subset_append_left _ _)
    · rw [written, addedFiles_append]
      exact List.subset_append_right _ _
    · rw [written]
      exact precede
  have order : LevelZeroOrder (addedFiles (files.manifest.edits ++ [edit])) :=
    aged.order.of_listed tables
  have appended : opening.Aged (files.appendEdit opening.memory.manifestFileNumber ⟨edit, []⟩) :=
    { manifest := by
        rw [edits]
        exact ⟨order, precede⟩
      version := fun level file member => by
        rw [edits, addedFiles_append]
        exact (aged.version level file member).mono (List.subset_append_left _ _)
      order := aged.order.sublist superset
      waits := fun added member entry inFile =>
        { aged.waits added (superset member) entry inFile with }
      building := fun _ _ impossible => by cases isLogging.symm.trans impossible
      clean := fun saves => { aged.clean saves with }
      opened := fun isOpened => by
        obtain ⟨switched, sequenced, upTo, above⟩ := aged.opened isOpened
        exact ⟨switched, sequenced, fun added member => upTo added (superset member), above⟩
      logging := fun other otherStage isOther => by
        cases isLogging.symm.trans isOther
        exact ⟨newFiles, fun _ => lists⟩ }
  exact appended.advance isLogging lists

omit [Inhabited β] in
/-- Another manifest than the current one has changed. -/
theorem Opening.Aged.of_manifests (aged : opening.Aged files)
    {manifests : Lib.Shelf (ManifestFile α β)}
    (same : (manifests.file files.current).edits = files.manifest.edits)
    {edit : VersionEdit α β} {stage : ManifestStage} (isLogging : opening.stage = .logging edit stage)
    (lists : opening.Lists { files with manifests } edit) :
    opening.Aged { files with manifests } := by
  have sameManifest : (Files.manifest { files with manifests }).edits = files.manifest.edits := same
  have tables : opening.tables { files with manifests } = opening.tables files := by
    rw [Opening.tables, sameManifest]
    rfl
  obtain ⟨newFiles, _⟩ := aged.logging edit stage isLogging
  exact
    { manifest := by
        rw [sameManifest]
        exact aged.manifest
      version := by
        rw [sameManifest]
        exact aged.version
      order := by
        rw [tables]
        exact aged.order
      waits := by
        rw [tables]
        exact fun added member entry inFile => { aged.waits added member entry inFile with }
      building := fun _ _ impossible => by cases isLogging.symm.trans impossible
      clean := fun saves => { aged.clean saves with }
      opened := by
        rw [tables]
        exact aged.opened
      logging := fun other otherStage isOther => by
        cases isLogging.symm.trans isOther
        exact ⟨newFiles, fun _ => lists⟩ }

theorem Opening.Aged.appendCreated (aged : opening.Aged files) (grounded : opening.Grounded files)
    {edit : VersionEdit α β} {stage : ManifestStage}
    (isLogging : opening.stage = .logging edit stage)
    (isCreated : opening.manifestReused = false) :
    Opening.Aged { opening with stage := .logging edit .written }
      { files with manifests := files.manifests.put opening.memory.manifestFileNumber
        <| opening.createdManifest files edit } := by
  have different := grounded.created isCreated
  have sameManifest : ((files.manifests.put opening.memory.manifestFileNumber
      (opening.createdManifest files edit)).file files.current).edits = files.manifest.edits :=
    congrArg ManifestFile.edits (Lib.Shelf.put_file_of_ne _ different _)
  have written : ((files.manifests.put opening.memory.manifestFileNumber
      (opening.createdManifest files edit)).file opening.memory.manifestFileNumber).edits =
        [opening.memory.snapshot] ++ [edit] := by
    rw [Lib.Shelf.put_file_self]
    rfl
  have snapshot : ∀ added, added ∈ addedFiles [opening.memory.snapshot] ↔
      added.1 < Config.kNumLevels ∧ added.2 ∈ opening.memory.db.version.files added.1 := by
    intro added
    rw [addedFiles, List.flatMap_singleton, Memory.snapshot, List.mem_flatMap]
    constructor
    · rintro ⟨level, inRange, inLevel⟩
      obtain ⟨file, inFiles, rfl⟩ := List.mem_map.mp inLevel
      exact ⟨List.mem_range.mp inRange, inFiles⟩
    · rintro ⟨inRange, inFiles⟩
      exact ⟨added.1, List.mem_range.mpr inRange, List.mem_map.mpr ⟨added.2, inFiles, rfl⟩⟩
  obtain ⟨tables, precede⟩ := aged.lists_append grounded isLogging
    (fun added member => (aged.version _ _ ((snapshot added).mp member).2).mono
      (List.subset_append_left _ _)) fun kept descriptor reads => by
        rcases kept with _ | kept
        · cases reads
        · rw [List.take_succ_cons, List.take_nil, snapshot_unnumbered] at reads
          cases reads
  have lists : opening.Lists
      { files with manifests := files.manifests.put opening.memory.manifestFileNumber
        <| opening.createdManifest files edit } edit := by
    refine ⟨?_, ?_, ?_, ?_⟩
    · rw [written]
      intro added member
      have newTables : opening.tables
          { files with manifests := files.manifests.put opening.memory.manifestFileNumber
            <| opening.createdManifest files edit } = opening.tables files :=
        congrArg (fun edits => addedFiles edits ++ opening.edit.newFiles) sameManifest
      rw [newTables]
      exact tables added member
    · rw [written, addedFiles_append]
      exact fun file member =>
        ⟨file, List.mem_append_left _ ((snapshot (0, file)).mpr
          ⟨show 0 < Config.kNumLevels by decide, member⟩), rfl, rfl⟩
    · rw [written, addedFiles_append]
      exact List.subset_append_right _ _
    · rw [written]
      exact precede
  exact (aged.of_manifests sameManifest isLogging lists).advance isLogging { lists with }

omit [Inhabited β] in
theorem Opening.Aged.syncManifest (aged : opening.Aged files) {edit : VersionEdit α β}
    (isLogging : opening.stage = .logging edit .written) :
    Opening.Aged { opening with stage := .logging edit .synced }
      (files.syncManifest opening.memory.manifestFileNumber) := by
  have lists := (aged.logging edit .written isLogging).2 fun impossible => by cases impossible
  have sameEdits : ∀ number, ((files.syncManifest opening.memory.manifestFileNumber).manifests.file
      number).edits = (files.manifests.file number).edits := by
    intro number
    by_cases same : number = opening.memory.manifestFileNumber
    · rw [same, Files.syncManifest]
      simp only [Lib.Shelf.put_file_self]
      rfl
    · exact congrArg ManifestFile.edits (Lib.Shelf.put_file_of_ne _ same _)
  have sameManifest : (files.syncManifest opening.memory.manifestFileNumber).manifest.edits =
      files.manifest.edits := sameEdits files.current
  have newLists : opening.Lists (files.syncManifest opening.memory.manifestFileNumber) edit := by
    refine ⟨?_, ?_, ?_, ?_⟩
    · rw [sameEdits, Opening.tables, sameManifest]
      exact lists.tables
    · rw [sameEdits]
      exact lists.version
    · rw [sameEdits]
      exact lists.new
    · rw [sameEdits]
      exact lists.precede
  exact (aged.of_manifests sameManifest isLogging newLists).advance isLogging { newLists with }

omit [Inhabited β] in
/-- What is listed reaches up to the mark. -/
theorem Opening.Aged.version_le (aged : opening.Aged files) {switched : Nat}
    (upTo : ListedUpTo (opening.tables files) switched) {level : Nat} {file : FileMetaData α β}
    (member : file ∈ opening.memory.db.version.files level) {entry : Entry α β}
    (inFile : entry ∈ file.entries) : entry.sequence ≤ switched := by
  obtain ⟨new, isListed, _, entries⟩ := aged.version level file member
  exact upTo _ (List.mem_append_left _ isListed) entry (entries ▸ inFile)

/-- `Open` ends without a new edit. -/
theorem Opening.Aged.skipEdit (aged : opening.Aged files) (grounded : opening.Grounded files)
    (hasLog : opening.logOpened = true) (saves : opening.saveManifest = false) :
    ∃ switched, Memory.Grounded { opening.memory with work := .collecting none } files switched
        switched ∧
      Memory.Aged { opening.memory with work := .collecting none } files switched switched := by
  obtain ⟨switched, sequenced, upTo, above⟩ := aged.opened hasLog
  refine ⟨switched, grounded.skipEdit hasLog saves sequenced, aged.manifest,
    fun level file member entry inFile => aged.version_le upTo member inFile, aged.version 0, ?_,
    above, ?_, fun _ isJob => (by cases isJob), fun _ _ _ impossible => (by cases impossible),
    fun _ _ _ impossible => by cases impossible⟩
  · exact fun added member => upTo added (List.mem_append_left _ member)
  · intro number there le record inLog
    have ended := (grounded.opened hasLog).1
    have clean := (aged.clean saves).done number there le (by rw [ended]; exact List.not_mem_nil)
    rcases clean with ⟨_, isCurrent⟩ | empty
    · exact above number there isCurrent.symm.le record inLog
    · rw [empty] at inLog
      cases inLog

/-- `Open` ends with the new manifest. -/
theorem Opening.Aged.install (aged : opening.Aged files) (grounded : opening.Grounded files)
    {edit : VersionEdit α β} (isLogging : opening.stage = .logging edit .synced) :
    ∃ switched, Memory.Grounded { opening.memory.install edit with work := .collecting none }
        { files with current := opening.memory.manifestFileNumber } switched switched ∧
      Memory.Aged { opening.memory.install edit with work := .collecting none }
        { files with current := opening.memory.manifestFileNumber } switched switched := by
  obtain ⟨newFiles, isListed⟩ := aged.logging edit .synced isLogging
  have lists := isListed fun impossible => by cases impossible
  obtain ⟨_, isOpened, numbered, _⟩ := grounded.logging edit .synced isLogging
  obtain ⟨switched, sequenced, upTo, above⟩ := aged.opened isOpened
  have isLog : edit.logNumber.getD opening.memory.logNumber = opening.memory.logFileNumber := by
    rw [numbered.logNumber]
    rfl
  refine ⟨switched, grounded.install isLogging sequenced, ⟨aged.order.of_listed lists.tables,
    lists.precede⟩, fun level file member entry inFile => ?_, fun file member => ?_, ?_, above,
    above.mono isLog.symm.le le_rfl, fun _ isJob => (by cases isJob),
    fun _ _ _ impossible => (by cases impossible), fun _ _ _ impossible => by cases impossible⟩
  · rcases mem_applyEdit member with old | ⟨new, isNew, rfl⟩
    · exact aged.version_le upTo old inFile
    · exact upTo _ (List.mem_append_right _ (newFiles ▸ isNew)) entry inFile
  · rcases mem_applyEdit member with old | ⟨new, isNew, rfl⟩
    · exact lists.version file old
    · exact ⟨new, lists.new isNew, rfl, rfl⟩
  · intro added member entry inFile
    obtain ⟨new, inTables, _, entries⟩ := lists.tables added member
    exact upTo _ inTables entry (entries ▸ inFile)

end Opening

/-! ### Every run -/

/-- What holds of the files and of the process that works on them, when no write to a manifest
fails. -/
def Process.Aged [Inhabited β] (files : Files α β) : Process α β → Prop
  | .down => files.Recoverable ∧ ManifestAged files.logs files.manifest.edits
  | .opening state => state.Grounded files ∧ state.Aged files
  | .running memory => ∃ flushed switched, memory.Grounded files flushed switched ∧
      memory.Aged files flushed switched

section Runs

variable [Inhabited β]

theorem Opening.Aged.moves {options : Options α β} {opening : Opening α β} {process : Process α β}
    {files files' : Files α β} {action : OpeningAction} (aged : opening.Aged files)
    (grounded : opening.Grounded files)
    (moves : opening.Moves options files action process files') : process.Aged files' := by
  have newGrounded := grounded.moves moves
  cases moves with
  | replay log logs batch unread stage isLogs isUnread =>
    exact ⟨newGrounded, aged.replay grounded stage isLogs isUnread⟩
  | startFlush mem stage isMem =>
    exact ⟨newGrounded, (aged.startFlush grounded).putTable _ mem false⟩
  | syncTable number mem stage isMem =>
    refine ⟨newGrounded, Opening.Aged.putTable ?_ number mem true⟩
    exact
      { aged with
        waits := fun added member entry inFile => { aged.waits added member entry inFile with }
        building := fun other synced isBuilding => by
          cases isBuilding
          exact aged.building number false stage
        clean := fun saves => { aged.clean saves with }
        logging := fun _ _ impossible => by cases impossible }
  | tableBuilt number mem stage isMem =>
    exact ⟨newGrounded, aged.tableBuilt grounded stage isMem⟩
  | endLog log logs stage isLogs isUnread isMem =>
    exact ⟨newGrounded, aged.finishLog grounded stage isLogs isUnread isMem⟩
  | reuseLog log stage isLogs isUnread reuses whole =>
    exact ⟨newGrounded, aged.reuseLog grounded stage isLogs isUnread whole⟩
  | createLog stage isLogs noLog =>
    exact ⟨newGrounded, aged.createLog grounded stage isLogs noLog⟩
  | logEdit stage isLogs hasLog saves => exact ⟨newGrounded, aged.logEdit⟩
  | skipEdit stage isLogs hasLog saves =>
    obtain ⟨switched, running⟩ := aged.skipEdit grounded hasLog saves
    exact ⟨switched, switched, running⟩
  | appendReused edit stage reused =>
    exact ⟨newGrounded, aged.appendReused grounded stage reused⟩
  | appendCreated edit stage created =>
    exact ⟨newGrounded, aged.appendCreated grounded stage created⟩
  | syncManifest edit stage => exact ⟨newGrounded, aged.syncManifest stage⟩
  | install edit stage =>
    obtain ⟨switched, running⟩ := aged.install grounded stage
    exact ⟨switched, switched, running⟩

theorem Process.Aged.files {files : Files α β} {process : Process α β}
    (aged : process.Aged files) :
    files.Recoverable ∧ ManifestAged files.logs files.manifest.edits := by
  cases process with
  | down => exact aged
  | opening state => exact ⟨aged.1.recoverable, aged.2.manifest⟩
  | running memory =>
    obtain ⟨_, _, grounded, order⟩ := aged
    exact ⟨grounded.recoverable, order.manifest⟩

omit [Inhabited β] in
theorem ManifestAged.crash {files : Files α β} (aged : ManifestAged files.logs files.manifest.edits)
    (loss : Loss) :
    ManifestAged (files.crash loss).logs (files.crash loss).manifest.edits := by
  have cut : (files.crash loss).manifest.edits = files.manifest.edits.take (loss.edits _) :=
    edits_cut _ _
  rw [cut]
  exact (aged.take _).of_logs fun _ _ _ precede => precede.shrinks (shrinks_crash loss files)

/-- Whether a step is no failing write to a manifest. -/
def StoreAction.writesManifest : StoreAction α β → Bool
  | .running action => action.writesManifest
  | _ => true

theorem Store.aged_step {options : Options α β} {store store' : Store α β}
    {action : StoreAction α β} (aged : store.process.Aged store.files)
    (writes : action.writesManifest = true) (taken : store.step options action = some store') :
    store'.process.Aged store'.files := by
  cases action with
  | «open» reuseLogs reuseManifest =>
    rw [Store.step] at taken
    split at taken
    · obtain ⟨opening, recovers, rfl⟩ := Option.map_eq_some_iff.mp taken
      obtain ⟨recoverable, manifest⟩ := aged.files
      exact ⟨recoverable.recover recovers, manifest.recover recoverable recovers⟩
    · cases taken
  | opening action =>
    rw [Store.step] at taken
    split at taken
    · rename_i opening isOpening
      obtain ⟨⟨process, files⟩, steps, rfl⟩ := Option.map_eq_some_iff.mp taken
      rw [isOpening] at aged
      exact aged.2.moves aged.1 (Opening.step_moves steps)
    · cases taken
  | running action =>
    rw [Store.step] at taken
    split at taken
    · rename_i memory isRunning
      obtain ⟨⟨memory', files⟩, steps, rfl⟩ := Option.map_eq_some_iff.mp taken
      rw [isRunning] at aged
      obtain ⟨flushed, switched, grounded, order⟩ := aged
      have moves := Memory.step_moves steps
      exact ⟨_, _, grounded.moves moves, order.moves grounded writes moves⟩
    · cases taken
  | crash loss =>
    cases taken
    obtain ⟨recoverable, manifest⟩ := aged.files
    exact ⟨recoverable.crash loss, manifest.crash loss⟩

theorem aged_created : Process.Aged (Store.created : Store α β).files
    (Store.created : Store α β).process := by
  refine ⟨recoverable_created, ?_, ?_⟩
  · exact fun older isOlder => absurd isOlder List.not_mem_nil
  · intro kept descriptor _ added member
    exact absurd (addedFiles_take_subset _ kept member) List.not_mem_nil

/-- In every run in which no write to a manifest fails, tables at level 0 with greater numbers have
later entries, and the memtables have later ones than all tables. The same holds of the version
and the memtable during recovery. -/
theorem Store.levelZero_age {options : Options α β} {store : Store α β}
    (reached : Lib.Reachable (Store.step options) (fun _ action => action.writesManifest = true)
      Store.created store) :
    (∀ memory, store.process = .running memory →
      (∀ older ∈ memory.db.version.files 0, ∀ newer ∈ memory.db.version.files 0,
        older.number < newer.number → ∀ entry ∈ older.entries, ∀ later ∈ newer.entries,
          entry.sequence < later.sequence) ∧
      ∀ level, ∀ file ∈ memory.db.version.files level, ∀ entry ∈ file.entries,
        (∀ imm ∈ memory.db.imm, ∀ later ∈ imm, entry.sequence < later.sequence) ∧
          ∀ later ∈ memory.db.mem, entry.sequence < later.sequence) ∧
    ∀ opening, store.process = .opening opening →
      (∀ older ∈ opening.memory.db.version.files 0, ∀ newer ∈ opening.memory.db.version.files 0,
        older.number < newer.number → ∀ entry ∈ older.entries, ∀ later ∈ newer.entries,
          entry.sequence < later.sequence) ∧
      ∀ level, ∀ file ∈ opening.memory.db.version.files level, ∀ entry ∈ file.entries,
        ∀ later ∈ opening.mem.getD [], entry.sequence < later.sequence := by
  have aged : store.process.Aged store.files :=
    @Lib.Reachable.invariant _ _ _ _ _ (fun state => state.process.Aged state.files) aged_created
      (fun _ _ _ aged writes taken => Store.aged_step aged writes taken) _ reached
  have levelZero : ∀ {listed : List (Nat × FileMetaData α β)} {version : Version α β},
      LevelZeroOrder listed → (∀ file ∈ version.files 0, ListedAt listed 0 file) →
        ∀ older ∈ version.files 0, ∀ newer ∈ version.files 0, older.number < newer.number →
          ∀ entry ∈ older.entries, ∀ later ∈ newer.entries, entry.sequence < later.sequence := by
    intro listed version order isListed older isOlder newer isNewer less entry inOlder later inNewer
    obtain ⟨first, firstListed, firstNumber, firstEntries⟩ := isListed older isOlder
    obtain ⟨second, secondListed, secondNumber, secondEntries⟩ := isListed newer isNewer
    rw [firstNumber, secondNumber] at less
    exact order _ firstListed _ secondListed rfl rfl less entry (firstEntries ▸ inOlder) later
      (secondEntries ▸ inNewer)
  refine ⟨fun memory isRunning => ?_, fun opening isOpening => ?_⟩
  · rw [isRunning] at aged
    obtain ⟨flushed, switched, grounded, order⟩ := aged
    have sequenced := grounded.sequenced
    refine ⟨levelZero order.manifest.order order.listed, fun level file member entry inFile => ?_⟩
    have entry_le := order.version level file member entry inFile
    exact ⟨fun imm isImm later inImm => entry_le.trans_lt (sequenced.imm imm isImm later inImm).1,
      fun later inMem =>
        (entry_le.trans sequenced.flushed_le).trans_lt (sequenced.mem later inMem).1⟩
  · rw [isOpening] at aged
    obtain ⟨_, order⟩ := aged
    refine ⟨levelZero order.manifest.order (order.version 0), fun level file member entry inFile => ?_⟩
    obtain ⟨new, isListed, _, entries⟩ := order.version level file member
    exact (order.waits _ (List.mem_append_left _ isListed) entry (entries ▸ inFile)).mem

/-- A memtable is flushed by recovery, and a later one with the same key after it. -/
theorem levelZero_age_recovered :
    ∃ store : Store Nat Nat, ∃ memory, store.process = .running memory ∧
      (memory.db.version.files 0).length = 2 ∧
      ∀ older ∈ memory.db.version.files 0, ∀ newer ∈ memory.db.version.files 0,
        older.number < newer.number → ∀ entry ∈ older.entries, ∀ later ∈ newer.entries,
          entry.sequence < later.sequence := by
  obtain ⟨store, reached, outcome⟩ := Lib.exists_of_run
    (show (Lib.run (Store.step sizedOptions) (fun _ action => action.writesManifest = true)
      Store.created (openNew ++ putOne 1 7 ++
        [.crash ⟨fun _ _ => true, fun _ => 9, fun _ => 9⟩] ++ openFlushed ++
          [.running .endCollecting] ++ putOne 1 9 ++ switchAndFlush)).any
            (fun store => store.process.asRunning.any fun memory =>
              decide ((memory.db.version.files 0).length = 2)) = true by decide +kernel)
  obtain ⟨memory, running, isTwo⟩ := (Option.any_eq_true _ _).mp outcome
  have isRunning := Process.asRunning_eq_some.mp running
  exact ⟨store, memory, isRunning, of_decide_eq_true isTwo,
    ((Store.levelZero_age reached).1 memory isRunning).1⟩

end Runs

end LevelDb
