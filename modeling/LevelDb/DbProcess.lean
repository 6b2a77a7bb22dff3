/-
This file models a database over the lives of its process. `DB::Open` reads the manifest, replays
the logs and installs a new manifest; the open database appends to its log and syncs it, switches
memtables, flushes and compacts, writes its manifest and deletes obsolete files; and a crash at any
point leaves the files for the next `Open`. One step makes at most one call to the Env that changes
a file, and every order of the steps of writers, readers and the background thread is a run.

The sizes that decide when a memtable is switched or a replayed one is flushed are left open.
-/

import LevelDb.DbFiles

namespace LevelDb

variable {α β : Type}

/-! ### The state -/

/-- Where the writer at the front of the queue is in `Write`. -/
inductive WriteStage (α β : Type)
  | idle
  | logged (batch : WriteBatch α β) (sync : Bool)
  | synced (batch : WriteBatch α β)
  | inserted (batch : WriteBatch α β) (sync : Bool)
  | failed (batch : WriteBatch α β) (syncError : Bool)

/-- How far the manifest is written in `LogAndApply`. -/
inductive ManifestStage
  | started
  | written
  | synced
  deriving DecidableEq, Repr

/-- Who called `LogAndApply`. -/
inductive LogCaller (α β : Type)
  | compactMemTable (inside : Option (CompactionJob α β))
  | trivialMove
  | installResults (job : CompactionJob α β)

/-- What the background thread is doing. A flush is made by the call itself or from inside a
compaction, and so is the deletion of obsolete files after it. -/
inductive Work (α β : Type)
  | idle
  | building (number : Nat) (synced : Bool) (inside : Option (CompactionJob α β))
  | logging (edit : VersionEdit α β) (stage : ManifestStage) (caller : LogCaller α β)
  | compacting (job : CompactionJob α β)
  | collecting (inside : Option (CompactionJob α β))

/-- The compaction that is under way. -/
def Work.job : Work α β → Option (CompactionJob α β)
  | .idle => none
  | .building _ _ inside => inside
  | .logging _ _ (.compactMemTable inside) => inside
  | .logging _ _ .trivialMove => none
  | .logging _ _ (.installResults job) => some job
  | .compacting job => some job
  | .collecting inside => inside

/-- The state of an open database: the fields of `DBImpl` and of its `VersionSet`, and the versions
that readers hold. -/
structure Memory (α β : Type) where
  db : Db α β
  logNumber : Nat
  prevLogNumber : Nat
  manifestFileNumber : Nat
  logFileNumber : Nat
  pendingOutputs : Finset Nat
  bgError : Bool
  pinned : List (Version α β)
  write : WriteStage α β
  work : Work α β

/-- Where `DB::Open` is: it replays logs, builds the table of a replayed memtable, or writes the
manifest. -/
inductive OpenStage (α β : Type)
  | replaying
  | building (number : Nat) (synced : Bool)
  | logging (edit : VersionEdit α β) (stage : ManifestStage)

/-- The variables of `DB::Open`, `Recover` and `RecoverLogFile`. The first of `logs` is being
replayed, and `unread` is what is left of it. -/
structure Opening (α β : Type) where
  memory : Memory α β
  reuseLogs : Bool
  manifestReused : Bool
  logs : List Nat
  unread : List (WriteBatch α β)
  mem : Option (List (Entry α β))
  compactions : Nat
  edit : VersionEdit α β
  maxSequence : Nat
  saveManifest : Bool
  logOpened : Bool
  stage : OpenStage α β

inductive Process (α β : Type)
  | down
  | opening (opening : Opening α β)
  | running (memory : Memory α β)

/-- The files and the process that works on them. The batches that a successful sync `Write` has
acknowledged are kept as a history. -/
structure Store (α β : Type) where
  files : Files α β
  process : Process α β
  acknowledged : List (WriteBatch α β)

inductive FileKind
  | log
  | table
  | manifest
  deriving DecidableEq, Repr

/-- The steps of an open database. A call that may fail says whether it does; a failed append may
have written its record. -/
inductive RunningAction (α β : Type)
  | append (ops : List (WriteOp α β)) (sync succeeds written : Bool)
  | syncLog (succeeds : Bool)
  | insert
  | finishWrite
  | switchMemTable
  | newLogFails
  | getSnapshot
  | releaseSnapshot (index : Nat)
  | chargeSeek (level index : Nat)
  | pin
  | unpin (index : Nat)
  | startFlush
  | syncTable (succeeds : Bool)
  | tableBuilt
  | startCompaction (choice : Action α β)
  | visit
  | endLoop (succeeds : Bool)
  | appendEdit (succeeds written : Bool)
  | syncManifest (succeeds : Bool)
  | install
  | removeFile (kind : FileKind) (number : Nat)
  | endCollecting

/-- The steps of `DB::Open`. One in which a call fails ends like a crash. -/
inductive OpeningAction
  | replay
  | startFlush
  | syncTable
  | tableBuilt
  | endLog
  | reuseLog
  | createLog
  | logEdit
  | appendEdit
  | syncManifest
  | install

inductive StoreAction (α β : Type)
  | open (reuseLogs reuseManifest : Bool)
  | opening (action : OpeningAction)
  | running (action : RunningAction α β)
  | crash (loss : Loss)

/-! ### The version set -/

/-- The numbers of the tables of a version. -/
def Version.numbers (version : Version α β) : Finset Nat :=
  ((List.range Config.kNumLevels).flatMap fun level =>
    (version.files level).map FileMetaData.number).toFinset

namespace Memory

def setNextFileNumber (memory : Memory α β) (number : Nat) : Memory α β :=
  { memory with db := { memory.db with nextFileNumber := number } }

/-- What `NewFileNumber` does to the counter; it returns the value before. -/
def newFileNumber (memory : Memory α β) : Memory α β :=
  memory.setNextFileNumber (memory.db.nextFileNumber + 1)

def reuseFileNumber (memory : Memory α β) (number : Nat) : Memory α β :=
  if memory.db.nextFileNumber = number + 1 then memory.setNextFileNumber number else memory

theorem newFileNumber_reuseFileNumber (memory : Memory α β) :
    memory.newFileNumber.reuseFileNumber memory.db.nextFileNumber = memory := by
  obtain ⟨⟨_, _, _, _, _, _, _⟩, _, _, _, _, _, _, _, _, _⟩ := memory
  exact if_pos rfl

def markFileNumberUsed (memory : Memory α β) (number : Nat) : Memory α β :=
  if memory.db.nextFileNumber ≤ number then memory.setNextFileNumber (number + 1) else memory

/-- The fields that `LogAndApply` fills in. -/
def completeEdit (memory : Memory α β) (edit : VersionEdit α β) : VersionEdit α β :=
  { edit with
    logNumber := some (edit.logNumber.getD memory.logNumber)
    prevLogNumber := some (edit.prevLogNumber.getD memory.prevLogNumber)
    nextFileNumber := some memory.db.nextFileNumber
    lastSequence := some memory.db.lastSequence }

/-- The edit of `WriteSnapshot`, without the name of the comparator. -/
def snapshot (memory : Memory α β) : VersionEdit α β :=
  { compactPointers := (List.range Config.kNumLevels).flatMap fun level =>
      (memory.db.compactPointer level).toList.map fun key => (level, key)
    newFiles := (List.range Config.kNumLevels).flatMap fun level =>
      (memory.db.version.files level).map fun file => (level, file) }

/-- The versions that are referenced: the current one, that of a running compaction, and those of
the readers. -/
def versions (memory : Memory α β) : List (Version α β) :=
  memory.db.version ::
    ((memory.work.job.map fun job => job.compaction.inputVersion).toList ++ memory.pinned)

/-- The set `live` of `DeleteObsoleteFiles`. -/
def live (memory : Memory α β) : Finset Nat :=
  memory.versions.foldl (fun live version => live ∪ version.numbers) memory.pendingOutputs

/-- What `DeleteObsoleteFiles` keeps. -/
def keeps (memory : Memory α β) : FileKind → Nat → Bool
  | .log, number => decide (memory.logNumber ≤ number) || decide (number = memory.prevLogNumber)
  | .table, number => decide (number ∈ memory.live)
  | .manifest, number => decide (memory.manifestFileNumber ≤ number)

/-- The background thread after a flush and the deletions that follow it. -/
def afterFlush (memory : Memory α β) : Option (CompactionJob α β) → Memory α β
  | none => { memory with work := .idle }
  | some job => { memory with work := .compacting job }

/-- `CleanupCompaction`. -/
def cleanupCompaction (memory : Memory α β) (job : CompactionJob α β) : Memory α β :=
  { memory with
    pendingOutputs := memory.pendingOutputs \ (job.loop.allOutputs.map Output.number).toFinset }

/-- `LogAndApply` failed. -/
def logFailed (memory : Memory α β) : LogCaller α β → Memory α β
  | .compactMemTable inside => { memory with bgError := true }.afterFlush inside
  | .trivialMove => { memory with bgError := true, work := .idle }
  | .installResults job => { memory.cleanupCompaction job with bgError := true, work := .idle }

end Memory

def Files.remove (files : Files α β) (number : Nat) : FileKind → Files α β
  | .log => { files with logs := files.logs.remove number }
  | .table => { files with tables := files.tables.remove number }
  | .manifest => { files with manifests := files.manifests.remove number }

def Files.numbers (files : Files α β) : FileKind → Finset Nat
  | .log => files.logs.numbers
  | .table => files.tables.numbers
  | .manifest => files.manifests.numbers

/-- The table file of a memtable; there is none when the memtable is empty. -/
def Files.putTable (files : Files α β) (number : Nat) (entries : List (Entry α β))
    (synced : Bool) : Files α β :=
  match entries with
  | [] => files
  | _ :: _ => { files with tables := files.tables.put number ⟨entries, synced⟩ }

/-- The table files of the outputs of a compaction; those that are finished are synced. -/
def Files.putOutputs (files : Files α β) (loop : CompactionState α β) : Files α β :=
  let finished := loop.outputs.foldl
    (fun tables output => tables.put output.number ⟨output.entries, true⟩) files.tables
  let tables := loop.builder.elim finished fun output =>
    finished.put output.number ⟨output.entries, false⟩
  { files with tables }

def Files.createLog (files : Files α β) (number : Nat) : Files α β :=
  { files with logs := files.logs.put number LogFile.new }

def Files.appendLog (files : Files α β) (number : Nat) (batch : WriteBatch α β) : Files α β :=
  { files with logs := files.logs.put number ((files.logs.file number).append batch) }

def Files.syncLog (files : Files α β) (number : Nat) : Files α β :=
  { files with logs := files.logs.put number (files.logs.file number).sync }

def Files.appendEdit (files : Files α β) (number : Nat) (record : ManifestRecord α β) : Files α β :=
  { files with manifests :=
      files.manifests.put number ((files.manifests.file number).append record) }

def Files.syncManifest (files : Files α β) (number : Nat) : Files α β :=
  { files with manifests := files.manifests.put number (files.manifests.file number).sync }

/-! ### The open database -/

section Steps

variable [LinearOrder α]

/-- The entries that the drop decisions take out, in input order. -/
def droppedEntries (compaction : Compaction α β) (smallestSnapshot : Nat) :
    DropState α → List (Entry α β) → List (Entry α β)
  | _, [] => []
  | state, entry :: rest =>
    let decision := dropDecision compaction smallestSnapshot state entry.key
    if decision.2 then entry :: droppedEntries compaction smallestSnapshot decision.1 rest
    else droppedEntries compaction smallestSnapshot decision.1 rest

/-- The record of an edit in the manifest, with what the compaction behind it dropped. -/
def LogCaller.record (edit : VersionEdit α β) : LogCaller α β → ManifestRecord α β
  | .compactMemTable _ | .trivialMove => ⟨edit, []⟩
  | .installResults job => ⟨edit, droppedEntries job.compaction job.smallestSnapshot
      DropState.initial (makeInputIterator job.compaction)⟩

namespace Memory

/-- The end of a successful `LogAndApply`. -/
def install (memory : Memory α β) (edit : VersionEdit α β) : Memory α β :=
  { memory with
    db := memory.db.logAndApply edit
    logNumber := edit.logNumber.getD memory.logNumber
    prevLogNumber := edit.prevLogNumber.getD memory.prevLogNumber }

/-- The caller goes on after a successful `LogAndApply`. -/
def logged (memory : Memory α β) : LogCaller α β → Memory α β
  | .compactMemTable inside =>
    { memory with db := { memory.db with imm := none }, work := .collecting inside }
  | .trivialMove => { memory with work := .idle }
  | .installResults job => { memory.cleanupCompaction job with work := .collecting none }

variable [Inhabited β]

/-- The steps of `Write`. -/
def writeStep (memory : Memory α β) (files : Files α β) :
    RunningAction α β → Option (Memory α β × Files α β)
  | .append ops sync succeeds written =>
    match memory.write with
    | .idle =>
      if !memory.bgError && decide (memory.db.lastSequence + ops.length ≤ kMaxSequenceNumber) then
        let batch : WriteBatch α β := ⟨memory.db.lastSequence + 1, ops.length, ops⟩
        some ({ memory with write := if succeeds then .logged batch sync else .failed batch false },
          if succeeds || written then files.appendLog memory.logFileNumber batch else files)
      else none
    | _ => none
  | .syncLog succeeds =>
    match memory.write with
    | .logged batch true =>
      if succeeds then
        some ({ memory with write := .synced batch }, files.syncLog memory.logFileNumber)
      else some ({ memory with write := .failed batch true }, files)
    | _ => none
  | .insert =>
    match memory.write with
    | .logged batch false =>
      some ({ memory with
        db := { memory.db with mem := insertInto memory.db.mem batch.entries }
        write := .inserted batch false }, files)
    | .synced batch =>
      some ({ memory with
        db := { memory.db with mem := insertInto memory.db.mem batch.entries }
        write := .inserted batch true }, files)
    | _ => none
  | .finishWrite =>
    match memory.write with
    | .inserted batch _ =>
      some ({ memory with
        db := { memory.db with lastSequence := batch.sequence - 1 + batch.count }
        write := .idle }, files)
    | .failed batch syncError =>
      some ({ memory with
        db := { memory.db with lastSequence := batch.sequence - 1 + batch.count }
        bgError := memory.bgError || syncError
        write := .idle }, files)
    | _ => none
  | .switchMemTable =>
    match memory.write with
    | .idle =>
      if memory.bgError then none
      else memory.db.switchMemTable.map fun db =>
        ({ memory with db, logFileNumber := memory.db.nextFileNumber },
          files.createLog memory.db.nextFileNumber)
    | _ => none
  | .newLogFails =>
    match memory.write with
    | .idle =>
      if memory.bgError || memory.db.imm.isSome then none
      else some (memory.newFileNumber.reuseFileNumber memory.db.nextFileNumber, files)
    | _ => none
  | _ => none

/-- The steps of readers. -/
def readStep (memory : Memory α β) : RunningAction α β → Option (Memory α β)
  | .getSnapshot => some { memory with db := memory.db.getSnapshot }
  | .releaseSnapshot index => some { memory with db := memory.db.releaseSnapshot index }
  | .chargeSeek level index =>
    (memory.db.chargeSeek level index).map fun db => { memory with db }
  | .pin => some { memory with pinned := memory.pinned ++ [memory.db.version] }
  | .unpin index => some { memory with pinned := memory.pinned.eraseIdx index }
  | _ => none

/-- `CompactMemTable` up to `BuildTable`, which writes the table. -/
def startFlush (memory : Memory α β) (files : Files α β) (inside : Option (CompactionJob α β)) :
    Option (Memory α β × Files α β) :=
  memory.db.imm.map fun imm =>
    let number := memory.db.nextFileNumber
    ({ memory.newFileNumber with
        pendingOutputs := insert number memory.pendingOutputs
        work := .building number false inside },
      files.putTable number imm false)

/-- Whether the compaction was asked for by a caller. -/
def isManual : Action α β → Bool
  | .manualCompaction _ _ _ => true
  | _ => false

/-- `BackgroundCompaction` without an immutable memtable. -/
def startCompaction (options : Options α β) (memory : Memory α β) (choice : Action α β) :
    Option (Memory α β) :=
  (memory.db.chosen options choice).map fun compaction =>
    let pointed := { memory with db := { memory.db with
      compactPointer := Function.update memory.db.compactPointer compaction.level
        (some compaction.compactPointer) } }
    if !isManual choice && compaction.isTrivialMove options then
      { pointed with
        work := .logging (pointed.completeEdit compaction.moveEdit) .started .trivialMove }
    else
      { pointed with
        work := .compacting
          { compaction
            manual := none
            smallestSnapshot := oldestSnapshot memory.db.snapshots memory.db.lastSequence
            loop := CompactionState.initial memory.db.nextFileNumber
            remaining := makeInputIterator compaction } }

/-- One round of the loop of `DoCompactionWork`. -/
def visit (options : Options α β) (memory : Memory α β) (files : Files α β)
    (job : CompactionJob α β) : Option (Memory α β × Files α β) :=
  match job.remaining with
  | [] => none
  | entry :: rest =>
    let loop := { job.loop with nextFileNumber := memory.db.nextFileNumber }.step options
      job.compaction job.smallestSnapshot entry
    some ({ memory.setNextFileNumber loop.nextFileNumber with
        pendingOutputs := memory.pendingOutputs ∪ (loop.allOutputs.map Output.number).toFinset
        work := .compacting { job with loop := loop, remaining := rest } },
      files.putOutputs loop)

/-- The end of the loop of `DoCompactionWork`, with or without an error. -/
def endLoop (options : Options α β) (memory : Memory α β) (files : Files α β)
    (job : CompactionJob α β) (succeeds : Bool) : Option (Memory α β × Files α β) :=
  if succeeds then
    if job.remaining.isEmpty then
      let outputs := job.loop.finish.outputs.map (Output.toFile options)
      some ({ memory with
          work := .logging (memory.completeEdit (installEdit job.compaction outputs)) .started
            (.installResults job) },
        files.putOutputs job.loop.finish)
    else none
  else some ({ memory.cleanupCompaction job with bgError := true, work := .idle }, files)

/-- The steps of the background thread. -/
def backgroundStep (options : Options α β) (memory : Memory α β) (files : Files α β) :
    RunningAction α β → Option (Memory α β × Files α β)
  | .startFlush =>
    match memory.work with
    | .idle => if memory.bgError then none else memory.startFlush files none
    | .compacting job =>
      if job.remaining.isEmpty then none else memory.startFlush files (some job)
    | _ => none
  | .syncTable succeeds =>
    match memory.work with
    | .building number false inside =>
      memory.db.imm.map fun imm =>
        if succeeds then
          ({ memory with work := .building number true inside }, files.putTable number imm true)
        else
          ({ memory with
              pendingOutputs := memory.pendingOutputs.erase number
              bgError := true }.afterFlush inside,
            files.remove number .table)
    | _ => none
  | .tableBuilt =>
    match memory.work with
    | .building number true inside =>
      memory.db.imm.map fun imm =>
        let edit := writeLevel0Table options (some memory.db.version) number imm {}
        ({ memory with
            pendingOutputs := memory.pendingOutputs.erase number
            work := .logging (memory.completeEdit
                ((edit.setPrevLogNumber 0).setLogNumber memory.logFileNumber)) .started
              (.compactMemTable inside) }, files)
    | _ => none
  | .startCompaction choice =>
    match memory.work with
    | .idle =>
      if memory.bgError || memory.db.imm.isSome then none
      else (memory.startCompaction options choice).map fun started => (started, files)
    | _ => none
  | .visit =>
    match memory.work with
    | .compacting job => memory.visit options files job
    | _ => none
  | .endLoop succeeds =>
    match memory.work with
    | .compacting job => memory.endLoop options files job succeeds
    | _ => none
  | .appendEdit succeeds written =>
    match memory.work with
    | .logging edit .started caller =>
      let appended := files.appendEdit memory.manifestFileNumber (caller.record edit)
      if succeeds then some ({ memory with work := .logging edit .written caller }, appended)
      else some (memory.logFailed caller, if written then appended else files)
    | _ => none
  | .syncManifest succeeds =>
    match memory.work with
    | .logging edit .written caller =>
      if succeeds then
        some ({ memory with work := .logging edit .synced caller },
          files.syncManifest memory.manifestFileNumber)
      else some (memory.logFailed caller, files)
    | _ => none
  | .install =>
    match memory.work with
    | .logging edit .synced caller => some ((memory.install edit).logged caller, files)
    | _ => none
  | .removeFile kind number =>
    match memory.work with
    | .collecting _ =>
      if memory.bgError || memory.keeps kind number then none
      else if number ∈ files.numbers kind then some (memory, files.remove number kind)
      else none
    | _ => none
  | .endCollecting =>
    match memory.work with
    | .collecting inside => some (memory.afterFlush inside, files)
    | _ => none
  | _ => none

/-- One step of an open database. -/
def step (options : Options α β) (memory : Memory α β) (files : Files α β)
    (action : RunningAction α β) : Option (Memory α β × Files α β) :=
  ((memory.writeStep files action).or
    ((memory.readStep action).map fun read => (read, files))).or
      (memory.backgroundStep options files action)

end Memory

/-! ### Opening -/

/-- The log that `RecoverLogFile` goes on with. -/
def nextUnread (files : Files α β) : List Nat → List (WriteBatch α β)
  | [] => []
  | log :: _ => (files.logs.file log).records

/-- The logs that `Recover` replays. -/
def logsToReplay (files : Files α β) (descriptor : Descriptor α β) : List Nat :=
  Lib.ascending <| files.logs.numbers.filter fun number =>
    descriptor.logNumber ≤ number ∨ number = descriptor.prevLogNumber

/-- The variables after `VersionSet::Recover`, before the first log is replayed. -/
def Opening.start (files : Files α β) (descriptor : Descriptor α β)
    (reuseLogs manifestReused : Bool) : Opening α β :=
  { memory :=
      { db :=
          { mem := []
            imm := none
            lastSequence := descriptor.lastSequence
            snapshots := []
            version := descriptor.version
            compactPointer := descriptor.compactPointer
            nextFileNumber := descriptor.nextFile + 1 }
        logNumber := descriptor.logNumber
        prevLogNumber := descriptor.prevLogNumber
        manifestFileNumber := if manifestReused then files.current else descriptor.nextFile
        logFileNumber := 0
        pendingOutputs := ∅
        bgError := false
        pinned := []
        write := .idle
        work := .idle }
    reuseLogs
    manifestReused
    logs := logsToReplay files descriptor
    unread := nextUnread files (logsToReplay files descriptor)
    mem := none
    compactions := 0
    edit := {}
    maxSequence := 0
    saveManifest := !manifestReused
    logOpened := false
    stage := .replaying }

/-- `VersionSet::Recover`, the search for missing files, and the list of logs to replay. The number
of a missing table is found in the name of any file. -/
def Files.recover (files : Files α β) (reuseLogs reuseManifest : Bool) : Option (Opening α β) :=
  (Descriptor.read files.manifest.edits).bind fun descriptor =>
    if files.current ∈ files.manifests.numbers ∧ descriptor.version.numbers ⊆
        files.tables.numbers ∪ files.logs.numbers ∪ files.manifests.numbers then
      some (Opening.start files descriptor reuseLogs (reuseLogs && reuseManifest))
    else none

namespace Opening

/-- The end of `RecoverLogFile` for the first log, and what `Recover` does after it. -/
def finishLog (opening : Opening α β) (files : Files α β) (log : Nat) (rest : List Nat) :
    Opening α β :=
  let marked := opening.memory.markFileNumberUsed log
  let memory := if rest.isEmpty then
      { marked with db := { marked.db with
        lastSequence := max marked.db.lastSequence opening.maxSequence } }
    else marked
  { opening with memory, logs := rest, unread := nextUnread files rest, mem := none, compactions := 0 }

/-- A new manifest: a snapshot and the edit of the recovery. -/
def createdManifest (opening : Opening α β) (files : Files α β) (edit : VersionEdit α β) :
    ManifestFile α β :=
  ⟨[⟨opening.memory.snapshot, files.manifest.records.flatMap ManifestRecord.dropped⟩, ⟨edit, []⟩], 0⟩

/-- `DB::Open` has succeeded but for `DeleteObsoleteFiles`. -/
def opened (memory : Memory α β) : Process α β := .running { memory with work := .collecting none }

variable [Inhabited β]

/-- `RecoverLogFile`. -/
def replayStep (options : Options α β) (opening : Opening α β) (files : Files α β) :
    OpeningAction → Option (Opening α β × Files α β)
  | .replay =>
    match opening.stage, opening.logs, opening.unread with
    | .replaying, _ :: _, batch :: rest =>
      some ({ opening with
        unread := rest
        mem := some (insertInto (opening.mem.getD []) batch.entries)
        maxSequence := max opening.maxSequence (batch.sequence + batch.count - 1) }, files)
    | _, _, _ => none
  | .startFlush =>
    match opening.stage, opening.mem with
    | .replaying, some mem =>
      let number := opening.memory.db.nextFileNumber
      some ({ opening with
          memory := { opening.memory.newFileNumber with
            pendingOutputs := insert number opening.memory.pendingOutputs }
          compactions := opening.compactions + 1
          saveManifest := true
          stage := .building number false },
        files.putTable number mem false)
    | _, _ => none
  | .syncTable =>
    match opening.stage, opening.mem with
    | .building number false, some mem =>
      some ({ opening with stage := .building number true }, files.putTable number mem true)
    | _, _ => none
  | .tableBuilt =>
    match opening.stage, opening.mem with
    | .building number true, some mem =>
      some ({ opening with
        memory := { opening.memory with
          pendingOutputs := opening.memory.pendingOutputs.erase number }
        mem := none
        edit := writeLevel0Table options none number mem opening.edit
        stage := .replaying }, files)
    | _, _ => none
  | .endLog =>
    match opening.stage, opening.logs, opening.unread, opening.mem with
    | .replaying, log :: rest, [], none => some (opening.finishLog files log rest, files)
    | _, _, _, _ => none
  | .reuseLog =>
    match opening.stage, opening.logs, opening.unread with
    | .replaying, [log], [] =>
      if opening.reuseLogs && decide (opening.compactions = 0) then
        let ended := opening.finishLog files log []
        some ({ ended with
          memory := { ended.memory with
            db := { ended.memory.db with mem := opening.mem.getD [] }
            logFileNumber := log }
          logOpened := true }, files)
      else none
    | _, _, _ => none
  | _ => none

/-- The end of `DB::Open`. -/
def openStep (opening : Opening α β) (files : Files α β) :
    OpeningAction → Option (Process α β × Files α β)
  | .createLog =>
    match opening.stage, opening.logs with
    | .replaying, [] =>
      if opening.logOpened then none
      else
        let number := opening.memory.db.nextFileNumber
        some (.opening { opening with
            memory := { opening.memory.newFileNumber with logFileNumber := number }
            edit := opening.edit.setLogNumber number
            logOpened := true },
          files.createLog number)
    | _, _ => none
  | .logEdit =>
    match opening.stage, opening.logs with
    | .replaying, [] =>
      if opening.logOpened then
        if opening.saveManifest then
          let edit := (opening.edit.setPrevLogNumber 0).setLogNumber opening.memory.logFileNumber
          some (.opening { opening with
            stage := .logging (opening.memory.completeEdit edit) .started }, files)
        else some (opened opening.memory, files)
      else none
    | _, _ => none
  | .appendEdit =>
    match opening.stage with
    | .logging edit .started =>
      let number := opening.memory.manifestFileNumber
      let created := opening.createdManifest files edit
      some (.opening { opening with stage := .logging edit .written },
        if opening.manifestReused then files.appendEdit number ⟨edit, []⟩
        else { files with manifests := files.manifests.put number created })
    | _ => none
  | .syncManifest =>
    match opening.stage with
    | .logging edit .written =>
      some (.opening { opening with stage := .logging edit .synced },
        files.syncManifest opening.memory.manifestFileNumber)
    | _ => none
  | .install =>
    match opening.stage with
    | .logging edit .synced =>
      some (opened (opening.memory.install edit),
        { files with current := opening.memory.manifestFileNumber })
    | _ => none
  | _ => none

/-- One step of `DB::Open`. -/
def step (options : Options α β) (opening : Opening α β) (files : Files α β)
    (action : OpeningAction) : Option (Process α β × Files α β) :=
  ((opening.replayStep options files action).map fun result => (.opening result.1, result.2)).or
    (opening.openStep files action)

end Opening

/-! ### The machine -/

/-- The batch that a step acknowledges to a sync writer. -/
def Memory.acknowledges (memory : Memory α β) : RunningAction α β → List (WriteBatch α β)
  | .finishWrite =>
    match memory.write with
    | .inserted batch true => [batch]
    | _ => []
  | _ => []

variable [Inhabited β]

/-- One step; `none` when it cannot be taken. -/
def Store.step (options : Options α β) (store : Store α β) :
    StoreAction α β → Option (Store α β)
  | .open reuseLogs reuseManifest =>
    match store.process with
    | .down => (store.files.recover reuseLogs reuseManifest).map fun opening =>
        { store with process := .opening opening }
    | _ => none
  | .opening action =>
    match store.process with
    | .opening opening => (opening.step options store.files action).map fun result =>
        { store with process := result.1, files := result.2 }
    | _ => none
  | .running action =>
    match store.process with
    | .running memory => (memory.step options store.files action).map fun result =>
        { files := result.2
          process := .running result.1
          acknowledged := store.acknowledged ++ memory.acknowledges action }
    | _ => none
  | .crash loss => some { store with files := store.files.crash loss, process := .down }

/-- The edit of `NewDB`, without the name of the comparator. -/
def newDbEdit : VersionEdit α β :=
  { logNumber := some 0, nextFileNumber := some 2, lastSequence := some 0 }

/-- The directory after `NewDB`: `CURRENT` names the first manifest, which is not synced. -/
def Store.created : Store α β :=
  { files :=
      { logs := ⟨∅, fun _ => LogFile.new⟩
        tables := ⟨∅, fun _ => ⟨[], false⟩⟩
        manifests := ⟨{1}, fun _ => ⟨[⟨newDbEdit, []⟩], 0⟩⟩
        current := 1 }
    process := .down
    acknowledged := [] }

end Steps

end LevelDb
