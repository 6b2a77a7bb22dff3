/-
This file says what each step of a database and of its recovery does, once for all invariants: the
state and the files after it, and what allowed it.
-/

import LevelDb.DbProcess

namespace LevelDb

variable {α β : Type} [LinearOrder α] [Inhabited β]

/-! ### What a step of the open database does -/

/-- Whether a step is one of readers. -/
def RunningAction.reads : RunningAction α β → Bool
  | .getSnapshot | .releaseSnapshot _ | .chargeSeek _ _ | .pin | .unpin _ => true
  | _ => false

/-- The ways a step changes an open database and its files. -/
inductive Memory.Moves (options : Options α β) (memory : Memory α β) (files : Files α β) :
    RunningAction α β → Memory α β → Files α β → Prop
  | append (ops : List (WriteOp α β)) (sync succeeds written : Bool) (batch : WriteBatch α β)
      (idle : memory.write = .idle) (noError : memory.bgError = false)
      (fits : memory.db.lastSequence + ops.length ≤ kMaxSequenceNumber)
      (isBatch : batch = ⟨memory.db.lastSequence + 1, ops.length, ops⟩) :
      Moves options memory files (.append ops sync succeeds written)
        { memory with write := if succeeds then .logged batch sync else .failed batch false }
        (if succeeds || written then files.appendLog memory.logFileNumber batch else files)
  | syncLog (batch : WriteBatch α β) (stage : memory.write = .logged batch true) :
      Moves options memory files (.syncLog true) { memory with write := .synced batch }
        (files.syncLog memory.logFileNumber)
  | syncLogFails (batch : WriteBatch α β) (stage : memory.write = .logged batch true) :
      Moves options memory files (.syncLog false) { memory with write := .failed batch true } files
  | insert (batch : WriteBatch α β) (sync : Bool)
      (stage : memory.write = .logged batch false ∧ sync = false ∨
        memory.write = .synced batch ∧ sync = true) :
      Moves options memory files .insert
        { memory with
          db := { memory.db with mem := insertInto memory.db.mem batch.entries }
          write := .inserted batch sync } files
  | finishWrite (batch : WriteBatch α β) (error : Bool)
      (stage : (∃ sync, memory.write = .inserted batch sync) ∧ error = memory.bgError ∨
        ∃ syncError, memory.write = .failed batch syncError ∧
          error = (memory.bgError || syncError)) :
      Moves options memory files .finishWrite
        { memory with
          db := { memory.db with lastSequence := batch.sequence - 1 + batch.count }
          bgError := error
          write := .idle } files
  | switchMemTable (idle : memory.write = .idle) (noError : memory.bgError = false)
      (empty : memory.db.imm = none) :
      Moves options memory files .switchMemTable
        { memory with
          db := { memory.db with
            mem := [], imm := some memory.db.mem, nextFileNumber := memory.db.nextFileNumber + 1 }
          logFileNumber := memory.db.nextFileNumber }
        (files.createLog memory.db.nextFileNumber)
  | newLogFails (idle : memory.write = .idle) (noError : memory.bgError = false)
      (empty : memory.db.imm = none) :
      Moves options memory files .newLogFails memory files
  | read (action : RunningAction α β) (reads : action.reads = true) (snapshots : List Nat)
      (fileToCompact : Option (FileMetaData α β × Nat)) (pinned : List (Version α β))
      (seek : fileToCompact = memory.db.version.fileToCompact ∨ ∃ file level,
        fileToCompact = some (file, level) ∧ file ∈ memory.db.version.files level)
      (pins : ∀ version ∈ pinned, version ∈ memory.pinned ∨ version = memory.db.version) :
      Moves options memory files action
        { memory with
          db := { memory.db with
            snapshots, version := { memory.db.version with fileToCompact } }
          pinned } files
  | startFlush (inside : Option (CompactionJob α β)) (imm : List (Entry α β))
      (isImm : memory.db.imm = some imm)
      (stage : memory.work = .idle ∧ memory.bgError = false ∧ inside = none ∨
        ∃ job, memory.work = .compacting job ∧ job.remaining ≠ [] ∧ inside = some job) :
      Moves options memory files .startFlush
        { memory.newFileNumber with
          pendingOutputs := insert memory.db.nextFileNumber memory.pendingOutputs
          work := .building memory.db.nextFileNumber false inside }
        (files.putTable memory.db.nextFileNumber imm false)
  | syncTable (number : Nat) (inside : Option (CompactionJob α β)) (imm : List (Entry α β))
      (isImm : memory.db.imm = some imm) (stage : memory.work = .building number false inside) :
      Moves options memory files (.syncTable true)
        { memory with work := .building number true inside } (files.putTable number imm true)
  | syncTableFails (number : Nat) (inside : Option (CompactionJob α β)) (imm : List (Entry α β))
      (isImm : memory.db.imm = some imm) (stage : memory.work = .building number false inside) :
      Moves options memory files (.syncTable false)
        ({ memory with
            pendingOutputs := memory.pendingOutputs.erase number
            bgError := true }.afterFlush inside)
        (files.remove number .table)
  | tableBuilt (number : Nat) (inside : Option (CompactionJob α β)) (imm : List (Entry α β))
      (isImm : memory.db.imm = some imm) (stage : memory.work = .building number true inside) :
      Moves options memory files .tableBuilt
        { memory with
          pendingOutputs := memory.pendingOutputs.erase number
          work := .logging (memory.completeEdit (((writeLevel0Table options
              (some memory.db.version) number imm {}).setPrevLogNumber 0).setLogNumber
                memory.logFileNumber)) .started (.compactMemTable inside) } files
  | startMove (choice : Action α β) (compaction : Compaction α β) (idle : memory.work = .idle)
      (noError : memory.bgError = false) (empty : memory.db.imm = none)
      (chooses : memory.db.chosen options choice = some compaction)
      (isTrivialMove : compaction.isTrivialMove options = true)
      (pointer : Nat → Option (InternalKey α)) :
      Moves options memory files (.startCompaction choice)
        { memory with
          db := { memory.db with compactPointer := pointer }
          work := .logging (memory.completeEdit compaction.moveEdit) .started .trivialMove } files
  | startCompaction (choice : Action α β) (compaction : Compaction α β)
      (idle : memory.work = .idle) (noError : memory.bgError = false)
      (empty : memory.db.imm = none)
      (chooses : memory.db.chosen options choice = some compaction)
      (pointer : Nat → Option (InternalKey α)) :
      Moves options memory files (.startCompaction choice)
        { memory with
          db := { memory.db with compactPointer := pointer }
          work := .compacting
            { compaction
              manual := none
              smallestSnapshot := oldestSnapshot memory.db.snapshots memory.db.lastSequence
              loop := CompactionState.initial memory.db.nextFileNumber
              remaining := makeInputIterator compaction } } files
  | visit (job : CompactionJob α β) (entry : Entry α β) (rest : List (Entry α β))
      (loop : CompactionState α β) (stage : memory.work = .compacting job)
      (remaining : job.remaining = entry :: rest)
      (isLoop : loop = { job.loop with nextFileNumber := memory.db.nextFileNumber }.step options
        job.compaction job.smallestSnapshot entry) :
      Moves options memory files .visit
        { memory.setNextFileNumber loop.nextFileNumber with
          pendingOutputs := memory.pendingOutputs ∪ (loop.allOutputs.map Output.number).toFinset
          work := .compacting { job with loop := loop, remaining := rest } }
        (files.putOutputs loop)
  | endLoop (job : CompactionJob α β) (stage : memory.work = .compacting job)
      (remaining : job.remaining = []) :
      Moves options memory files (.endLoop true)
        { memory with
          work := .logging (memory.completeEdit (installEdit job.compaction
            (job.loop.finish.outputs.map (Output.toFile options)))) .started
              (.installResults job) }
        (files.putOutputs job.loop.finish)
  | endLoopFails (job : CompactionJob α β) (stage : memory.work = .compacting job) :
      Moves options memory files (.endLoop false)
        { memory.cleanupCompaction job with bgError := true, work := .idle } files
  | appendEdit (written : Bool) (edit : VersionEdit α β) (caller : LogCaller α β)
      (stage : memory.work = .logging edit .started caller) :
      Moves options memory files (.appendEdit true written)
        { memory with work := .logging edit .written caller }
        (files.appendEdit memory.manifestFileNumber (caller.record edit))
  | appendEditFails (written : Bool) (edit : VersionEdit α β) (caller : LogCaller α β)
      (stage : memory.work = .logging edit .started caller) :
      Moves options memory files (.appendEdit false written) (memory.logFailed caller)
        (if written then files.appendEdit memory.manifestFileNumber (caller.record edit) else files)
  | syncManifest (edit : VersionEdit α β) (caller : LogCaller α β)
      (stage : memory.work = .logging edit .written caller) :
      Moves options memory files (.syncManifest true)
        { memory with work := .logging edit .synced caller }
        (files.syncManifest memory.manifestFileNumber)
  | syncManifestFails (edit : VersionEdit α β) (caller : LogCaller α β)
      (stage : memory.work = .logging edit .written caller) :
      Moves options memory files (.syncManifest false) (memory.logFailed caller) files
  | install (edit : VersionEdit α β) (caller : LogCaller α β)
      (stage : memory.work = .logging edit .synced caller) :
      Moves options memory files .install ((memory.install edit).logged caller) files
  | removeFile (kind : FileKind) (number : Nat) (inside : Option (CompactionJob α β))
      (stage : memory.work = .collecting inside) (noError : memory.bgError = false)
      (obsolete : memory.keeps kind number = false) (there : number ∈ files.numbers kind) :
      Moves options memory files (.removeFile kind number) memory (files.remove number kind)
  | endCollecting (inside : Option (CompactionJob α β)) (stage : memory.work = .collecting inside) :
      Moves options memory files .endCollecting (memory.afterFlush inside) files

section Moves

variable {options : Options α β} {memory memory' : Memory α β} {files files' : Files α β}
  {action : RunningAction α β}

theorem Memory.writeStep_moves (taken : memory.writeStep files action = some (memory', files')) :
    memory.Moves options files action memory' files' := by
  cases action with
  | append ops sync succeeds written =>
    rw [Memory.writeStep] at taken
    split at taken
    · rename_i idle
      split at taken
      · rename_i may
        cases taken
        obtain ⟨noError, fits⟩ := Bool.and_eq_true_iff.mp may
        exact .append ops sync succeeds written _ idle (by simpa using noError)
          (of_decide_eq_true fits) rfl
      · cases taken
    · cases taken
  | syncLog succeeds =>
    rw [Memory.writeStep] at taken
    split at taken
    · rename_i batch stage
      cases succeeds with
      | true =>
        cases taken
        exact .syncLog batch stage
      | false =>
        cases taken
        exact .syncLogFails batch stage
    · cases taken
  | insert =>
    rw [Memory.writeStep] at taken
    split at taken
    · rename_i batch stage
      cases taken
      exact .insert batch false (Or.inl ⟨stage, rfl⟩)
    · rename_i batch stage
      cases taken
      exact .insert batch true (Or.inr ⟨stage, rfl⟩)
    · cases taken
  | finishWrite =>
    rw [Memory.writeStep] at taken
    split at taken
    · rename_i batch sync stage
      cases taken
      exact .finishWrite batch memory.bgError (Or.inl ⟨⟨sync, stage⟩, rfl⟩)
    · rename_i batch syncError stage
      cases taken
      exact .finishWrite batch _ (Or.inr ⟨syncError, stage, rfl⟩)
    · cases taken
  | switchMemTable =>
    rw [Memory.writeStep] at taken
    split at taken
    · rename_i idle
      split at taken
      · cases taken
      · rename_i noError
        obtain ⟨db, switches, result⟩ := Option.map_eq_some_iff.mp taken
        rw [Db.switchMemTable] at switches
        split at switches
        · rename_i empty
          cases switches
          cases result
          exact .switchMemTable idle (Bool.eq_false_iff.mpr noError)
            (Option.isNone_iff_eq_none.mp empty)
        · cases switches
    · cases taken
  | newLogFails =>
    rw [Memory.writeStep] at taken
    split at taken
    · rename_i idle
      split at taken
      · cases taken
      · rename_i may
        obtain ⟨noError, empty⟩ := Bool.or_eq_false_iff.mp (Bool.eq_false_iff.mpr may)
        rw [Memory.newFileNumber_reuseFileNumber] at taken
        cases taken
        exact .newLogFails idle noError (Option.not_isSome_iff_eq_none.mp (by rw [empty]; decide))
    · cases taken
  | _ => cases taken

theorem Memory.readStep_moves (taken : memory.readStep action = some memory') :
    memory.Moves options files action memory' files := by
  cases action with
  | getSnapshot =>
    cases taken
    exact .read _ rfl _ _ _ (Or.inl rfl) fun _ => Or.inl
  | releaseSnapshot index =>
    cases taken
    exact .read _ rfl _ _ _ (Or.inl rfl) fun _ => Or.inl
  | chargeSeek level index =>
    obtain ⟨db, charges, rfl⟩ := Option.map_eq_some_iff.mp taken
    rw [Db.chargeSeek] at charges
    split at charges
    · obtain ⟨file, isFile, rfl⟩ := Option.map_eq_some_iff.mp charges
      exact .read _ rfl _ _ _ (Or.inr ⟨file, level, rfl, List.mem_of_getElem? isFile⟩) fun _ => Or.inl
    · cases charges
  | pin =>
    cases taken
    refine .read _ rfl _ _ _ (Or.inl rfl) fun version member => ?_
    exact (List.mem_append.mp member).imp_right List.mem_singleton.mp
  | unpin index =>
    cases taken
    exact .read _ rfl _ _ _ (Or.inl rfl) fun version member =>
      Or.inl ((List.eraseIdx_sublist _ _).subset member)
  | _ => cases taken

theorem Memory.startCompaction_moves {choice : Action α β} (idle : memory.work = .idle)
    (noError : memory.bgError = false) (empty : memory.db.imm = none)
    (taken : memory.startCompaction options choice = some memory') :
    memory.Moves options files (.startCompaction choice) memory' files := by
  obtain ⟨compaction, chooses, result⟩ := Option.map_eq_some_iff.mp taken
  dsimp only at result
  split at result
  · rename_i may
    subst result
    exact .startMove choice compaction idle noError empty chooses (Bool.and_eq_true_iff.mp may).2 _
  · subst result
    exact .startCompaction choice compaction idle noError empty chooses _

theorem Memory.backgroundStep_moves
    (taken : memory.backgroundStep options files action = some (memory', files')) :
    memory.Moves options files action memory' files' := by
  cases action with
  | startFlush =>
    rw [Memory.backgroundStep] at taken
    split at taken
    · rename_i idle
      split at taken
      · cases taken
      · rename_i noError
        obtain ⟨imm, isImm, result⟩ := Option.map_eq_some_iff.mp taken
        cases result
        exact .startFlush none imm isImm (Or.inl ⟨idle, Bool.eq_false_iff.mpr noError, rfl⟩)
    · rename_i job stage
      split at taken
      · cases taken
      · rename_i remaining
        obtain ⟨imm, isImm, result⟩ := Option.map_eq_some_iff.mp taken
        cases result
        exact .startFlush (some job) imm isImm
          (Or.inr ⟨job, stage, fun none => remaining (List.isEmpty_iff.mpr none), rfl⟩)
    · cases taken
  | syncTable succeeds =>
    rw [Memory.backgroundStep] at taken
    split at taken
    · rename_i number inside stage
      obtain ⟨imm, isImm, result⟩ := Option.map_eq_some_iff.mp taken
      cases succeeds with
      | true =>
        cases result
        exact .syncTable number inside imm isImm stage
      | false =>
        cases result
        exact .syncTableFails number inside imm isImm stage
    · cases taken
  | tableBuilt =>
    rw [Memory.backgroundStep] at taken
    split at taken
    · rename_i number inside stage
      obtain ⟨imm, isImm, result⟩ := Option.map_eq_some_iff.mp taken
      cases result
      exact .tableBuilt number inside imm isImm stage
    · cases taken
  | startCompaction choice =>
    rw [Memory.backgroundStep] at taken
    split at taken
    · rename_i idle
      split at taken
      · cases taken
      · rename_i may
        obtain ⟨noError, empty⟩ := Bool.or_eq_false_iff.mp (Bool.eq_false_iff.mpr may)
        obtain ⟨started, starts, result⟩ := Option.map_eq_some_iff.mp taken
        cases result
        exact Memory.startCompaction_moves idle noError
          (Option.not_isSome_iff_eq_none.mp (by rw [empty]; decide)) starts
    · cases taken
  | visit =>
    rw [Memory.backgroundStep] at taken
    split at taken
    · rename_i job stage
      rw [Memory.visit] at taken
      split at taken
      · cases taken
      · rename_i entry rest remaining
        cases taken
        exact .visit job entry rest _ stage remaining rfl
    · cases taken
  | endLoop succeeds =>
    rw [Memory.backgroundStep] at taken
    split at taken
    · rename_i job stage
      cases succeeds with
      | true =>
        rw [Memory.endLoop, if_pos rfl] at taken
        split at taken
        · rename_i remaining
          cases taken
          exact .endLoop job stage (List.isEmpty_iff.mp remaining)
        · cases taken
      | false =>
        cases taken
        exact .endLoopFails job stage
    · cases taken
  | appendEdit succeeds written =>
    rw [Memory.backgroundStep] at taken
    split at taken
    · rename_i edit caller stage
      cases succeeds with
      | true =>
        cases taken
        exact .appendEdit written edit caller stage
      | false =>
        cases taken
        exact .appendEditFails written edit caller stage
    · cases taken
  | syncManifest succeeds =>
    rw [Memory.backgroundStep] at taken
    split at taken
    · rename_i edit caller stage
      cases succeeds with
      | true =>
        cases taken
        exact .syncManifest edit caller stage
      | false =>
        cases taken
        exact .syncManifestFails edit caller stage
    · cases taken
  | install =>
    rw [Memory.backgroundStep] at taken
    split at taken
    · rename_i edit caller stage
      cases taken
      exact .install edit caller stage
    · cases taken
  | removeFile kind number =>
    rw [Memory.backgroundStep] at taken
    split at taken
    · rename_i inside stage
      split at taken
      · cases taken
      · rename_i may
        obtain ⟨noError, obsolete⟩ := Bool.or_eq_false_iff.mp (Bool.eq_false_iff.mpr may)
        split at taken
        · rename_i there
          cases taken
          exact .removeFile kind number inside stage noError obsolete there
        · cases taken
    · cases taken
  | endCollecting =>
    rw [Memory.backgroundStep] at taken
    split at taken
    · rename_i inside stage
      cases taken
      exact .endCollecting inside stage
    · cases taken
  | _ => cases taken

theorem Memory.step_moves (taken : memory.step options files action = some (memory', files')) :
    memory.Moves options files action memory' files' := by
  rcases Option.or_eq_some_iff.mp taken with first | ⟨_, background⟩
  · rcases Option.or_eq_some_iff.mp first with write | ⟨_, read⟩
    · exact Memory.writeStep_moves write
    · obtain ⟨_, reads, result⟩ := Option.map_eq_some_iff.mp read
      cases result
      exact Memory.readStep_moves reads
  · exact Memory.backgroundStep_moves background

end Moves

/-! ### What a step of opening does -/

/-- The ways a step changes a database that is being opened and its files. -/
inductive Opening.Moves (options : Options α β) (opening : Opening α β) (files : Files α β) :
    OpeningAction → Process α β → Files α β → Prop
  | replay (log : Nat) (logs : List Nat) (batch : WriteBatch α β) (unread : List (WriteBatch α β))
      (stage : opening.stage = .replaying) (isLogs : opening.logs = log :: logs)
      (isUnread : opening.unread = batch :: unread) :
      Moves options opening files .replay
        (.opening { opening with
          unread
          mem := some (insertInto (opening.mem.getD []) batch.entries)
          maxSequence := max opening.maxSequence (batch.sequence + batch.count - 1) }) files
  | startFlush (mem : List (Entry α β)) (stage : opening.stage = .replaying)
      (isMem : opening.mem = some mem) :
      Moves options opening files .startFlush
        (.opening { opening with
          memory := { opening.memory.newFileNumber with
            pendingOutputs :=
              insert opening.memory.db.nextFileNumber opening.memory.pendingOutputs }
          compactions := opening.compactions + 1
          saveManifest := true
          stage := .building opening.memory.db.nextFileNumber false })
        (files.putTable opening.memory.db.nextFileNumber mem false)
  | syncTable (number : Nat) (mem : List (Entry α β))
      (stage : opening.stage = .building number false) (isMem : opening.mem = some mem) :
      Moves options opening files .syncTable
        (.opening { opening with stage := .building number true }) (files.putTable number mem true)
  | tableBuilt (number : Nat) (mem : List (Entry α β))
      (stage : opening.stage = .building number true) (isMem : opening.mem = some mem) :
      Moves options opening files .tableBuilt
        (.opening { opening with
          memory := { opening.memory with
            pendingOutputs := opening.memory.pendingOutputs.erase number }
          mem := none
          edit := writeLevel0Table options none number mem opening.edit
          stage := .replaying }) files
  | endLog (log : Nat) (logs : List Nat) (stage : opening.stage = .replaying)
      (isLogs : opening.logs = log :: logs) (isUnread : opening.unread = [])
      (isMem : opening.mem = none) :
      Moves options opening files .endLog (.opening (opening.finishLog files log logs)) files
  | reuseLog (log : Nat) (stage : opening.stage = .replaying) (isLogs : opening.logs = [log])
      (isUnread : opening.unread = []) (reuses : opening.reuseLogs = true)
      (whole : opening.compactions = 0) :
      Moves options opening files .reuseLog
        (.opening { opening.finishLog files log [] with
          memory := { (opening.finishLog files log []).memory with
            db := { (opening.finishLog files log []).memory.db with mem := opening.mem.getD [] }
            logFileNumber := log }
          logOpened := true }) files
  | createLog (stage : opening.stage = .replaying) (isLogs : opening.logs = [])
      (noLog : opening.logOpened = false) :
      Moves options opening files .createLog
        (.opening { opening with
          memory := { opening.memory.newFileNumber with
            logFileNumber := opening.memory.db.nextFileNumber }
          edit := opening.edit.setLogNumber opening.memory.db.nextFileNumber
          logOpened := true })
        (files.createLog opening.memory.db.nextFileNumber)
  | logEdit (stage : opening.stage = .replaying) (isLogs : opening.logs = [])
      (hasLog : opening.logOpened = true) (saves : opening.saveManifest = true) :
      Moves options opening files .logEdit
        (.opening { opening with
          stage := .logging (opening.memory.completeEdit ((opening.edit.setPrevLogNumber
            0).setLogNumber opening.memory.logFileNumber)) .started }) files
  | skipEdit (stage : opening.stage = .replaying) (isLogs : opening.logs = [])
      (hasLog : opening.logOpened = true) (saves : opening.saveManifest = false) :
      Moves options opening files .logEdit (opened opening.memory) files
  | appendReused (edit : VersionEdit α β) (stage : opening.stage = .logging edit .started)
      (reused : opening.manifestReused = true) :
      Moves options opening files .appendEdit
        (.opening { opening with stage := .logging edit .written })
        (files.appendEdit opening.memory.manifestFileNumber ⟨edit, []⟩)
  | appendCreated (edit : VersionEdit α β) (stage : opening.stage = .logging edit .started)
      (created : opening.manifestReused = false) :
      Moves options opening files .appendEdit
        (.opening { opening with stage := .logging edit .written })
        { files with manifests := files.manifests.put opening.memory.manifestFileNumber
          <| opening.createdManifest files edit }
  | syncManifest (edit : VersionEdit α β) (stage : opening.stage = .logging edit .written) :
      Moves options opening files .syncManifest
        (.opening { opening with stage := .logging edit .synced })
        (files.syncManifest opening.memory.manifestFileNumber)
  | install (edit : VersionEdit α β) (stage : opening.stage = .logging edit .synced) :
      Moves options opening files .install (opened (opening.memory.install edit))
        { files with current := opening.memory.manifestFileNumber }

section Moves

variable {options : Options α β} {opening opening' : Opening α β} {process : Process α β}
  {files files' : Files α β} {action : OpeningAction}

theorem Opening.replayStep_moves
    (taken : opening.replayStep options files action = some (opening', files')) :
    opening.Moves options files action (.opening opening') files' := by
  cases action with
  | replay =>
    rw [Opening.replayStep] at taken
    split at taken
    · rename_i log logs batch unread stage isLogs isUnread
      cases taken
      exact .replay log logs batch unread stage isLogs isUnread
    · cases taken
  | startFlush =>
    rw [Opening.replayStep] at taken
    split at taken
    · rename_i mem stage isMem
      cases taken
      exact .startFlush mem stage isMem
    · cases taken
  | syncTable =>
    rw [Opening.replayStep] at taken
    split at taken
    · rename_i number mem stage isMem
      cases taken
      exact .syncTable number mem stage isMem
    · cases taken
  | tableBuilt =>
    rw [Opening.replayStep] at taken
    split at taken
    · rename_i number mem stage isMem
      cases taken
      exact .tableBuilt number mem stage isMem
    · cases taken
  | endLog =>
    rw [Opening.replayStep] at taken
    split at taken
    · rename_i log logs stage isLogs isUnread isMem
      cases taken
      exact .endLog log logs stage isLogs isUnread isMem
    · cases taken
  | reuseLog =>
    rw [Opening.replayStep] at taken
    split at taken
    · rename_i log stage isLogs isUnread
      split at taken
      · rename_i may
        cases taken
        obtain ⟨reuses, whole⟩ := Bool.and_eq_true_iff.mp may
        exact .reuseLog log stage isLogs isUnread reuses (of_decide_eq_true whole)
      · cases taken
    · cases taken
  | _ => cases taken

theorem Opening.openStep_moves
    (taken : opening.openStep files action = some (process, files')) :
    opening.Moves options files action process files' := by
  cases action with
  | createLog =>
    rw [Opening.openStep] at taken
    split at taken
    · rename_i stage isLogs
      split at taken
      · cases taken
      · rename_i noLog
        cases taken
        exact .createLog stage isLogs (Bool.eq_false_iff.mpr noLog)
    · cases taken
  | logEdit =>
    rw [Opening.openStep] at taken
    split at taken
    · rename_i stage isLogs
      split at taken
      · rename_i hasLog
        split at taken
        · rename_i saves
          cases taken
          exact .logEdit stage isLogs hasLog saves
        · rename_i saves
          cases taken
          exact .skipEdit stage isLogs hasLog (Bool.eq_false_iff.mpr saves)
      · cases taken
    · cases taken
  | appendEdit =>
    rw [Opening.openStep] at taken
    split at taken
    · rename_i edit stage
      cases taken
      split
      · rename_i reused
        exact .appendReused edit stage reused
      · rename_i reused
        exact .appendCreated edit stage (Bool.eq_false_iff.mpr reused)
    · cases taken
  | syncManifest =>
    rw [Opening.openStep] at taken
    split at taken
    · rename_i edit stage
      cases taken
      exact .syncManifest edit stage
    · cases taken
  | install =>
    rw [Opening.openStep] at taken
    split at taken
    · rename_i edit stage
      cases taken
      exact .install edit stage
    · cases taken
  | _ => cases taken

theorem Opening.step_moves (taken : opening.step options files action = some (process, files')) :
    opening.Moves options files action process files' := by
  rcases Option.or_eq_some_iff.mp taken with replay | ⟨_, opens⟩
  · obtain ⟨_, replays, result⟩ := Option.map_eq_some_iff.mp replay
    cases result
    exact Opening.replayStep_moves replays
  · exact Opening.openStep_moves opens

end Moves

end LevelDb
