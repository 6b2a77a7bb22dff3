/-
This file proves what holds while `DB::Open` recovers a database, at every point of it: the logs
that are replayed are below the counter, no entry that was read is beyond the last sequence that
will be set, and the database that is opened in the end satisfies the invariant of an open one.
-/

import LevelDb.RunningInvariant

namespace LevelDb

variable {α β : Type}

/-! ### The invariant -/

/-- The last sequence that replay will set at the end, as far as it has come. -/
def Opening.reached (opening : Opening α β) : Nat :=
  max opening.memory.db.lastSequence opening.maxSequence

/-- Where the replay is: the logs that are not to be replayed any more are below the counter and
the last sequence, and what is in the memtable was read from the first of the others. -/
structure Opening.Replays [Inhabited β] (opening : Opening α β)
    (logs : Lib.Shelf (LogFile α β)) : Prop where
  sorted : opening.logs.Pairwise (· < ·)
  there : ∀ log ∈ opening.logs, log ∈ logs.numbers ∧ opening.memory.logNumber ≤ log
  done : ∀ number ∈ logs.numbers, number ∉ opening.logs →
    number < opening.memory.db.nextFileNumber ∧
      (∀ record ∈ (logs.file number).records, record.next ≤ opening.reached + 1) ∧
      ∀ log ∈ opening.logs, number < log
  head : ∀ log rest, opening.logs = log :: rest → ∃ read,
    (logs.file log).records = read ++ opening.unread ∧
      (∀ record ∈ read, record.next ≤ opening.reached + 1) ∧
      ∀ entry ∈ opening.mem.getD [], ∃ record ∈ read, entry ∈ record.entries
  ended : opening.logs = [] →
    opening.mem = none ∧ opening.maxSequence ≤ opening.memory.db.lastSequence

/-- Nothing but the recovery is going on. -/
structure Memory.Quiet (memory : Memory α β) : Prop where
  write : memory.write = .idle
  work : memory.work = .idle
  imm : memory.db.imm = none
  prev : memory.prevLogNumber = 0

variable [LinearOrder α]

/-- The manifest that will be installed. -/
structure Opening.Written (opening : Opening α β) (files : Files α β) : Prop where
  there : opening.memory.manifestFileNumber ∈ files.manifests.numbers
  backed : ManifestBacked files.logs opening.memory.manifestFileNumber
    (files.manifests.file opening.memory.manifestFileNumber).edits
  below : EditsBelow (files.manifests.file opening.memory.manifestFileNumber).edits
    opening.memory.db.nextFileNumber opening.memory.db.lastSequence
  log_le : ∀ kept descriptor, Descriptor.read
    ((files.manifests.file opening.memory.manifestFileNumber).edits.take kept) = some descriptor →
      descriptor.logNumber ≤ opening.memory.logFileNumber

variable [Inhabited β]

/-- What holds while a database is being opened. -/
structure Opening.Grounded (opening : Opening α β) (files : Files α β) : Prop where
  recoverable : files.Recoverable
  quiet : opening.memory.Quiet
  listed : opening.memory.Listed
  manifest_lt : opening.memory.manifestFileNumber < opening.memory.db.nextFileNumber
  reused : opening.manifestReused = true → files.current = opening.memory.manifestFileNumber
  created : opening.manifestReused = false → files.current ≠ opening.memory.manifestFileNumber
  saves : opening.saveManifest = false → opening.manifestReused = true
  below : EditsBelow files.manifest.edits opening.memory.db.nextFileNumber
    opening.memory.db.lastSequence
  log_lt : opening.memory.logNumber < opening.memory.db.nextFileNumber
  replays : opening.Replays files.logs
  edit : ∀ added ∈ opening.edit.newFiles,
    added.2.Below opening.memory.db.nextFileNumber opening.reached
  building : ∀ number synced, opening.stage = .building number synced →
    number ∈ opening.memory.pendingOutputs
  closed : opening.logOpened = false → opening.memory.db.mem = []
  opened : opening.logOpened = true → opening.logs = [] ∧
    ∃ switched, opening.memory.Sequenced files.logs switched switched
  logging : ∀ edit stage, opening.stage = .logging edit stage →
    opening.logs = [] ∧ opening.logOpened = true ∧
      edit.Numbered opening.memory.logFileNumber opening.memory.db.nextFileNumber
        opening.memory.db.lastSequence ∧
      (∀ added ∈ edit.newFiles, added.2.Below opening.memory.db.nextFileNumber
        opening.memory.db.lastSequence) ∧
      (stage ≠ .started → opening.Written files)

/-! ### The start -/

section Recover

variable {files : Files α β} {opening : Opening α β} {reuseLogs reuseManifest : Bool}

omit [Inhabited β] in
/-- What `Recover` starts from. -/
theorem Files.recover_eq (recovers : files.recover reuseLogs reuseManifest = some opening) :
    ∃ descriptor, Descriptor.read files.manifest.edits = some descriptor ∧
      opening = Opening.start files descriptor reuseLogs (reuseLogs && reuseManifest) := by
  obtain ⟨descriptor, reads, result⟩ := Option.bind_eq_some_iff.mp recovers
  refine ⟨descriptor, reads, ?_⟩
  split at result
  · exact (Option.some.inj result).symm
  · cases result

omit [Inhabited β] in
theorem Descriptor.read_version {edits : List (VersionEdit α β)} {descriptor : Descriptor α β}
    (reads : Descriptor.read edits = some descriptor) : descriptor.version = versionOf edits := by
  rw [Descriptor.read] at reads
  split at reads
  · cases reads
    rfl
  · cases reads

omit [LinearOrder α] [Inhabited β] in
theorem mem_logsToReplay {descriptor : Descriptor α β} {number : Nat} :
    number ∈ logsToReplay files descriptor ↔ number ∈ files.logs.numbers ∧
      (descriptor.logNumber ≤ number ∨ number = descriptor.prevLogNumber) := by
  rw [logsToReplay, Lib.mem_ascending, Finset.mem_filter]

/-- The replay begins. -/
theorem replays_start {descriptor : Descriptor α β} (order : LogOrder files.logs)
    (backed : descriptor.Backed files.logs files.current files.manifest.edits)
    (manifestReused : Bool) :
    (Opening.start files descriptor reuseLogs manifestReused).Replays files.logs := by
  have isLog : ∀ number, number ∈ logsToReplay files descriptor ↔
      number ∈ files.logs.numbers ∧ descriptor.logNumber ≤ number := by
    intro number
    rw [mem_logsToReplay, backed.prev]
    refine and_congr_right fun there => or_iff_left ?_
    exact (order.pos number there).ne'
  refine ⟨?_, fun log member => (isLog log).mp member, ?_, ?_, fun _ => ⟨rfl, Nat.zero_le _⟩⟩
  · exact Lib.ascending_pairwise _
  · intro number there notLog
    have less : number < descriptor.logNumber :=
      Nat.lt_of_not_le fun le => notLog ((isLog number).mpr ⟨there, le⟩)
    refine ⟨(less.trans backed.log_lt).trans (Nat.lt_succ_self _), fun record member => ?_, ?_⟩
    · exact (backed.stale number there less record member).trans
        (Nat.succ_le_succ (le_max_left _ _))
    · exact fun log member => less.trans_le ((isLog log).mp member).2
  · intro log rest isLogs
    have unread : nextUnread files (logsToReplay files descriptor) =
        (files.logs.file log).records := by
      have isList : logsToReplay files descriptor = log :: rest := isLogs
      rw [isList]
      rfl
    refine ⟨[], unread.symm, fun record member => absurd member List.not_mem_nil, ?_⟩
    exact fun entry member => absurd member List.not_mem_nil

theorem Files.Recoverable.recover (recoverable : files.Recoverable)
    (recovers : files.recover reuseLogs reuseManifest = some opening) : opening.Grounded files := by
  obtain ⟨descriptor, reads, rfl⟩ := Files.recover_eq recovers
  have backed := recoverable.backed.read reads
  have next_le : descriptor.nextFile ≤ descriptor.nextFile + 1 := Nat.le_succ _
  refine
    { recoverable
      quiet := ⟨rfl, rfl, rfl, backed.prev⟩
      listed := ⟨?_, ?_, ?_, ?_⟩
      manifest_lt := ?_
      reused := fun reused => (if_pos reused).symm
      created := fun created same => ?_
      saves := fun saves => Bool.not_eq_eq_eq_not.mp saves
      below := backed.below.mono next_le le_rfl
      log_lt := backed.log_lt.trans_le next_le
      replays := replays_start recoverable.order backed _
      edit := fun added member => absurd member List.not_mem_nil
      building := fun _ _ stage => by cases stage
      closed := fun _ => rfl
      opened := fun impossible => by cases impossible
      logging := fun _ _ stage => by cases stage }
  · intro level file member
    have inVersion : file ∈ (versionOf files.manifest.edits).files level :=
      Descriptor.read_version reads ▸ member
    obtain ⟨new, added, rfl⟩ := mem_versionOf inVersion
    exact (backed.below.added _ added).mono next_le le_rfl
  · intro file level isSeek
    have seek : (versionOf files.manifest.edits).fileToCompact = some (file, level) :=
      Descriptor.read_version reads ▸ isSeek
    cases seek
  · exact fun version member => absurd member List.not_mem_nil
  · exact fun number member => absurd member (Finset.notMem_empty number)
  · show (if (reuseLogs && reuseManifest) = true then files.current else descriptor.nextFile) < _
    split
    · exact backed.current_lt.trans_le next_le
    · exact Nat.lt_succ_self _
  · have isNew : files.current = descriptor.nextFile := same.trans (if_neg (Bool.eq_false_iff.mp created))
    exact absurd isNew backed.current_lt.ne

end Recover

/-! ### Replay -/

section Replay

variable {opening : Opening α β} {files : Files α β}

/-- Only the counters and the tables that are pending have changed. -/
theorem Opening.Grounded.count (grounded : opening.Grounded files) {next : Nat}
    {pending : Finset Nat} {compactions : Nat} {stage : OpenStage α β}
    (nexts : opening.memory.db.nextFileNumber ≤ next)
    (pendings : ∀ number ∈ pending, number ∈ opening.memory.pendingOutputs ∨ number < next)
    (building : ∀ number synced, stage = .building number synced → number ∈ pending)
    (notLogging : ∀ edit logging, stage ≠ .logging edit logging) :
    Opening.Grounded { opening with
      memory := { opening.memory with
        db := { opening.memory.db with nextFileNumber := next }
        pendingOutputs := pending }
      compactions
      saveManifest := true
      stage } files := by
  have replays := grounded.replays
  exact
    { recoverable := grounded.recoverable
      quiet := { grounded.quiet with }
      listed := grounded.listed.mono rfl rfl pendings nexts le_rfl
      manifest_lt := grounded.manifest_lt.trans_le nexts
      reused := grounded.reused
      created := grounded.created
      saves := fun impossible => by cases impossible
      below := grounded.below.mono nexts le_rfl
      log_lt := grounded.log_lt.trans_le nexts
      replays := { replays with
        done := fun number there notLog =>
          ⟨(replays.done number there notLog).1.trans_le nexts,
            (replays.done number there notLog).2⟩ }
      edit := fun added member => (grounded.edit added member).mono nexts le_rfl
      building
      closed := grounded.closed
      opened := fun isOpened => by
        obtain ⟨ended, switched, sequenced⟩ := grounded.opened isOpened
        exact ⟨ended, switched,
          { sequenced with logFile_lt := sequenced.logFile_lt.trans_le nexts }⟩
      logging := fun edit logging isLogging => absurd isLogging (notLogging edit logging) }

theorem Opening.Grounded.of_tables (grounded : opening.Grounded files)
    (tables : Lib.Shelf (TableFile α β)) : opening.Grounded { files with tables } :=
  { grounded with
    recoverable := { grounded.recoverable with }
    logging := fun edit stage isLogging => by
      obtain ⟨ended, isOpened, numbered, new, written⟩ := grounded.logging edit stage isLogging
      exact ⟨ended, isOpened, numbered, new, fun later => { written later with }⟩ }

theorem Opening.Grounded.putTable (grounded : opening.Grounded files) (number : Nat)
    (entries : List (Entry α β)) (synced : Bool) :
    opening.Grounded (files.putTable number entries synced) := by
  obtain ⟨tables, isTables⟩ := exists_putTable files number entries synced
  rw [isTables]
  exact grounded.of_tables tables

theorem Opening.Grounded.replay (grounded : opening.Grounded files) {log : Nat}
    {logs : List Nat} {batch : WriteBatch α β} {unread : List (WriteBatch α β)}
    (replaying : opening.stage = .replaying) (isLogs : opening.logs = log :: logs)
    (isUnread : opening.unread = batch :: unread) :
    Opening.Grounded { opening with
      unread
      mem := some (insertInto (opening.mem.getD []) batch.entries)
      maxSequence := max opening.maxSequence (batch.sequence + batch.count - 1) } files := by
  have replays := grounded.replays
  have le : opening.reached ≤ max opening.memory.db.lastSequence
      (max opening.maxSequence (batch.sequence + batch.count - 1)) :=
    max_le_max le_rfl (le_max_left _ _)
  have next_le : batch.next ≤ max opening.memory.db.lastSequence
      (max opening.maxSequence (batch.sequence + batch.count - 1)) + 1 := by
    rw [WriteBatch.next]
    omega
  refine
    { grounded with
      replays :=
        { replays with
          done := fun number there notLog => ?_
          head := fun log' rest isLogs' => ?_
          ended := fun impossible => (by cases isLogs.symm.trans impossible) }
      edit := fun added member => (grounded.edit added member).mono le_rfl le
      logging := fun edit stage isLogging => by cases replaying.symm.trans isLogging }
  · obtain ⟨number_lt, records_le, logs_lt⟩ := replays.done number there notLog
    exact ⟨number_lt, fun record member =>
      (records_le record member).trans (Nat.succ_le_succ le), logs_lt⟩
  · obtain ⟨read, isRecords, read_le, inMem⟩ := replays.head log' rest isLogs'
    refine ⟨read ++ [batch], ?_, ?_, ?_⟩
    · rw [isRecords, isUnread, List.append_assoc]
      rfl
    · intro record member
      rcases List.mem_append.mp member with old | new
      · exact (read_le record old).trans (Nat.succ_le_succ le)
      · rw [List.mem_singleton.mp new]
        exact next_le
    · intro entry member
      rcases mem_insertInto.mp member with old | new
      · obtain ⟨record, inRead, inRecord⟩ := inMem entry old
        exact ⟨record, List.mem_append_left _ inRead, inRecord⟩
      · exact ⟨batch, List.mem_append_right _ (List.mem_singleton_self _), new⟩

/-- The replayed memtable has no entry beyond what was reached. -/
theorem Opening.Grounded.mem_le (grounded : opening.Grounded files) {mem : List (Entry α β)}
    (isMem : opening.mem = some mem) {entry : Entry α β} (member : entry ∈ mem) :
    entry.sequence ≤ opening.reached := by
  have replays := grounded.replays
  cases isLogs : opening.logs with
  | nil => cases (replays.ended isLogs).1.symm.trans isMem
  | cons log rest =>
    obtain ⟨read, isRecords, read_le, inMem⟩ := replays.head log rest isLogs
    rw [isMem] at inMem
    obtain ⟨record, inRead, inRecord⟩ := inMem entry member
    have there := (replays.there log (isLogs ▸ List.mem_cons_self)).1
    have inRecords : record ∈ (files.logs.file log).records := by
      rw [isRecords]
      exact List.mem_append_left _ inRead
    have wellFormed := (grounded.recoverable.order.wellFormed log there record inRecords).1
    exact Nat.le_of_lt_succ ((wellFormed.entry_bounds inRecord).2.trans_le (read_le record inRead))

omit [Inhabited β] in
/-- The edit of a flush during replay. -/
theorem writeLevel0Table_added (options : Options α β) (base : Option (Version α β)) (number : Nat)
    (mem : List (Entry α β)) (edit : VersionEdit α β) :
    (writeLevel0Table options base number mem edit = edit ∧ mem = []) ∨
      ∃ file, file.number = number ∧ file.entries = mem ∧
        writeLevel0Table options base number mem edit =
          edit.addFile (outputLevel options base file) file := by
  cases mem with
  | nil => exact Or.inl ⟨rfl, rfl⟩
  | cons first rest => exact Or.inr ⟨_, rfl, rfl, rfl⟩

theorem Opening.Grounded.tableBuilt (grounded : opening.Grounded files) {options : Options α β}
    {number : Nat} {mem : List (Entry α β)} (stage : opening.stage = .building number true)
    (isMem : opening.mem = some mem) :
    Opening.Grounded { opening with
      memory := { opening.memory with
        pendingOutputs := opening.memory.pendingOutputs.erase number }
      mem := none
      edit := writeLevel0Table options none number mem opening.edit
      stage := .replaying } files := by
  have replays := grounded.replays
  have listed := grounded.listed
  have number_lt := listed.pending number (grounded.building number true stage)
  exact
    { recoverable := grounded.recoverable
      quiet := { grounded.quiet with }
      listed := listed.mono rfl rfl (fun _ member => Or.inl (Finset.mem_of_mem_erase member))
        le_rfl le_rfl
      manifest_lt := grounded.manifest_lt
      reused := grounded.reused
      created := grounded.created
      saves := grounded.saves
      below := grounded.below
      log_lt := grounded.log_lt
      replays :=
        { replays with
          head := fun log rest isLogs => by
            obtain ⟨read, isRecords, read_le, _⟩ := replays.head log rest isLogs
            exact ⟨read, isRecords, read_le, fun entry member => absurd member List.not_mem_nil⟩
          ended := fun isLogs => ⟨rfl, (replays.ended isLogs).2⟩ }
      edit := fun added member => by
        rcases writeLevel0Table_added options none number mem opening.edit with
          ⟨same, _⟩ | ⟨file, isNumber, isEntries, isEdit⟩
        · exact grounded.edit added (same ▸ member)
        · have newFiles : (writeLevel0Table options none number mem opening.edit).newFiles =
              opening.edit.newFiles ++ [(0, file)] := by
            rw [isEdit]
            rfl
          rcases List.mem_append.mp (newFiles ▸ member) with old | new
          · exact grounded.edit added old
          · rw [List.mem_singleton.mp new]
            refine ⟨isNumber ▸ number_lt, fun entry inFile => ?_⟩
            exact grounded.mem_le isMem (isEntries ▸ inFile)
      building := fun _ _ impossible => (by cases impossible)
      closed := grounded.closed
      opened := fun isOpened => by
        obtain ⟨ended, switched, sequenced⟩ := grounded.opened isOpened
        exact ⟨ended, switched, { sequenced with }⟩
      logging := fun _ _ impossible => by cases impossible }

omit [LinearOrder α] [Inhabited β] in
theorem Memory.markFileNumberUsed_eq (memory : Memory α β) (number : Nat) :
    memory.markFileNumberUsed number =
      memory.setNextFileNumber (max memory.db.nextFileNumber (number + 1)) := by
  rw [Memory.markFileNumberUsed]
  split
  · rename_i le
    rw [max_eq_right (le.trans (Nat.le_succ _))]
  · rename_i notLe
    rw [max_eq_left (Nat.lt_of_not_le notLe)]
    rfl

/-- The last sequence after a log was replayed. -/
def Opening.lastSequence (opening : Opening α β) (rest : List Nat) : Nat :=
  if rest.isEmpty then opening.reached else opening.memory.db.lastSequence

omit [LinearOrder α] [Inhabited β] in
theorem Opening.finishLog_eq (opening : Opening α β) (files : Files α β) (log : Nat)
    (rest : List Nat) :
    opening.finishLog files log rest =
      { opening with
        memory := { opening.memory with
          db := { opening.memory.db with
            nextFileNumber := max opening.memory.db.nextFileNumber (log + 1)
            lastSequence := opening.lastSequence rest } }
        logs := rest
        unread := nextUnread files rest
        mem := none
        compactions := 0 } := by
  rw [Opening.finishLog, Opening.lastSequence, Memory.markFileNumberUsed_eq]
  cases rest with
  | nil => rfl
  | cons next others => rfl

omit [LinearOrder α] [Inhabited β] in
theorem Opening.lastSequence_bounds (opening : Opening α β) (rest : List Nat) :
    opening.memory.db.lastSequence ≤ opening.lastSequence rest ∧
      max (opening.lastSequence rest) opening.maxSequence = opening.reached := by
  rw [Opening.lastSequence, Opening.reached]
  split
  · exact ⟨le_max_left _ _, max_eq_left (le_max_right _ _)⟩
  · exact ⟨le_rfl, rfl⟩

omit [LinearOrder α] in
/-- The first log is replayed to its end. -/
theorem Opening.Replays.finishLog (replays : opening.Replays files.logs) {log : Nat}
    {rest : List Nat} (isLogs : opening.logs = log :: rest) (isUnread : opening.unread = []) :
    (opening.finishLog files log rest).Replays files.logs := by
  have sorted := replays.sorted
  have there := replays.there
  have done := replays.done
  rw [isLogs] at sorted there done
  obtain ⟨last_le, reached⟩ := opening.lastSequence_bounds rest
  have read : ∀ record ∈ (files.logs.file log).records, record.next ≤ opening.reached + 1 := by
    obtain ⟨read, isRecords, read_le, _⟩ := replays.head log rest isLogs
    rw [isRecords, isUnread, List.append_nil]
    exact read_le
  rw [Opening.finishLog_eq]
  refine ⟨sorted.of_cons, fun number member => there number (List.mem_cons_of_mem _ member), ?_, ?_,
    ?_⟩
  · intro number inLogs notRest
    rw [Opening.reached, reached]
    by_cases same : number = log
    · rw [same]
      exact ⟨lt_max_of_lt_right (Nat.lt_succ_self _), read,
        fun other member => List.rel_of_pairwise_cons sorted member⟩
    · have notLog : number ∉ log :: rest := List.not_mem_cons_of_ne_of_not_mem same notRest
      obtain ⟨number_lt, records_le, logs_lt⟩ := done number inLogs notLog
      exact ⟨lt_max_of_lt_left number_lt, records_le,
        fun other member => logs_lt other (List.mem_cons_of_mem _ member)⟩
  · intro next others isRest
    have unread : nextUnread files rest = (files.logs.file next).records := by
      have isList : rest = next :: others := isRest
      rw [isList]
      rfl
    refine ⟨[], unread.symm, fun record member => absurd member List.not_mem_nil, ?_⟩
    exact fun entry member => absurd member List.not_mem_nil
  · intro ended
    have isNil : rest = [] := ended
    subst isNil
    exact ⟨rfl, le_max_right _ _⟩

/-- `Recover` goes on after a log. -/
theorem Opening.Grounded.finishLog (grounded : opening.Grounded files) {log : Nat}
    {rest : List Nat} (replaying : opening.stage = .replaying) (isLogs : opening.logs = log :: rest)
    (isUnread : opening.unread = []) : (opening.finishLog files log rest).Grounded files := by
  have replays := grounded.replays.finishLog isLogs isUnread
  obtain ⟨last_le, reached⟩ := opening.lastSequence_bounds rest
  rw [Opening.finishLog_eq] at replays ⊢
  have next_le : opening.memory.db.nextFileNumber ≤ max opening.memory.db.nextFileNumber (log + 1) :=
    le_max_left _ _
  refine
    { recoverable := grounded.recoverable
      quiet := { grounded.quiet with }
      listed := grounded.listed.mono rfl rfl (fun _ => Or.inl) next_le last_le
      manifest_lt := grounded.manifest_lt.trans_le next_le
      reused := grounded.reused
      created := grounded.created
      saves := grounded.saves
      below := grounded.below.mono next_le last_le
      log_lt := grounded.log_lt.trans_le next_le
      replays
      edit := fun added member => ?_
      building := fun _ _ impossible => by cases replaying.symm.trans impossible
      closed := grounded.closed
      opened := fun isOpened => by cases isLogs.symm.trans (grounded.opened isOpened).1
      logging := fun _ _ impossible => by cases replaying.symm.trans impossible }
  rw [Opening.reached, reached]
  exact (grounded.edit added member).mono next_le le_rfl

/-- All logs are replayed. -/
theorem Opening.Grounded.all_done (grounded : opening.Grounded files) (isLogs : opening.logs = []) :
    (∀ number ∈ files.logs.numbers, number < opening.memory.db.nextFileNumber) ∧
      ∀ limit, UpTo files.logs limit opening.memory.db.lastSequence := by
  have done := grounded.replays.done
  rw [isLogs, Opening.reached, max_eq_left (grounded.replays.ended isLogs).2] at done
  exact ⟨fun number there => (done number there List.not_mem_nil).1,
    fun limit number there _ => (done number there List.not_mem_nil).2.1⟩

/-- The state after the last log is kept with its memtable. -/
def Opening.reusing (opening : Opening α β) (files : Files α β) (log : Nat) : Opening α β :=
  { opening.finishLog files log [] with
    memory := { (opening.finishLog files log []).memory with
      db := { (opening.finishLog files log []).memory.db with mem := opening.mem.getD [] }
      logFileNumber := log }
    logOpened := true }

/-- The mark between the log that is kept and the others; it is a greatest one. -/
theorem Opening.Grounded.reuseLog_sequenced (grounded : opening.Grounded files) {log : Nat}
    (replaying : opening.stage = .replaying) (isLogs : opening.logs = [log])
    (isUnread : opening.unread = []) :
    ∃ switched, (opening.reusing files log).memory.Sequenced files.logs switched switched ∧
      (∀ record ∈ (files.logs.file log).records, switched < record.sequence) ∧
      ∀ sequence ≤ opening.reached,
        (∀ record ∈ (files.logs.file log).records, sequence < record.sequence) →
          sequence ≤ switched := by
  have ended := grounded.finishLog replaying isLogs isUnread
  have noLogs : (opening.finishLog files log []).logs = [] := by
    rw [Opening.finishLog_eq]
  have logNumber : (opening.finishLog files log []).memory.logNumber = opening.memory.logNumber := by
    rw [Opening.finishLog_eq]
  have isLast : (opening.finishLog files log []).memory.db.lastSequence = opening.reached := by
    rw [Opening.finishLog_eq]
    rfl
  obtain ⟨below, upTo⟩ := ended.all_done noLogs
  obtain ⟨there, log_le⟩ := grounded.replays.there log (isLogs ▸ List.mem_singleton_self log)
  have newest : ∀ number ∈ files.logs.numbers, number ≤ log := by
    intro number inLogs
    by_cases same : number = log
    · exact same.le
    · have done := grounded.replays.done number inLogs
      rw [isLogs] at done
      exact ((done fun isLog => same (List.mem_singleton.mp isLog)).2.2 log
        (List.mem_singleton_self log)).le
  obtain ⟨switched, switched_le, older, younger, greatest⟩ :=
    grounded.recoverable.order.exists_between there (upTo (log + 1))
  have mem : ∀ entry ∈ opening.mem.getD [], switched < entry.sequence ∧
      entry.sequence ≤ (opening.finishLog files log []).memory.db.lastSequence := by
    intro entry member
    obtain ⟨read, isRecords, _, inMem⟩ := grounded.replays.head log [] isLogs
    obtain ⟨record, inRead, inRecord⟩ := inMem entry member
    have inRecords : record ∈ (files.logs.file log).records := by
      rw [isRecords]
      exact List.mem_append_left _ inRead
    have wellFormed := (grounded.recoverable.order.wellFormed log there record inRecords).1
    have bounds := wellFormed.entry_bounds inRecord
    have record_le := upTo (log + 1) log there (Nat.lt_succ_self _) record inRecords
    exact ⟨(younger record inRecords).trans_le bounds.1,
      Nat.le_of_lt_succ (bounds.2.trans_le record_le)⟩
  refine ⟨switched, ?_, younger, isLast ▸ greatest⟩
  exact
    { flushed_le := le_rfl
      switched_le
      opened := there
      newest
      logFile_lt := below log there
      log_le := logNumber.le.trans log_le
      prev := ended.quiet.prev
      batch := fun batch isBatch => by
        have impossible : (opening.finishLog files log []).memory.write.batch = some batch := isBatch
        rw [ended.quiet.write] at impossible
        cases impossible
      logged := (upTo _).mono le_rfl (Nat.le_add_right _ _)
      older
      stale := older.mono (logNumber.le.trans log_le) le_rfl
      mem := fun entry member =>
        ⟨(mem entry member).1, (mem entry member).2.trans (Nat.le_add_right _ _)⟩
      imm := fun imm isImm => by cases ended.quiet.imm.symm.trans isImm }

/-- The last log is kept, with its memtable. -/
theorem Opening.Grounded.reuseLog (grounded : opening.Grounded files) {log : Nat}
    (replaying : opening.stage = .replaying) (isLogs : opening.logs = [log])
    (isUnread : opening.unread = []) : (opening.reusing files log).Grounded files := by
  have ended := grounded.finishLog replaying isLogs isUnread
  have isStage : (opening.finishLog files log []).stage = .replaying := by
    rw [Opening.finishLog_eq]
    exact replaying
  have noLogs : (opening.finishLog files log []).logs = [] := by
    rw [Opening.finishLog_eq]
  obtain ⟨switched, sequenced, _⟩ := grounded.reuseLog_sequenced replaying isLogs isUnread
  exact
    { recoverable := ended.recoverable
      quiet := { ended.quiet with }
      listed := { ended.listed with }
      manifest_lt := ended.manifest_lt
      reused := ended.reused
      created := ended.created
      saves := ended.saves
      below := ended.below
      log_lt := ended.log_lt
      replays := { ended.replays with }
      edit := ended.edit
      building := ended.building
      closed := fun impossible => (by cases impossible)
      opened := fun _ => ⟨noLogs, switched, sequenced⟩
      logging := fun _ _ impossible => by cases isStage.symm.trans impossible }

/-- The state after `Open` has created a log. -/
def Opening.creating (opening : Opening α β) : Opening α β :=
  { opening with
    memory := { opening.memory.newFileNumber with
      logFileNumber := opening.memory.db.nextFileNumber }
    edit := opening.edit.setLogNumber opening.memory.db.nextFileNumber
    logOpened := true }

theorem Opening.Grounded.createLog_sequenced (grounded : opening.Grounded files)
    (isLogs : opening.logs = []) (noLog : opening.logOpened = false) :
    opening.creating.memory.Sequenced (files.createLog opening.memory.db.nextFileNumber).logs
      opening.memory.db.lastSequence opening.memory.db.lastSequence := by
  obtain ⟨below, upTo⟩ := grounded.all_done isLogs
  have quiet := grounded.quiet
  have created : ∀ limit, UpTo (files.createLog opening.memory.db.nextFileNumber).logs limit
      opening.memory.db.lastSequence := fun limit => (upTo limit).create
  exact
    { flushed_le := le_rfl
      switched_le := le_rfl
      opened := Lib.Shelf.mem_put.mpr (Or.inl rfl)
      newest := fun number member => by
        rcases Lib.Shelf.mem_put.mp member with same | old
        · exact same.le
        · exact (below number old).le
      logFile_lt := Nat.lt_succ_self _
      log_le := grounded.log_lt.le
      prev := quiet.prev
      batch := fun batch isBatch => by
        have impossible : opening.memory.write.batch = some batch := isBatch
        rw [quiet.write] at impossible
        cases impossible
      logged := (created _).mono le_rfl (Nat.le_add_right _ _)
      older := created _
      stale := created _
      mem := fun entry member => by
        have impossible : entry ∈ opening.memory.db.mem := member
        rw [grounded.closed noLog] at impossible
        cases impossible
      imm := fun imm isImm => by cases quiet.imm.symm.trans isImm }

/-- `Open` creates a log. -/
theorem Opening.Grounded.createLog (grounded : opening.Grounded files)
    (replaying : opening.stage = .replaying) (isLogs : opening.logs = [])
    (noLog : opening.logOpened = false) :
    opening.creating.Grounded (files.createLog opening.memory.db.nextFileNumber) := by
  obtain ⟨below, upTo⟩ := grounded.all_done isLogs
  have replays := grounded.replays
  have next_le : opening.memory.db.nextFileNumber ≤ opening.memory.db.nextFileNumber + 1 :=
    Nat.le_succ _
  have recoverable : (files.createLog opening.memory.db.nextFileNumber).Recoverable := by
    refine ⟨?_, grounded.recoverable.current, ?_⟩
    · exact grounded.recoverable.order.create below ((Nat.zero_le _).trans_lt grounded.log_lt)
    · refine grounded.recoverable.backed.of_logs (fun _ _ _ stale => stale.create) ?_
      rintro _ _ _ ⟨number, there, le⟩
      exact ⟨number, Lib.Shelf.mem_put.mpr (Or.inr there), le⟩
  refine
    { recoverable
      quiet := { grounded.quiet with }
      listed := grounded.listed.mono rfl rfl (fun _ => Or.inl) next_le le_rfl
      manifest_lt := grounded.manifest_lt.trans_le next_le
      reused := grounded.reused
      created := grounded.created
      saves := grounded.saves
      below := grounded.below.mono next_le le_rfl
      log_lt := grounded.log_lt.trans_le next_le
      replays := ⟨replays.sorted, ?_, ?_, ?_, replays.ended⟩
      edit := fun added member => (grounded.edit added member).mono next_le le_rfl
      building := fun _ _ impossible => (by cases replaying.symm.trans impossible)
      closed := fun impossible => (by cases impossible)
      opened := fun _ => ⟨isLogs, _, grounded.createLog_sequenced isLogs noLog⟩
      logging := fun _ _ impossible => by cases replaying.symm.trans impossible }
  · intro log member
    have impossible : log ∈ opening.logs := member
    rw [isLogs] at impossible
    cases impossible
  · intro number there _
    refine ⟨?_, fun record member => ?_, fun log member => ?_⟩
    · rcases Lib.Shelf.mem_put.mp there with same | old
      · exact same.trans_lt (Nat.lt_succ_self _)
      · exact (below number old).trans_le next_le
    · have created : UpTo (files.createLog opening.memory.db.nextFileNumber).logs (number + 1)
          opening.memory.db.lastSequence := (upTo _).create
      exact (created number there (Nat.lt_succ_self _) record member).trans
        (Nat.succ_le_succ (le_max_left _ _))
    · have impossible : log ∈ opening.logs := member
      rw [isLogs] at impossible
      cases impossible
  · intro log rest impossible
    cases isLogs.symm.trans impossible

end Replay

/-! ### The manifest -/

section Manifest

variable {opening : Opening α β} {files : Files α β} {edit : VersionEdit α β}
  {stage : ManifestStage}

/-- No log number in the manifest is beyond the current log. -/
theorem Opening.Grounded.log_le (grounded : opening.Grounded files)
    (isOpened : opening.logOpened = true) (kept : Nat) (descriptor : Descriptor α β)
    (reads : Descriptor.read (files.manifest.edits.take kept) = some descriptor) :
    descriptor.logNumber ≤ opening.memory.logFileNumber := by
  obtain ⟨_, switched, sequenced⟩ := grounded.opened isOpened
  rcases (grounded.recoverable.backed kept descriptor reads).reached with zero | reached
  · exact zero.le.trans (Nat.zero_le _)
  · obtain ⟨number, there, le⟩ := reached
    exact le.trans (sequenced.newest number there)

theorem Opening.Grounded.new_le (grounded : opening.Grounded files) (isLogs : opening.logs = [])
    {added : Nat × FileMetaData α β} (member : added ∈ opening.edit.newFiles) :
    added.2.Below opening.memory.db.nextFileNumber opening.memory.db.lastSequence := by
  have below := grounded.edit added member
  rwa [Opening.reached, max_eq_left (grounded.replays.ended isLogs).2] at below

theorem Opening.Grounded.logEdit (grounded : opening.Grounded files)
    (isLogs : opening.logs = []) (hasLog : opening.logOpened = true) :
    Opening.Grounded { opening with
      stage := .logging (opening.memory.completeEdit ((opening.edit.setPrevLogNumber
        0).setLogNumber opening.memory.logFileNumber)) .started } files := by
  refine
    { grounded with
      replays := { grounded.replays with }
      building := fun _ _ impossible => (by cases impossible)
      logging := fun other stage isLogging => ?_ }
  cases isLogging
  exact ⟨isLogs, hasLog, ⟨rfl, rfl, rfl, rfl⟩, fun added member => grounded.new_le isLogs member,
    fun later => absurd rfl later⟩

/-- The next part of writing the manifest is done. -/
theorem Opening.Grounded.advance (grounded : opening.Grounded files) {stage' : ManifestStage}
    (isLogging : opening.stage = .logging edit stage) (written : opening.Written files) :
    Opening.Grounded { opening with stage := .logging edit stage' } files := by
  refine
    { grounded with
      replays := { grounded.replays with }
      building := fun _ _ impossible => (by cases impossible)
      logging := fun other otherStage same => ?_ }
  cases same
  obtain ⟨ended, isOpened, numbered, new, _⟩ := grounded.logging edit stage isLogging
  exact ⟨ended, isOpened, numbered, new, fun _ => { written with }⟩

/-- What is appended to a backed manifest. -/
theorem Opening.Grounded.append_written (grounded : opening.Grounded files)
    (isLogging : opening.stage = .logging edit stage) {edits : List (VersionEdit α β)}
    (backed : ManifestBacked files.logs opening.memory.manifestFileNumber edits)
    (below : EditsBelow edits opening.memory.db.nextFileNumber opening.memory.db.lastSequence)
    (log_le : ∀ kept descriptor, Descriptor.read (edits.take kept) = some descriptor →
      descriptor.logNumber ≤ opening.memory.logFileNumber) :
    ManifestBacked files.logs opening.memory.manifestFileNumber (edits ++ [edit]) ∧
      EditsBelow (edits ++ [edit]) opening.memory.db.nextFileNumber
        opening.memory.db.lastSequence ∧
      ∀ kept descriptor, Descriptor.read ((edits ++ [edit]).take kept) = some descriptor →
        descriptor.logNumber ≤ opening.memory.logFileNumber := by
  obtain ⟨_, isOpened, numbered, new, _⟩ := grounded.logging edit stage isLogging
  obtain ⟨_, switched, sequenced⟩ := grounded.opened isOpened
  refine ⟨?_, below.append numbered new, fun kept descriptor reads => ?_⟩
  · exact backed.append numbered sequenced.logFile_lt grounded.manifest_lt below new
      (sequenced.older.mono le_rfl sequenced.switched_le) ⟨_, sequenced.opened, le_rfl⟩
  · rcases read_take_append numbered reads with ⟨_, old⟩ | ⟨_, isLog, _⟩
    · exact log_le kept descriptor old
    · exact isLog.le

omit [Inhabited β] in
/-- A manifest that is reused is the current one. -/
theorem Opening.written_of_current (same : files.current = opening.memory.manifestFileNumber)
    (recoverable : files.Recoverable)
    (below : EditsBelow files.manifest.edits opening.memory.db.nextFileNumber
      opening.memory.db.lastSequence)
    (log_le : ∀ kept descriptor, Descriptor.read (files.manifest.edits.take kept) =
      some descriptor → descriptor.logNumber ≤ opening.memory.logFileNumber) :
    opening.Written files := by
  have isManifest : files.manifests.file opening.memory.manifestFileNumber = files.manifest := by
    rw [Files.manifest, same]
  refine ⟨same ▸ recoverable.current, ?_, ?_, ?_⟩
  · rw [isManifest, ← same]
    exact recoverable.backed
  · rw [isManifest]
    exact below
  · rw [isManifest]
    exact log_le

theorem Opening.Grounded.appendReused (grounded : opening.Grounded files)
    (isLogging : opening.stage = .logging edit stage) (isReused : opening.manifestReused = true) :
    Opening.Grounded { opening with stage := .logging edit .written }
      (files.appendEdit opening.memory.manifestFileNumber ⟨edit, []⟩) := by
  obtain ⟨_, isOpened, _, _, _⟩ := grounded.logging edit stage isLogging
  have same := grounded.reused isReused
  have appendedEdits : (files.appendEdit opening.memory.manifestFileNumber
      ⟨edit, []⟩).manifest.edits = files.manifest.edits ++ [edit] := by
    rw [← same, appendEdit_edits]
  obtain ⟨backed, below, log_le⟩ := grounded.append_written isLogging
    (same ▸ grounded.recoverable.backed) grounded.below (grounded.log_le isOpened)
  rw [← appendedEdits] at backed below log_le
  have current : files.current ∈ (files.appendEdit opening.memory.manifestFileNumber
      ⟨edit, []⟩).manifests.numbers :=
    Lib.Shelf.mem_put.mpr (Or.inr grounded.recoverable.current)
  have recoverable : (files.appendEdit opening.memory.manifestFileNumber ⟨edit, []⟩).Recoverable :=
    ⟨grounded.recoverable.order, current, same ▸ backed⟩
  have written : opening.Written
      (files.appendEdit opening.memory.manifestFileNumber ⟨edit, []⟩) :=
    Opening.written_of_current same recoverable below log_le
  have appended : opening.Grounded
      (files.appendEdit opening.memory.manifestFileNumber ⟨edit, []⟩) :=
    { grounded with
      recoverable
      below
      logging := fun other otherStage isOther => by
        obtain ⟨ended, hasLog, numbered, new, _⟩ := grounded.logging other otherStage isOther
        exact ⟨ended, hasLog, numbered, new, fun _ => written⟩ }
  exact appended.advance isLogging written

omit [Inhabited β] in
theorem snapshot_unnumbered (memory : Memory α β) :
    Descriptor.read [memory.snapshot] = none := rfl

/-- The manifest that `Open` creates is the snapshot of the version and the edit. -/
theorem Opening.Grounded.appendCreated (grounded : opening.Grounded files)
    (isLogging : opening.stage = .logging edit stage)
    (isCreated : opening.manifestReused = false) :
    Opening.Grounded { opening with stage := .logging edit .written }
      { files with manifests := files.manifests.put opening.memory.manifestFileNumber
        <| opening.createdManifest files edit } := by
  have different := grounded.created isCreated
  have sameManifest : Files.manifest
      { files with manifests := files.manifests.put opening.memory.manifestFileNumber
        <| opening.createdManifest files edit } = files.manifest :=
    Lib.Shelf.put_file_of_ne _ different _
  have nothing : ∀ kept descriptor,
      Descriptor.read ([opening.memory.snapshot].take kept) ≠ some descriptor := by
    intro kept descriptor reads
    rcases kept with _ | kept
    · cases reads
    · rw [List.take_succ_cons, List.take_nil, snapshot_unnumbered] at reads
      cases reads
  have snapshotBelow : EditsBelow [opening.memory.snapshot] opening.memory.db.nextFileNumber
      opening.memory.db.lastSequence := by
    refine ⟨fun added member => ?_, fun kept descriptor reads =>
      absurd reads (nothing kept descriptor)⟩
    rw [addedFiles, List.flatMap_singleton, Memory.snapshot] at member
    obtain ⟨level, _, inLevel⟩ := List.mem_flatMap.mp member
    obtain ⟨file, inFiles, rfl⟩ := List.mem_map.mp inLevel
    exact grounded.listed.version level file inFiles
  obtain ⟨backed, below, log_le⟩ := grounded.append_written isLogging
    (fun kept descriptor reads => absurd reads (nothing kept descriptor)) snapshotBelow
    fun kept descriptor reads => absurd reads (nothing kept descriptor)
  have written : opening.Written
      { files with manifests := files.manifests.put opening.memory.manifestFileNumber
        <| opening.createdManifest files edit } := by
    have isFile : ((files.manifests.put opening.memory.manifestFileNumber
        (opening.createdManifest files edit)).file opening.memory.manifestFileNumber).edits =
          [opening.memory.snapshot] ++ [edit] := by
      rw [Lib.Shelf.put_file_self]
      rfl
    refine ⟨Lib.Shelf.mem_put.mpr (Or.inl rfl), ?_, ?_, ?_⟩
    · rw [isFile]
      exact backed
    · rw [isFile]
      exact below
    · rw [isFile]
      exact log_le
  have recoverable : Files.Recoverable
      { files with manifests := files.manifests.put opening.memory.manifestFileNumber
        <| opening.createdManifest files edit } := by
    refine ⟨grounded.recoverable.order,
      Lib.Shelf.mem_put.mpr (Or.inr grounded.recoverable.current), ?_⟩
    rw [sameManifest]
    exact grounded.recoverable.backed
  have appended : opening.Grounded
      { files with manifests := files.manifests.put opening.memory.manifestFileNumber
        <| opening.createdManifest files edit } :=
    { grounded with
      recoverable
      below := by
        rw [sameManifest]
        exact grounded.below
      logging := fun other otherStage isOther => by
        obtain ⟨ended, hasLog, numbered, new, _⟩ := grounded.logging other otherStage isOther
        exact ⟨ended, hasLog, numbered, new, fun _ => written⟩ }
  exact appended.advance isLogging written

/-- The manifest is synced. -/
theorem Opening.Grounded.syncManifest (grounded : opening.Grounded files)
    (isLogging : opening.stage = .logging edit .written) :
    Opening.Grounded { opening with stage := .logging edit .synced }
      (files.syncManifest opening.memory.manifestFileNumber) := by
  obtain ⟨_, _, _, _, isWritten⟩ := grounded.logging edit .written isLogging
  have written := isWritten fun impossible => by cases impossible
  have sameEdits : ∀ number, ((files.syncManifest opening.memory.manifestFileNumber).manifests.file
      number).edits = (files.manifests.file number).edits := by
    intro number
    by_cases same : number = opening.memory.manifestFileNumber
    · rw [same, Files.syncManifest]
      simp only [Lib.Shelf.put_file_self]
      rfl
    · exact congrArg ManifestFile.edits (Lib.Shelf.put_file_of_ne _ same _)
  have sameManifest : (files.syncManifest opening.memory.manifestFileNumber).manifest.edits =
      files.manifest.edits := sameEdits files.current
  have newWritten : opening.Written (files.syncManifest opening.memory.manifestFileNumber) := by
    refine ⟨Lib.Shelf.mem_put.mpr (Or.inl rfl), ?_, ?_, ?_⟩
    · rw [sameEdits]
      exact written.backed
    · rw [sameEdits]
      exact written.below
    · rw [sameEdits]
      exact written.log_le
  have recoverable : (files.syncManifest opening.memory.manifestFileNumber).Recoverable := by
    refine ⟨grounded.recoverable.order,
      Lib.Shelf.mem_put.mpr (Or.inr grounded.recoverable.current), ?_⟩
    rw [sameManifest]
    exact grounded.recoverable.backed
  have synced : opening.Grounded (files.syncManifest opening.memory.manifestFileNumber) :=
    { grounded with
      recoverable
      below := by
        rw [sameManifest]
        exact grounded.below
      logging := fun other otherStage isOther => by
        obtain ⟨ended, hasLog, numbered, new, _⟩ := grounded.logging other otherStage isOther
        exact ⟨ended, hasLog, numbered, new, fun _ => newWritten⟩ }
  exact synced.advance isLogging newWritten

/-! ### The end -/

/-- `Open` ends without a new edit. -/
theorem Opening.Grounded.skipEdit (grounded : opening.Grounded files) {switched : Nat}
    (hasLog : opening.logOpened = true) (saves : opening.saveManifest = false)
    (sequenced : opening.memory.Sequenced files.logs switched switched) :
    Memory.Grounded { opening.memory with work := .collecting none } files switched switched := by
  refine ⟨grounded.recoverable, { sequenced with }, { grounded.listed with }, ?_, ?_⟩
  · exact ⟨grounded.reused (grounded.saves saves), grounded.manifest_lt, grounded.below,
      grounded.log_le hasLog⟩
  · exact Memory.Works.of_job (fun _ isJob => by cases isJob)
      (fun _ _ _ impossible => by cases impossible) fun _ _ _ impossible => by cases impossible

/-- `Open` ends with the new manifest. -/
theorem Opening.Grounded.install (grounded : opening.Grounded files) {switched : Nat}
    (isLogging : opening.stage = .logging edit .synced)
    (sequenced : opening.memory.Sequenced files.logs switched switched) :
    Memory.Grounded { opening.memory.install edit with work := .collecting none }
      { files with current := opening.memory.manifestFileNumber } switched switched := by
  obtain ⟨_, isOpened, numbered, new, isWritten⟩ := grounded.logging edit .synced isLogging
  have written := isWritten fun impossible => by cases impossible
  have isLog : edit.logNumber.getD opening.memory.logNumber = opening.memory.logFileNumber := by
    rw [numbered.logNumber]
    rfl
  have isPrev : edit.prevLogNumber.getD opening.memory.prevLogNumber = 0 := by
    rw [numbered.prevLogNumber]
    rfl
  refine ⟨⟨grounded.recoverable.order, written.there, written.backed⟩, ?_, ?_, ?_, ?_⟩
  · exact
      { sequenced with
        log_le := isLog.le
        prev := isPrev
        stale := sequenced.older.mono isLog.le le_rfl }
  · refine ⟨fun level file member => ?_, applyEdit_seek _ _, grounded.listed.pinned,
      grounded.listed.pending⟩
    rcases mem_applyEdit member with old | ⟨added, isNew, rfl⟩
    · exact grounded.listed.version level file old
    · exact new _ isNew
  · exact ⟨rfl, grounded.manifest_lt, written.below, written.log_le⟩
  · exact Memory.Works.of_job (fun _ isJob => by cases isJob)
      (fun _ _ _ impossible => by cases impossible) fun _ _ _ impossible => by cases impossible

end Manifest

/-! ### Every run -/

/-- What holds of the files and of the process that works on them. -/
def Process.Grounded (files : Files α β) : Process α β → Prop
  | .down => files.Recoverable
  | .opening state => state.Grounded files
  | .running memory => ∃ flushed switched, memory.Grounded files flushed switched

/-- A step of opening keeps the invariant. -/
theorem Opening.Grounded.moves {options : Options α β} {opening : Opening α β}
    {process : Process α β} {files files' : Files α β} {action : OpeningAction}
    (grounded : opening.Grounded files)
    (moves : opening.Moves options files action process files') : process.Grounded files' := by
  cases moves with
  | replay log logs batch unread stage isLogs isUnread =>
    exact grounded.replay stage isLogs isUnread
  | startFlush mem stage isMem =>
    refine Opening.Grounded.putTable ?_ _ mem false
    refine grounded.count (Nat.le_succ _) (fun number member => ?_) (fun number synced same => ?_)
      fun _ _ impossible => by cases impossible
    · rcases Finset.mem_insert.mp member with same | old
      · exact Or.inr (same.trans_lt (Nat.lt_succ_self _))
      · exact Or.inl old
    · cases same
      exact Finset.mem_insert_self _ _
  | syncTable number mem stage isMem =>
    refine Opening.Grounded.putTable ?_ number mem true
    exact
      { grounded with
        replays := { grounded.replays with }
        building := fun other synced same => by
          cases same
          exact grounded.building number false stage
        logging := fun _ _ impossible => by cases impossible }
  | tableBuilt number mem stage isMem => exact grounded.tableBuilt stage isMem
  | endLog log logs stage isLogs isUnread isMem => exact grounded.finishLog stage isLogs isUnread
  | reuseLog log stage isLogs isUnread reuses whole =>
    exact grounded.reuseLog stage isLogs isUnread
  | createLog stage isLogs noLog => exact grounded.createLog stage isLogs noLog
  | logEdit stage isLogs hasLog saves => exact grounded.logEdit isLogs hasLog
  | skipEdit stage isLogs hasLog saves =>
    obtain ⟨_, switched, sequenced⟩ := grounded.opened hasLog
    exact ⟨switched, switched, grounded.skipEdit hasLog saves sequenced⟩
  | appendReused edit stage reused => exact grounded.appendReused stage reused
  | appendCreated edit stage created => exact grounded.appendCreated stage created
  | syncManifest edit stage => exact grounded.syncManifest stage
  | install edit stage =>
    obtain ⟨_, isOpened, _⟩ := grounded.logging edit .synced stage
    obtain ⟨_, switched, sequenced⟩ := grounded.opened isOpened
    exact ⟨switched, switched, grounded.install stage sequenced⟩

theorem Process.Grounded.recoverable {files : Files α β} {process : Process α β}
    (grounded : process.Grounded files) : files.Recoverable := by
  cases process with
  | down => exact grounded
  | opening state => exact Opening.Grounded.recoverable grounded
  | running memory =>
    obtain ⟨flushed, switched, running⟩ := grounded
    exact running.recoverable

/-- The invariant holds of a new directory and after every step. -/
theorem Store.grounded_step {options : Options α β} {store store' : Store α β}
    {action : StoreAction α β} (grounded : store.process.Grounded store.files)
    (taken : store.step options action = some store') : store'.process.Grounded store'.files := by
  cases action with
  | «open» reuseLogs reuseManifest =>
    rw [Store.step] at taken
    split at taken
    · rename_i isDown
      obtain ⟨opening, recovers, rfl⟩ := Option.map_eq_some_iff.mp taken
      exact grounded.recoverable.recover recovers
    · cases taken
  | opening action =>
    rw [Store.step] at taken
    split at taken
    · rename_i opening isOpening
      obtain ⟨⟨process, files⟩, steps, rfl⟩ := Option.map_eq_some_iff.mp taken
      rw [isOpening] at grounded
      exact Opening.Grounded.moves grounded (Opening.step_moves steps)
    · cases taken
  | running action =>
    rw [Store.step] at taken
    split at taken
    · rename_i memory isRunning
      obtain ⟨⟨memory', files⟩, steps, rfl⟩ := Option.map_eq_some_iff.mp taken
      rw [isRunning] at grounded
      obtain ⟨flushed, switched, running⟩ := grounded
      exact ⟨_, _, running.moves (Memory.step_moves steps)⟩
    · cases taken
  | crash loss =>
    cases taken
    exact grounded.recoverable.crash loss

end LevelDb
