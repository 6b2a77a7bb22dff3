/-
This file draws from the invariant of all runs, with any failing calls and any crashes, what the
counters and the deletions promise: the last sequence is never behind an entry that is stored,
`DeleteObsoleteFiles` deletes nothing that is still needed, and `NewFileNumber` returns a number in
use only when a memtable is flushed during recovery before the counter is past the logs that are
still to be replayed.
-/

import LevelDb.OpeningInvariant

namespace LevelDb

variable {α β : Type} [LinearOrder α] [Inhabited β]

/-- The states that the steps reach from a new directory. -/
def Store.Reached (options : Options α β) (store : Store α β) : Prop :=
  Lib.Reachable (Store.step options) (fun _ _ => True) Store.created store

theorem grounded_created : Process.Grounded (Store.created : Store α β).files
    (Store.created : Store α β).process :=
  recoverable_created

theorem Store.Reached.grounded {options : Options α β} {store : Store α β}
    (reached : store.Reached options) : store.process.Grounded store.files :=
  @Lib.Reachable.invariant _ _ _ _ _ (fun state => state.process.Grounded state.files)
    grounded_created (fun _ _ _ grounded _ taken => Store.grounded_step grounded taken) _ reached

theorem Store.Reached.running {options : Options α β} {store : Store α β} {memory : Memory α β}
    (reached : store.Reached options) (isRunning : store.process = .running memory) :
    ∃ flushed switched, memory.Grounded store.files flushed switched := by
  have grounded := reached.grounded
  rw [isRunning] at grounded
  exact grounded

/-- The open database. -/
def Process.asRunning : Process α β → Option (Memory α β)
  | .running memory => some memory
  | _ => none

/-- The database that is being opened. -/
def Process.asOpening : Process α β → Option (Opening α β)
  | .opening state => some state
  | _ => none

omit [LinearOrder α] [Inhabited β] in
theorem Process.asRunning_eq_some {process : Process α β} {memory : Memory α β} :
    process.asRunning = some memory ↔ process = .running memory := by
  cases process <;> simp [Process.asRunning]

omit [LinearOrder α] [Inhabited β] in
theorem Process.asOpening_eq_some {process : Process α β} {opening : Opening α β} :
    process.asOpening = some opening ↔ process = .opening opening := by
  cases process <;> simp [Process.asOpening]

/-! ### Sequence numbers -/

/-- The entry is in a memtable, in a table of the current version or in a log. -/
def Memory.Stores (memory : Memory α β) (files : Files α β) (entry : Entry α β) : Prop :=
  entry ∈ memory.db.mem ∨ (∃ imm ∈ memory.db.imm, entry ∈ imm) ∨ memory.db.version.Holds entry ∨
    ∃ number ∈ files.logs.numbers, ∃ record ∈ (files.logs.file number).records,
      entry ∈ record.entries

theorem Memory.Grounded.stores_le {memory : Memory α β} {files : Files α β}
    {flushed switched : Nat} (grounded : memory.Grounded files flushed switched)
    (idle : memory.write = .idle) {entry : Entry α β} (stores : memory.Stores files entry) :
    entry.sequence ≤ memory.db.lastSequence := by
  have sequenced := grounded.sequenced
  have isReached : memory.reached = memory.db.lastSequence := by
    rw [Memory.reached, idle]
    rfl
  rcases stores with inMem | ⟨imm, isImm, inImm⟩ | ⟨level, file, member, inFile⟩ |
    ⟨number, there, record, inLog, inRecord⟩
  · exact isReached ▸ (sequenced.mem entry inMem).2
  · exact (sequenced.imm imm isImm entry inImm).2.trans sequenced.switched_le
  · exact (grounded.listed.version level file member).2 entry inFile
  · have wellFormed := (grounded.recoverable.order.wellFormed number there record inLog).1
    have record_le := sequenced.logged number there
      (Nat.lt_succ_of_le (sequenced.newest number there)) record inLog
    rw [isReached] at record_le
    exact Nat.le_of_lt_succ ((wellFormed.entry_bounds inRecord).2.trans_le record_le)

/-- Once a database is open, the last sequence is at least that of every entry that is stored, and
the next write takes greater ones. -/
theorem Store.lastSequence_covers {options : Options α β} {store : Store α β}
    {memory : Memory α β} (reached : store.Reached options)
    (isRunning : store.process = .running memory) :
    (memory.write = .idle → ∀ entry, memory.Stores store.files entry →
      entry.sequence ≤ memory.db.lastSequence) ∧
    (∀ level, ∀ file ∈ memory.db.version.files level, ∀ entry ∈ file.entries,
      entry.sequence ≤ memory.db.lastSequence) ∧
    ∀ ops sync succeeds written store' memory' batch,
      store.step options (.running (.append ops sync succeeds written)) = some store' →
      store'.process = .running memory' → memory'.write.batch = some batch →
      ∀ entry, memory.Stores store.files entry → ∀ new ∈ batch.entries,
        entry.sequence < new.sequence := by
  obtain ⟨flushed, switched, grounded⟩ := reached.running isRunning
  refine ⟨fun idle entry stores => grounded.stores_le idle stores,
    fun level file member => (grounded.listed.version level file member).2, ?_⟩
  intro ops sync succeeds written store' memory' batch taken isRunning' isBatch entry stores new
    isNew
  rw [Store.step, isRunning] at taken
  obtain ⟨⟨after, files⟩, steps, rfl⟩ := Option.map_eq_some_iff.mp taken
  obtain rfl := Process.running.inj isRunning'
  cases Memory.step_moves steps with
  | read _ reads _ _ _ _ _ => cases reads
  | append _ _ _ _ appended idle noError fits isAppended =>
    have same : batch = appended := by
      cases succeeds with
      | true => exact (Option.some.inj isBatch).symm
      | false => exact (Option.some.inj isBatch).symm
    have wellFormed : batch.WellFormed := by
      rw [same, isAppended]
      rfl
    have sequence : batch.sequence = memory.db.lastSequence + 1 := by
      rw [same, isAppended]
    calc entry.sequence ≤ memory.db.lastSequence := grounded.stores_le idle stores
      _ < batch.sequence := sequence ▸ Nat.lt_succ_self _
      _ ≤ new.sequence := (wellFormed.entry_bounds isNew).1

/-- `Open` of a directory without logs, up to the end of its `DeleteObsoleteFiles`. -/
def openNew : List (StoreAction Nat Nat) :=
  [.open false false, .opening .createLog, .opening .logEdit, .opening .appendEdit,
    .opening .syncManifest, .opening .install, .running .endCollecting]

/-- A `Write` of one value. -/
def putOne (userKey value : Nat) : List (StoreAction Nat Nat) :=
  [.running (.append [.put userKey value] false true true), .running .insert, .running .finishWrite]

/-- `Open` of a directory with one log, whose memtable is flushed. -/
def openFlushed : List (StoreAction Nat Nat) :=
  [.open false false, .opening .replay, .opening .startFlush, .opening .syncTable,
    .opening .tableBuilt, .opening .endLog, .opening .createLog, .opening .logEdit,
    .opening .appendEdit, .opening .syncManifest, .opening .install]

/-- The second of two writes is lost in a crash. -/
theorem lastSequence_covers_truncated :
    ∃ store : Store Nat Nat, ∃ memory, store.process = .running memory ∧
      memory.db.lastSequence = 1 ∧ (memory.db.version.files 0).length = 1 ∧
      ∀ level, ∀ file ∈ memory.db.version.files level, ∀ entry ∈ file.entries,
        entry.sequence ≤ memory.db.lastSequence := by
  obtain ⟨store, reached, outcome⟩ := Lib.exists_of_run
    (show (Lib.run (Store.step sizedOptions) (fun _ _ => True) Store.created
      (openNew ++ putOne 1 7 ++ putOne 2 9 ++
        [.crash ⟨fun _ index => index < 1, fun _ => 9, fun _ => 9⟩] ++ openFlushed)).any
          (fun store => store.process.asRunning.any fun memory =>
            decide (memory.db.lastSequence = 1 ∧ (memory.db.version.files 0).length = 1)) = true by
      decide +kernel)
  obtain ⟨memory, running, isTrue⟩ := (Option.any_eq_true _ _).mp outcome
  have isRunning := Process.asRunning_eq_some.mp running
  obtain ⟨isLast, one⟩ := of_decide_eq_true isTrue
  exact ⟨store, memory, isRunning, isLast, one, (Store.lastSequence_covers reached isRunning).2.1⟩

/-! ### Deletions -/

section Live

variable {memory : Memory α β}

omit [LinearOrder α] [Inhabited β] in
theorem mem_foldl_union {number : Nat} (versions : List (Version α β)) (start : Finset Nat) :
    number ∈ versions.foldl (fun live version => live ∪ version.numbers) start ↔
      number ∈ start ∨ ∃ version ∈ versions, number ∈ version.numbers := by
  induction versions generalizing start with
  | nil => simp
  | cons version rest inductionHypothesis =>
    rw [List.foldl_cons, inductionHypothesis, Finset.mem_union, List.exists_mem_cons_iff, or_assoc]

omit [LinearOrder α] [Inhabited β] in
theorem Memory.pending_live {number : Nat} (pending : number ∈ memory.pendingOutputs) :
    number ∈ memory.live :=
  (mem_foldl_union _ _).mpr (Or.inl pending)

omit [LinearOrder α] [Inhabited β] in
theorem Version.mem_numbers {version : Version α β} {level : Nat} {file : FileMetaData α β}
    (inRange : level < Config.kNumLevels) (member : file ∈ version.files level) :
    file.number ∈ version.numbers :=
  List.mem_toFinset.mpr (List.mem_flatMap.mpr
    ⟨level, List.mem_range.mpr inRange, List.mem_map_of_mem member⟩)

omit [LinearOrder α] [Inhabited β] in
theorem Memory.version_live {version : Version α β} (isVersion : version ∈ memory.versions)
    {level : Nat} (inRange : level < Config.kNumLevels) {file : FileMetaData α β}
    (member : file ∈ version.files level) : file.number ∈ memory.live :=
  (mem_foldl_union _ _).mpr (Or.inr ⟨version, isVersion, Version.mem_numbers inRange member⟩)

end Live

/-- What `DeleteObsoleteFiles` deletes is no table of a version that is referenced or of an output,
no log whose entries are still in a memtable, and not the manifest that `CURRENT` names. -/
theorem Store.removeFile_obsolete {options : Options α β} {store store' : Store α β}
    {memory : Memory α β} {kind : FileKind} {number : Nat} (reached : store.Reached options)
    (isRunning : store.process = .running memory)
    (taken : store.step options (.running (.removeFile kind number)) = some store') :
    (kind = .table → number ∉ memory.pendingOutputs ∧
      (∀ version ∈ memory.versions, ∀ level < Config.kNumLevels, ∀ file ∈ version.files level,
        file.number ≠ number) ∧
      ∀ job ∈ memory.work.job, ∀ output ∈ job.loop.allOutputs, output.number ≠ number) ∧
    (kind = .log → number ≠ memory.logFileNumber ∧
      ∀ record ∈ (store.files.logs.file number).records, ∀ entry ∈ record.entries,
        entry ∉ memory.db.mem ∧ ∀ imm ∈ memory.db.imm, entry ∉ imm) ∧
    (kind = .manifest → number ≠ store.files.current) := by
  obtain ⟨flushed, switched, grounded⟩ := reached.running isRunning
  have sequenced := grounded.sequenced
  rw [Store.step, isRunning] at taken
  obtain ⟨⟨after, files⟩, steps, rfl⟩ := Option.map_eq_some_iff.mp taken
  cases Memory.step_moves steps with
  | read _ reads _ _ _ _ _ => cases reads
  | removeFile _ _ inside stage noError obsolete there =>
    refine ⟨?_, ?_, ?_⟩
    · rintro rfl
      have notLive : number ∉ memory.live := of_decide_eq_false obsolete
      have notPending : number ∉ memory.pendingOutputs :=
        fun pending => notLive (Memory.pending_live pending)
      refine ⟨notPending, fun version isVersion level inRange file member same => ?_,
        fun job isJob output inOutputs same => ?_⟩
      · exact notLive (same ▸ Memory.version_live isVersion inRange member)
      · exact notPending (same ▸ (grounded.works.job job isJob).pending output inOutputs)
    · rintro rfl
      have less := Memory.lt_of_keeps_log obsolete
      refine ⟨(less.trans_le sequenced.log_le).ne, fun record inLog entry inRecord => ?_⟩
      have wellFormed := (grounded.recoverable.order.wellFormed number there record inLog).1
      have stale := sequenced.stale number there less record inLog
      have entry_le : entry.sequence ≤ flushed :=
        Nat.le_of_lt_succ ((wellFormed.entry_bounds inRecord).2.trans_le stale)
      refine ⟨fun inMem => ?_, fun imm isImm inImm => ?_⟩
      · have newer := (sequenced.mem entry inMem).1
        exact absurd (entry_le.trans sequenced.flushed_le) (Nat.not_le.mpr newer)
      · exact absurd entry_le (Nat.not_le.mpr (sequenced.imm imm isImm entry inImm).1)
    · rintro rfl
      rw [grounded.backs.isCurrent]
      exact (Memory.lt_of_keeps_manifest obsolete).ne

/-- A memtable is switched and flushed. -/
def switchAndFlush : List (StoreAction Nat Nat) :=
  [.running .switchMemTable, .running .startFlush, .running (.syncTable true), .running .tableBuilt,
    .running (.appendEdit true false), .running (.syncManifest true), .running .install]

/-- The log of a memtable that was flushed is deleted. -/
theorem removeFile_obsolete_flushed :
    ∃ store store' : Store Nat Nat, ∃ memory, store.process = .running memory ∧
      store.step sizedOptions (.running (.removeFile .log 3)) = some store' ∧
      3 ≠ memory.logFileNumber := by
  obtain ⟨store, reached, outcome⟩ := Lib.exists_of_run
    (show (Lib.run (Store.step sizedOptions) (fun _ _ => True) Store.created
      (openNew ++ putOne 1 7 ++ switchAndFlush)).any (fun store => store.process.asRunning.any
        fun _ => (store.step sizedOptions (.running (.removeFile .log 3))).isSome) = true by
      decide +kernel)
  obtain ⟨memory, running, removes⟩ := (Option.any_eq_true _ _).mp outcome
  have isRunning := Process.asRunning_eq_some.mp running
  obtain ⟨store', taken⟩ := Option.isSome_iff_exists.mp removes
  have safe := Store.removeFile_obsolete reached isRunning taken
  exact ⟨store, store', memory, isRunning, taken, (safe.2.1 rfl).1⟩

/-! ### File numbers -/

/-- The number that `NewFileNumber` returns when the step calls it. -/
def Memory.newNumber (memory : Memory α β) : RunningAction α β → Option Nat
  | .switchMemTable | .newLogFails | .startFlush | .visit => some memory.db.nextFileNumber
  | _ => none

@[inherit_doc Memory.newNumber]
def Opening.newNumber (opening : Opening α β) : OpeningAction → Option Nat
  | .startFlush | .createLog => some opening.memory.db.nextFileNumber
  | _ => none

@[inherit_doc Memory.newNumber]
def Store.newNumber (store : Store α β) (action : StoreAction α β) : Option Nat :=
  match store.process, action with
  | .running memory, .running action => memory.newNumber action
  | .opening opening, .opening action => opening.newNumber action
  | _, _ => none

/-- The number names a table of a version that is referenced, a log that exists or is still to be
replayed, an output, or a manifest. -/
def Store.InUse (store : Store α β) (number : Nat) : Prop :=
  match store.process with
  | .down => False
  | .opening opening => (∃ level, ∃ file ∈ opening.memory.db.version.files level,
      file.number = number) ∨ (∃ added ∈ opening.edit.newFiles, added.2.number = number) ∨
      number ∈ opening.logs ∨ number ∈ opening.memory.pendingOutputs ∨
      number = opening.memory.manifestFileNumber
  | .running memory => (∃ version ∈ memory.versions, ∃ level, ∃ file ∈ version.files level,
      file.number = number) ∨ number ∈ store.files.logs.numbers ∨
      number ∈ memory.pendingOutputs ∨ number = memory.manifestFileNumber

/-- A memtable is flushed during recovery while the counter is the number of a log that is still to
be replayed. -/
def FlushMeetsLog (store : Store α β) (action : StoreAction α β) : Prop :=
  match store.process with
  | .opening opening => action = .opening .startFlush ∧
      opening.memory.db.nextFileNumber ∈ opening.logs
  | _ => False

omit [Inhabited β] in
theorem Memory.Grounded.version_below {memory : Memory α β} {files : Files α β}
    {flushed switched : Nat} (grounded : memory.Grounded files flushed switched)
    {version : Version α β} (isVersion : version ∈ memory.versions) :
    version.Below memory.db.nextFileNumber memory.db.lastSequence := by
  rcases List.mem_cons.mp isVersion with rfl | others
  · exact grounded.listed.version
  · rcases List.mem_append.mp others with ofJob | pinned
    · obtain ⟨job, isJob, rfl⟩ := Option.map_eq_some_iff.mp (Option.mem_toList.mp ofJob)
      exact (grounded.works.job job isJob).input
    · exact grounded.listed.pinned version pinned

omit [Inhabited β] in
theorem Memory.Grounded.number_lt {memory : Memory α β} {store : Store α β}
    {flushed switched number : Nat} (isRunning : store.process = .running memory)
    (grounded : memory.Grounded store.files flushed switched) (inUse : store.InUse number) :
    number < memory.db.nextFileNumber := by
  have sequenced := grounded.sequenced
  rw [Store.InUse, isRunning] at inUse
  rcases inUse with ⟨version, isVersion, level, file, member, rfl⟩ | log | pending | rfl
  · exact (grounded.version_below isVersion level file member).1
  · exact (sequenced.newest number log).trans_lt sequenced.logFile_lt
  · exact grounded.listed.pending number pending
  · exact grounded.backs.manifest_lt

theorem Opening.Grounded.number_lt {opening : Opening α β} {store : Store α β} {number : Nat}
    (isOpening : store.process = .opening opening) (grounded : opening.Grounded store.files)
    (inUse : store.InUse number) :
    number < opening.memory.db.nextFileNumber ∨ number ∈ opening.logs := by
  rw [Store.InUse, isOpening] at inUse
  rcases inUse with ⟨level, file, member, rfl⟩ | ⟨added, isNew, rfl⟩ | log | pending | rfl
  · exact Or.inl (grounded.listed.version level file member).1
  · exact Or.inl (grounded.edit added isNew).1
  · exact Or.inr log
  · exact Or.inl (grounded.listed.pending number pending)
  · exact Or.inl grounded.manifest_lt

omit [LinearOrder α] [Inhabited β] in
theorem Memory.newNumber_eq {memory : Memory α β} {action : RunningAction α β} {number : Nat}
    (isNew : memory.newNumber action = some number) : number = memory.db.nextFileNumber := by
  cases action with
  | switchMemTable | newLogFails | startFlush | visit => exact (Option.some.inj isNew).symm
  | _ => cases isNew

omit [LinearOrder α] [Inhabited β] in
theorem Opening.newNumber_eq {opening : Opening α β} {action : OpeningAction} {number : Nat}
    (isNew : opening.newNumber action = some number) :
    number = opening.memory.db.nextFileNumber := by
  cases action with
  | startFlush | createLog => exact (Option.some.inj isNew).symm
  | _ => cases isNew

/-- In every run `NewFileNumber` returns a number in use if and only if a memtable is flushed during
recovery while the counter is the number of a log that is still to be replayed. -/
theorem Store.newNumber_inUse_iff {options : Options α β} {store store' : Store α β}
    {action : StoreAction α β} {number : Nat} (reached : store.Reached options)
    (taken : store.step options action = some store')
    (isNew : store.newNumber action = some number) :
    store.InUse number ↔ FlushMeetsLog store action := by
  have grounded := reached.grounded
  cases isProcess : store.process with
  | down => simp [Store.newNumber, isProcess] at isNew
  | running memory =>
    rw [isProcess] at grounded
    obtain ⟨flushed, switched, running⟩ := grounded
    have isNext : number = memory.db.nextFileNumber := by
      cases action with
      | running step =>
        simp only [Store.newNumber, isProcess] at isNew
        exact Memory.newNumber_eq isNew
      | _ => simp [Store.newNumber, isProcess] at isNew
    have notMeets : ¬ FlushMeetsLog store action := by
      rw [FlushMeetsLog, isProcess]
      exact fun impossible => impossible
    exact iff_of_false (fun inUse => absurd isNext (running.number_lt isProcess inUse).ne) notMeets
  | opening opening =>
    rw [isProcess] at grounded
    rw [FlushMeetsLog, isProcess]
    cases action with
    | opening step =>
      simp only [Store.newNumber, isProcess] at isNew
      obtain rfl := Opening.newNumber_eq isNew
      constructor
      · intro inUse
        rcases Opening.Grounded.number_lt isProcess grounded inUse with less | isLog
        · exact absurd less (lt_irrefl _)
        · cases step with
          | startFlush => exact ⟨rfl, isLog⟩
          | createLog =>
            rw [Store.step.eq_def] at taken
            simp only [isProcess] at taken
            obtain ⟨⟨process, files⟩, steps, _⟩ := Option.map_eq_some_iff.mp taken
            cases Opening.step_moves steps with
            | createLog stage isLogs noLog => cases isLogs ▸ isLog
          | _ => cases isNew
      · rintro ⟨_, isLog⟩
        rw [Store.InUse, isProcess]
        exact Or.inr (Or.inr (Or.inl isLog))
    | _ => simp [Store.newNumber, isProcess] at isNew

/-- A compaction has opened an output and the memtable was switched after the last edit, when the
process crashes. -/
def crashInCompaction : List (StoreAction Nat Nat) :=
  openNew ++ putOne 1 7 ++ switchAndFlush ++
    [.running .endCollecting, .running (.startCompaction (.manualCompaction 2 none none)),
      .running .visit] ++ putOne 2 9 ++
    [.running .switchMemTable, .crash ⟨fun _ _ => true, fun _ => 9, fun _ => 9⟩,
      .open false false, .opening .replay]

/-- Whether a step is an `Open` with `reuse_logs`. -/
def StoreAction.reusesLogs : StoreAction α β → Bool
  | .open reuseLogs _ => reuseLogs
  | _ => false

/-- The memtable of the first log is flushed to a table with the number of the second log. -/
theorem newNumber_returns_log :
    ∃ store store' : Store Nat Nat, ∃ action number,
      Lib.Reachable (Store.step sizedOptions) (fun _ action => action.reusesLogs = false)
          Store.created store ∧
        store.step sizedOptions action = some store' ∧ store.newNumber action = some number ∧
        store.InUse number := by
  obtain ⟨store, reached, outcome⟩ := Lib.exists_of_run
    (show (Lib.run (Store.step sizedOptions) (fun _ action => action.reusesLogs = false)
      Store.created crashInCompaction).any (fun store => store.process.asOpening.any fun opening =>
        decide (opening.memory.db.nextFileNumber ∈ opening.logs) &&
          (store.step sizedOptions (.opening .startFlush)).isSome) = true by decide +kernel)
  obtain ⟨opening, opens, isTrue⟩ := (Option.any_eq_true _ _).mp outcome
  have isOpening := Process.asOpening_eq_some.mp opens
  obtain ⟨isLog, taken⟩ := Bool.and_eq_true_iff.mp isTrue
  obtain ⟨store', steps⟩ := Option.isSome_iff_exists.mp taken
  refine ⟨store, store', .opening .startFlush, opening.memory.db.nextFileNumber, reached, steps,
    ?_, ?_⟩
  · simp only [Store.newNumber, isOpening]
    rfl
  · rw [Store.InUse, isOpening]
    exact Or.inr (Or.inr (Or.inl (of_decide_eq_true isLog)))

/-- A switch of the memtable takes a new number. -/
theorem newNumber_inUse_iff_switch :
    ∃ store store' : Store Nat Nat, ∃ number,
      store.step sizedOptions (.running .switchMemTable) = some store' ∧
        store.newNumber (.running .switchMemTable) = some number ∧
        (store.InUse number ↔ FlushMeetsLog store (.running .switchMemTable)) := by
  obtain ⟨store, reached, outcome⟩ := Lib.exists_of_run
    (show (Lib.run (Store.step sizedOptions) (fun _ _ => True) Store.created
      (openNew ++ putOne 1 7)).any (fun store =>
        (store.step sizedOptions (.running .switchMemTable)).isSome &&
          (store.newNumber (.running .switchMemTable)).isSome) = true by decide +kernel)
  obtain ⟨taken, isNew⟩ := Bool.and_eq_true_iff.mp outcome
  obtain ⟨store', steps⟩ := Option.isSome_iff_exists.mp taken
  obtain ⟨number, isNumber⟩ := Option.isSome_iff_exists.mp isNew
  exact ⟨store, store', number, steps, isNumber,
    Store.newNumber_inUse_iff reached steps isNumber⟩

end LevelDb
