/-
This file models how `DBImpl` shares one background thread between its callers. Writers make room
in the memtable, readers charge seeks, `TEST_CompactRange` posts a manual compaction and
`TEST_CompactMemTable` a NULL batch, `SuspendCompaction` and `ResumeCompaction` set and clear a
flag, and the background thread flushes and compacts. All of them meet at `mutex_`: one step is
what a thread does from taking the mutex to giving it up or to waiting on `bg_cv_`, and the
background thread gives the mutex up while it builds a table, visits the input of a compaction or
writes the manifest.

`mutex` names the thread that keeps the mutex from one step to its next one.
-/

import LevelDb.WriteQueue

namespace LevelDb

variable {α β : Type}

/-! ### The threads -/

/-- The options the threads read: those of the tables, the encoded length of a record, and when
the memtable is full. -/
structure SchedulerOptions (α β : Type) extends Options α β where
  opSize : WriteOp α β → Nat
  writeBufferSize : Nat
  approximateMemoryUsage : List (Entry α β) → Nat

inductive Holder
  | writer
  | background
  deriving DecidableEq, Repr

/-- Where the writer at the front stands in `MakeRoomForWrite`: it keeps the mutex, it is about to
take it again, or it waits on `bg_cv_`. -/
inductive RoomStatus
  | running
  | ready
  | waitingForImm
  | waitingForLevel0
  deriving DecidableEq, Repr

/-- The variables of `MakeRoomForWrite`. -/
structure Room where
  force : Bool
  allowDelay : Bool
  status : RoomStatus
  deriving DecidableEq, Repr

/-- `DBImpl::ManualCompaction`. -/
structure ManualCompaction (α : Type) where
  level : Nat
  done : Bool
  first : Option (InternalKey α)
  last : Option (InternalKey α)

/-- The request of a `TEST_CompactRange` call. -/
def ManualCompaction.new (level : Nat) (first last : Option α) : ManualCompaction α :=
  { level
    done := false
    first := first.map fun userKey =>
      ⟨userKey, packSequenceAndType kMaxSequenceNumber kValueTypeForSeek⟩
    last := last.map fun userKey => ⟨userKey, packSequenceAndType 0 .kTypeDeletion⟩ }

/-- Where a call that waits on `bg_cv_` in a loop stands. -/
inductive CallStatus
  | ready
  | waiting
  | returned
  deriving DecidableEq, Repr

/-- A call of `TEST_CompactRange`, with the request on its stack. -/
structure CompactRangeCall (α : Type) where
  manual : ManualCompaction α
  status : CallStatus

/-- A call of `TEST_CompactMemTable`: its place in the order of writers, and whether it returned
OK. `lastSequence` and `before` are not part of the code: they hold what the database had
acknowledged when the call was made. -/
structure CompactMemTableCall (α β : Type) where
  writer : Nat
  status : CallStatus
  ok : Bool
  lastSequence : Nat
  before : List (Group α β × WriteStatus)

/-- A compaction that `DoCompactionWork` works on, with the manual request it was started for and
the key that request will go on from. -/
structure CompactionJob (α β : Type) where
  compaction : Compaction α β
  manual : Option (Nat × Option (InternalKey α))
  smallestSnapshot : Nat
  loop : CompactionState α β
  remaining : List (Entry α β)

/-- What the background thread is doing. A flush is made by the call itself or from inside a
compaction. In `finishing` the thread keeps the mutex and is about to execute the end of
`BackgroundCompaction`, with the manual request the call started from. -/
inductive Background (α β : Type)
  | idle
  | buildingTable (number : Nat) (inside : Option (CompactionJob α β))
  | loggingFlush (edit : VersionEdit α β) (inside : Option (CompactionJob α β))
  | loggingMove (edit : VersionEdit α β)
  | compacting (job : CompactionJob α β)
  | loggingResults (edit : VersionEdit α β) (job : CompactionJob α β)
  | finishing (manual : Option (Nat × Option (InternalKey α))) (ok : Bool)

/-- The shared state. `manualCompaction` points to a call of `compactRangeCalls`. The edits given
to `LogAndApply`, with its outcome, and the compactions that were installed are kept as a
history. -/
structure Scheduler (α β : Type) where
  write : WriteState α β
  mutex : Option Holder
  room : Room
  shuttingDown : Bool
  suspendingCompaction : Bool
  bgCompactionScheduled : Bool
  manualCompaction : Option Nat
  compactRangeCalls : List (CompactRangeCall α)
  compactMemTableCalls : List (CompactMemTableCall α β)
  background : Background α β
  manifest : List (VersionEdit α β × Bool)
  installed : List (CompactionJob α β)

namespace Scheduler

def setDb (state : Scheduler α β) (db : Db α β) : Scheduler α β :=
  { state with write := { state.write with db := db } }

/-! ### Waking and scheduling -/

/-- `bg_cv_.SignalAll`. -/
def signalAll (state : Scheduler α β) : Scheduler α β :=
  { state with
    room := { state.room with
      status := match state.room.status with
        | .waitingForImm | .waitingForLevel0 => .ready
        | status => status }
    compactRangeCalls := state.compactRangeCalls.map fun call =>
      { call with status := if call.status = .waiting then .ready else call.status }
    compactMemTableCalls := state.compactMemTableCalls.map fun call =>
      { call with status := if call.status = .waiting then .ready else call.status } }

/-- `RecordBackgroundError`. -/
def recordBackgroundError (state : Scheduler α β) : Scheduler α β :=
  if state.write.bgError then state
  else { state with write := { state.write with bgError := true } }.signalAll

end Scheduler

/-- `VersionSet::NeedsCompaction`. -/
def Version.needsCompaction (version : Version α β) : Bool :=
  decide (1 ≤ version.compactionScore) || version.fileToCompact.isSome

namespace Scheduler

/-- There is work for the background thread. -/
def pendingWork (state : Scheduler α β) : Bool :=
  state.write.db.imm.isSome || state.manualCompaction.isSome ||
    state.write.db.version.needsCompaction

/-- `MaybeScheduleCompaction`. -/
def maybeScheduleCompaction (state : Scheduler α β) : Scheduler α β :=
  if state.bgCompactionScheduled then state
  else if state.shuttingDown then state
  else if state.write.db.imm.isNone && state.suspendingCompaction then state
  else if state.write.bgError then state
  else if state.write.db.imm.isNone && state.manualCompaction.isNone &&
      !state.write.db.version.needsCompaction then state
  else { state with bgCompactionScheduled := true }

/-- A database with all threads idle. -/
def start (db : Db α β) (logNumber : Nat) : Scheduler α β :=
  { write := WriteState.start db logNumber
    mutex := none
    room := ⟨false, false, .ready⟩
    shuttingDown := false
    suspendingCompaction := false
    bgCompactionScheduled := false
    manualCompaction := none
    compactRangeCalls := []
    compactMemTableCalls := []
    background := .idle
    manifest := []
    installed := [] }

/-- `DB::Open` ends with a call of `MaybeScheduleCompaction`. -/
def opened (db : Db α β) (logNumber : Nat) : Scheduler α β :=
  (start db logNumber).maybeScheduleCompaction

end Scheduler

/-! ### The callers -/

/-- The writer at the front still has the mutex it took before `MakeRoomForWrite`. -/
def Phase.keepsMutex : Phase α β → Bool
  | .finishing none _ _ => true
  | _ => false

/-- The writer at the front is in `MakeRoomForWrite`. -/
def Phase.isMakingRoom : Phase α β → Bool
  | .makingRoom => true
  | _ => false

/-- The steps of the write queue that take the mutex. -/
def WriteAction.locks : WriteAction α β → Bool
  | .arrive _ _ | .read _ | .other .getSnapshot | .other (.releaseSnapshot _) => true
  | _ => false

/-- The steps the writer at the front takes with the mutex released. -/
def WriteAction.unlocked : WriteAction α β → Bool
  | .append _ | .sync _ | .insert => true
  | _ => false

namespace Scheduler

variable [LinearOrder α] [Inhabited β]

/-- A step of the write queue. -/
def writeStep (options : SchedulerOptions α β) (state : Scheduler α β) (action : WriteAction α β) :
    Option (Scheduler α β) :=
  (state.write.step options.toOptions options.opSize action).map fun write => { state with write }

/-- The front writer leaves `MakeRoomForWrite`. It keeps the mutex unless it goes on with a
group. -/
def leaveRoom (options : SchedulerOptions α β) (state : Scheduler α β) (action : WriteAction α β) :
    Option (Scheduler α β) :=
  (state.writeStep options action).map fun left =>
    { left with mutex := if left.write.phase.keepsMutex then some .writer else none }

/-- One round of the loop of `MakeRoomForWrite`. -/
def makeRoomForWrite (options : SchedulerOptions α β) (state : Scheduler α β)
    (newLogFails : Bool) : Option (Scheduler α β) :=
  let level0 := (state.write.db.version.files 0).length
  if state.write.bgError then state.leaveRoom options .buildGroup
  else if state.room.allowDelay && decide (Config.kL0SlowdownWritesTrigger ≤ level0) then
    some { state with room := { state.room with allowDelay := false, status := .ready }, mutex := none }
  else if !state.room.force &&
      decide (options.approximateMemoryUsage state.write.db.mem ≤ options.writeBufferSize) then
    state.leaveRoom options .buildGroup
  else if state.suspendingCompaction then state.leaveRoom options .buildGroup
  else if state.write.db.imm.isSome then
    some { state with room := { state.room with status := .waitingForImm }, mutex := none }
  else if Config.kL0StopWritesTrigger ≤ level0 then
    some { state with room := { state.room with status := .waitingForLevel0 }, mutex := none }
  else if newLogFails then state.leaveRoom options .newLogFails
  else
    (state.writeStep options .switchMemTable).map fun switched =>
      let forced := { switched with
        room := { state.room with force := false, status := .running }
        mutex := some .writer }
      if forced.suspendingCompaction then forced else forced.maybeScheduleCompaction

/-- The end of `Write`: the front writer takes the mutex again if it gave it up, records a failed
sync and pops its group. -/
def finishWrite (options : SchedulerOptions α β) (state : Scheduler α β) :
    Option (Scheduler α β) :=
  if state.mutex = (if state.write.phase.keepsMutex then some .writer else none) then
    (state.writeStep options .finish).map fun finished =>
      let left := { finished with mutex := none }
      if !state.write.bgError && left.write.bgError then left.signalAll else left
  else none

/-- `UpdateStats` charges a seek to a file of the current version, or to one of an older version
that the reader still holds. -/
def updateStats (state : Scheduler α β) : Option (Nat × Nat) → Option (Scheduler α β)
  | none => some state.maybeScheduleCompaction
  | some (level, index) =>
    (state.write.db.chargeSeek level index).map fun db =>
      (state.setDb db).maybeScheduleCompaction

def setCall (state : Scheduler α β) (id : Nat) (call : CompactRangeCall α) : Scheduler α β :=
  { state with compactRangeCalls := state.compactRangeCalls.set id call }

/-- The loop of `TEST_CompactRange` up to the next wait, or to its end. -/
def compactRangeLoop (state : Scheduler α β) (id : Nat) (call : CompactRangeCall α) :
    Scheduler α β :=
  if call.manual.done || state.shuttingDown || state.write.bgError then
    let left := state.setCall id { call with status := .returned }
    if state.manualCompaction = some id then { left with manualCompaction := none } else left
  else
    let waiting := state.setCall id { call with status := .waiting }
    if state.manualCompaction = none then
      { waiting with manualCompaction := some id }.maybeScheduleCompaction
    else waiting

/-- The status `Write` returned to a writer. -/
def writeResult (state : Scheduler α β) (writer : Nat) : Option WriteStatus :=
  (state.write.returned.find? fun result => result.1.id = writer).map Prod.snd

/-- `TEST_CompactMemTable` once its `Write` has returned: the wait for the flush, or the end. -/
def compactMemTableLoop (state : Scheduler α β) (call : CompactMemTableCall α β)
    (status : WriteStatus) : CompactMemTableCall α β :=
  if status ≠ .ok then { call with status := .returned, ok := false }
  else if state.write.db.imm.isSome && !state.write.bgError then { call with status := .waiting }
  else { call with status := .returned, ok := state.write.db.imm.isNone }

/-! ### The background thread -/

/-- `CompactMemTable` up to `BuildTable`: the table takes a file number. -/
def startFlush (state : Scheduler α β) (inside : Option (CompactionJob α β)) : Scheduler α β :=
  { state.setDb { state.write.db with nextFileNumber := state.write.db.nextFileNumber + 1 } with
    background := .buildingTable state.write.db.nextFileNumber inside }

/-- The end of `CompactMemTable`: the call goes to its end, or the compaction it was made from
goes on after waking the writers. -/
def afterFlush (state : Scheduler α β) : Option (CompactionJob α β) → Scheduler α β
  | none => { state with background := .finishing none true, mutex := some .background }
  | some job => { state with background := .compacting job }.signalAll

/-- The edit as `LogAndApply` completes it. -/
def completeEdit (state : Scheduler α β) (edit : VersionEdit α β) : VersionEdit α β :=
  (edit.setNextFile state.write.db.nextFileNumber).setLastSequence state.write.db.lastSequence

/-- `LogAndApply` has written the manifest, or failed to. -/
def logged (state : Scheduler α β) (edit : VersionEdit α β) (succeeds : Bool) : Scheduler α β :=
  let written := { state with manifest := state.manifest ++ [(edit, succeeds)] }
  if succeeds then written.setDb (state.write.db.logAndApply edit)
  else written.recordBackgroundError

/-- `SetupOtherInputs` advances the compaction pointer at once. -/
def pointTo (state : Scheduler α β) (compaction : Compaction α β) : Scheduler α β :=
  state.setDb { state.write.db with
    compactPointer := Function.update state.write.db.compactPointer compaction.level
      (some compaction.compactPointer) }

/-- `DoCompactionWork` up to the release of the mutex. -/
def startCompaction (state : Scheduler α β) (compaction : Compaction α β)
    (manual : Option (Nat × Option (InternalKey α))) : Scheduler α β :=
  { state with
    background := .compacting
      { compaction
        manual
        smallestSnapshot := oldestSnapshot state.write.db.snapshots state.write.db.lastSequence
        loop := CompactionState.initial state.write.db.nextFileNumber
        remaining := makeInputIterator compaction } }

/-- The call has nothing more to do but its end. -/
def finishing (state : Scheduler α β) (manual : Option (Nat × Option (InternalKey α)))
    (ok : Bool) : Scheduler α β :=
  { state with background := .finishing manual ok, mutex := some .background }

/-- `BackgroundCompaction` for a manual request. -/
def startManual (options : SchedulerOptions α β) (state : Scheduler α β) (id : Nat)
    (call : CompactRangeCall α) : Scheduler α β :=
  match compactRange options.toOptions state.write.db.version call.manual.level call.manual.first
      call.manual.last with
  | none =>
    (state.setCall id { call with manual := { call.manual with done := true } }).finishing
      (some (id, none)) true
  | some compaction =>
    let started := state.setCall id { call with manual := { call.manual with done := false } }
    (started.pointTo compaction).startCompaction compaction
      (some (id, compaction.inputs0.getLast?.map FileMetaData.largest))

/-- `BackgroundCompaction` without one. -/
def startAutomatic (options : SchedulerOptions α β) (state : Scheduler α β) : Scheduler α β :=
  match pickCompaction options.toOptions state.write.db.version state.write.db.compactPointer with
  | none => state.finishing none true
  | some compaction =>
    let picked := state.pointTo compaction
    if compaction.isTrivialMove options.toOptions then
      { picked with background := .loggingMove (picked.completeEdit compaction.moveEdit) }
    else picked.startCompaction compaction none

/-- `BackgroundCall` up to the first release of the mutex. -/
def backgroundCall (options : SchedulerOptions α β) (state : Scheduler α β) :
    Option (Scheduler α β) :=
  if state.shuttingDown || state.write.bgError then some (state.finishing none true)
  else if state.write.db.imm.isSome then some (state.startFlush none)
  else
    match state.manualCompaction with
    | some id => (state.compactRangeCalls[id]?).map fun call => state.startManual options id call
    | none => some (state.startAutomatic options)

/-- `BuildTable` has ended. -/
def tableBuilt (options : SchedulerOptions α β) (state : Scheduler α β) (number : Nat)
    (inside : Option (CompactionJob α β)) (succeeds : Bool) : Option (Scheduler α β) :=
  state.write.db.imm.map fun imm =>
    if succeeds && !state.shuttingDown then
      let edit := writeLevel0Table options.toOptions (some state.write.db.version) number imm {}
      { state with
        background := .loggingFlush (state.completeEdit
          ((edit.setPrevLogNumber 0).setLogNumber state.write.logNumber)) inside }
    else state.recordBackgroundError.afterFlush inside

/-- `LogAndApply` for a flush has ended. -/
def flushLogged (state : Scheduler α β) (edit : VersionEdit α β)
    (inside : Option (CompactionJob α β)) (succeeds : Bool) : Scheduler α β :=
  let written := state.logged edit succeeds
  let settled :=
    if succeeds then written.setDb { written.write.db with imm := none } else written
  settled.afterFlush inside

/-- One round of the loop of `DoCompactionWork`. -/
def visit (options : SchedulerOptions α β) (state : Scheduler α β) (job : CompactionJob α β)
    (entry : Entry α β) (rest : List (Entry α β)) : Scheduler α β :=
  let loop := { job.loop with nextFileNumber := state.write.db.nextFileNumber }.step
    options.toOptions job.compaction job.smallestSnapshot entry
  { state.setDb { state.write.db with nextFileNumber := loop.nextFileNumber } with
    background := .compacting { job with loop := loop, remaining := rest } }

/-- The end of the loop of `DoCompactionWork`, with or without an error. The whole input was
visited if there was none. -/
def endLoop (options : SchedulerOptions α β) (state : Scheduler α β) (job : CompactionJob α β)
    (succeeds : Bool) : Option (Scheduler α β) :=
  if succeeds then
    if job.remaining = [] then
      let outputs := job.loop.finish.outputs.map (Output.toFile options.toOptions)
      some { state with
        background := .loggingResults (state.completeEdit (installEdit job.compaction outputs)) job }
    else none
  else some (state.recordBackgroundError.finishing job.manual false)

/-- `InstallCompactionResults` has ended. -/
def resultsLogged (state : Scheduler α β) (edit : VersionEdit α β) (job : CompactionJob α β)
    (succeeds : Bool) : Scheduler α β :=
  let written := state.logged edit succeeds
  { written with installed := state.installed ++ if succeeds then [job] else [] }.finishing
    job.manual succeeds

/-- The block for manual compactions at the end of `BackgroundCompaction`. It goes through
`manual_compaction_`, which must not be NULL. -/
def finishManual (state : Scheduler α β) (manualEnd : Option (InternalKey α)) (ok : Bool) :
    Option (Scheduler α β) :=
  state.manualCompaction.bind fun id =>
    (state.compactRangeCalls[id]?).map fun call =>
      let done := call.manual.done || !ok
      let manual := { call.manual with
        done := done
        first := if done then call.manual.first else manualEnd }
      { state.setCall id { call with manual := manual } with manualCompaction := none }

/-- The end of `BackgroundCall`. -/
def endCall (state : Scheduler α β) : Scheduler α β :=
  let ended := { state with bgCompactionScheduled := false, background := .idle, mutex := none }
  (if ended.suspendingCompaction then ended else ended.maybeScheduleCompaction).signalAll

end Scheduler

/-! ### The machine -/

inductive SchedulerAction (α β : Type)
  | write (action : WriteAction α β)
  | lead
  | makeRoom (newLogFails : Bool)
  | finishWrite
  | updateStats (charged : Option (Nat × Nat))
  | callCompactRange (level : Nat) (first last : Option α)
  | compactRange (id : Nat)
  | callCompactMemTable
  | compactMemTable (index : Nat)
  | suspendCompaction
  | resumeCompaction
  | shutDown
  | backgroundCall
  | tableBuilt (succeeds : Bool)
  | flushLogged (succeeds : Bool)
  | moveLogged (succeeds : Bool)
  | visit
  | flushInside
  | endLoop (succeeds : Bool)
  | resultsLogged (succeeds : Bool)
  | endCall

namespace Scheduler

variable [LinearOrder α] [Inhabited β]

/-- A step of a caller. -/
def callerStep (options : SchedulerOptions α β) (state : Scheduler α β) :
    SchedulerAction α β → Option (Scheduler α β)
  | .write action => if action.locks then state.writeStep options action else none
  | .lead =>
    (state.writeStep options .lead).map fun leading =>
      let force := (leading.write.queue.head?).any fun writer => writer.batch.isNone
      { leading with room := ⟨force, !force, .running⟩, mutex := some .writer }
  | .updateStats charged => state.updateStats charged
  | .callCompactRange level first last =>
    if level + 1 < Config.kNumLevels then
      some { state with compactRangeCalls := state.compactRangeCalls ++
        [⟨ManualCompaction.new level first last, .ready⟩] }
    else none
  | .compactRange id =>
    (state.compactRangeCalls[id]?).bind fun call =>
      if call.status = .ready then some (state.compactRangeLoop id call) else none
  | .callCompactMemTable =>
    (state.writeStep options (.arrive none false)).map fun arrived =>
      { arrived with compactMemTableCalls := state.compactMemTableCalls ++
        [{ writer := state.write.arrived.length
           status := .ready
           ok := false
           lastSequence := state.write.db.lastSequence
           before := state.write.finished }] }
  | .compactMemTable index =>
    (state.compactMemTableCalls[index]?).bind fun call =>
      if call.status = .ready then
        (state.writeResult call.writer).map fun status =>
          { state with compactMemTableCalls :=
              state.compactMemTableCalls.set index (state.compactMemTableLoop call status) }
      else none
  | .suspendCompaction => some { state with suspendingCompaction := true }
  | .resumeCompaction => some { state with suspendingCompaction := false }
  | .shutDown => some { state with suspendingCompaction := false, shuttingDown := true }
  | _ => none

/-- A step of the background thread. -/
def backgroundStep (options : SchedulerOptions α β) (state : Scheduler α β) :
    SchedulerAction α β → Option (Scheduler α β)
  | .backgroundCall =>
    match state.background with
    | .idle => if state.bgCompactionScheduled then state.backgroundCall options else none
    | _ => none
  | .tableBuilt succeeds =>
    match state.background with
    | .buildingTable number inside => state.tableBuilt options number inside succeeds
    | _ => none
  | .flushLogged succeeds =>
    match state.background with
    | .loggingFlush edit inside => some (state.flushLogged edit inside succeeds)
    | _ => none
  | .moveLogged succeeds =>
    match state.background with
    | .loggingMove edit => some ((state.logged edit succeeds).finishing none succeeds)
    | _ => none
  | .visit =>
    match state.background with
    | .compacting job =>
      match job.remaining with
      | [] => none
      | entry :: rest => some (state.visit options job entry rest)
    | _ => none
  | .flushInside =>
    match state.background with
    | .compacting job =>
      if job.remaining ≠ [] ∧ state.write.db.imm.isSome then some (state.startFlush (some job))
      else none
    | _ => none
  | .endLoop succeeds =>
    match state.background with
    | .compacting job => state.endLoop options job succeeds
    | _ => none
  | .resultsLogged succeeds =>
    match state.background with
    | .loggingResults edit job => some (state.resultsLogged edit job succeeds)
    | _ => none
  | _ => none

/-- One step; `none` when it cannot be taken. A step that takes the mutex waits for the thread
that keeps it. A round of the compaction loop takes the mutex only to open an output; what else it
does is seen by no other thread. -/
def step (options : SchedulerOptions α β) (state : Scheduler α β) :
    SchedulerAction α β → Option (Scheduler α β)
  | .write action =>
    if action.unlocked then state.writeStep options action
    else if state.mutex = none then state.callerStep options (.write action)
    else none
  | .makeRoom newLogFails =>
    if state.write.phase.isMakingRoom = true ∧
        (state.mutex = some .writer ∧ state.room.status = .running ∨
          state.mutex = none ∧ state.room.status = .ready) then
      state.makeRoomForWrite options newLogFails
    else none
  | .finishWrite => state.finishWrite options
  | .endCall =>
    match state.background with
    | .finishing manual ok =>
      (match manual with
        | none => some state
        | some request => state.finishManual request.2 ok).map endCall
    | _ => none
  | action =>
    if state.mutex = none then
      (state.callerStep options action).or (state.backgroundStep options action)
    else none

end Scheduler

/-! ### What a step does -/

namespace Scheduler

/-- The writer at the front may execute a round of `MakeRoomForWrite`. -/
def InRoom (state : Scheduler α β) : Prop :=
  state.write.phase.isMakingRoom = true ∧
    (state.mutex = some .writer ∧ state.room.status = .running ∨
      state.mutex = none ∧ state.room.status = .ready)

variable [LinearOrder α] [Inhabited β]

/-- The ways a step changes the state. -/
inductive Moves (options : SchedulerOptions α β) (state : Scheduler α β) :
    SchedulerAction α β → Scheduler α β → Prop
  | queue (action : WriteAction α β) (write : WriteState α β)
      (may : action.unlocked = true ∨ action.locks = true ∧ state.mutex = none)
      (taken : state.write.step options.toOptions options.opSize action = some write) :
      Moves options state (.write action) { state with write }
  | lead (write : WriteState α β) (free : state.mutex = none)
      (taken : state.write.step options.toOptions options.opSize .lead = some write)
      (force : Bool)
      (isForce : force = (write.queue.head?).any fun writer => writer.batch.isNone) :
      Moves options state .lead
        { state with write, room := ⟨force, !force, .running⟩, mutex := some .writer }
  | delay (newLogFails : Bool) (inRoom : state.InRoom) :
      Moves options state (.makeRoom newLogFails)
        { state with
          room := { state.room with allowDelay := false, status := .ready }
          mutex := none }
  | leave (newLogFails : Bool) (inRoom : state.InRoom) (action : WriteAction α β)
      (reason : action = .newLogFails ∨ action = .buildGroup ∧ (state.write.bgError = true ∨
        state.room.force = false ∨ state.suspendingCompaction = true))
      (write : WriteState α β)
      (taken : state.write.step options.toOptions options.opSize action = some write) :
      Moves options state (.makeRoom newLogFails)
        { state with write, mutex := if write.phase.keepsMutex then some .writer else none }
  | awaitImm (newLogFails : Bool) (inRoom : state.InRoom)
      (waiting : state.write.db.imm.isSome = true) :
      Moves options state (.makeRoom newLogFails)
        { state with room := { state.room with status := .waitingForImm }, mutex := none }
  | awaitLevel0 (newLogFails : Bool) (inRoom : state.InRoom) :
      Moves options state (.makeRoom newLogFails)
        { state with room := { state.room with status := .waitingForLevel0 }, mutex := none }
  | switch (inRoom : state.InRoom) (active : state.suspendingCompaction = false)
      (write : WriteState α β)
      (taken : state.write.step options.toOptions options.opSize .switchMemTable = some write) :
      Moves options state (.makeRoom false)
        ({ state with
          write
          room := { state.room with force := false, status := .running }
          mutex := some .writer }.maybeScheduleCompaction)
  | finishWrite (write : WriteState α β)
      (mutex : state.mutex = if state.write.phase.keepsMutex then some .writer else none)
      (taken : state.write.step options.toOptions options.opSize .finish = some write)
      (same : write.bgError = state.write.bgError) :
      Moves options state .finishWrite { state with write, mutex := none }
  | finishWriteFailed (write : WriteState α β)
      (mutex : state.mutex = if state.write.phase.keepsMutex then some .writer else none)
      (taken : state.write.step options.toOptions options.opSize .finish = some write)
      (before : state.write.bgError = false) (after : write.bgError = true) :
      Moves options state .finishWrite { state with write, mutex := none }.signalAll
  | updateStats (charged : Option (Nat × Nat)) (free : state.mutex = none) (db : Db α β)
      (charges : db = state.write.db ∨
        ∃ level index, state.write.db.chargeSeek level index = some db) :
      Moves options state (.updateStats charged) (state.setDb db).maybeScheduleCompaction
  | callCompactRange (level : Nat) (first last : Option α) (free : state.mutex = none) :
      Moves options state (.callCompactRange level first last)
        { state with compactRangeCalls := state.compactRangeCalls ++
            [⟨ManualCompaction.new level first last, .ready⟩] }
  | compactRange (id : Nat) (call : CompactRangeCall α) (free : state.mutex = none)
      (isCall : state.compactRangeCalls[id]? = some call) (ready : call.status = .ready) :
      Moves options state (.compactRange id) (state.compactRangeLoop id call)
  | callCompactMemTable (write : WriteState α β) (free : state.mutex = none)
      (taken : state.write.step options.toOptions options.opSize (.arrive none false) =
        some write) :
      Moves options state .callCompactMemTable
        { state with
          write
          compactMemTableCalls := state.compactMemTableCalls ++
            [{ writer := state.write.arrived.length
               status := .ready
               ok := false
               lastSequence := state.write.db.lastSequence
               before := state.write.finished }] }
  | compactMemTable (index : Nat) (call : CompactMemTableCall α β) (status : WriteStatus)
      (free : state.mutex = none) (isCall : state.compactMemTableCalls[index]? = some call)
      (ready : call.status = .ready) (result : state.writeResult call.writer = some status) :
      Moves options state (.compactMemTable index)
        { state with compactMemTableCalls :=
            state.compactMemTableCalls.set index (state.compactMemTableLoop call status) }
  | suspend (free : state.mutex = none) :
      Moves options state .suspendCompaction { state with suspendingCompaction := true }
  | resume (free : state.mutex = none) :
      Moves options state .resumeCompaction { state with suspendingCompaction := false }
  | shutDown (free : state.mutex = none) :
      Moves options state .shutDown
        { state with suspendingCompaction := false, shuttingDown := true }
  | refuse (free : state.mutex = none) (idle : state.background = .idle)
      (scheduled : state.bgCompactionScheduled = true)
      (refused : state.shuttingDown = true ∨ state.write.bgError = true) :
      Moves options state .backgroundCall (state.finishing none true)
  | startFlush (free : state.mutex = none) (idle : state.background = .idle)
      (scheduled : state.bgCompactionScheduled = true) (running : state.shuttingDown = false)
      (noError : state.write.bgError = false) (full : state.write.db.imm.isSome = true) :
      Moves options state .backgroundCall (state.startFlush none)
  | startManual (id : Nat) (call : CompactRangeCall α) (free : state.mutex = none)
      (idle : state.background = .idle) (scheduled : state.bgCompactionScheduled = true)
      (running : state.shuttingDown = false) (noError : state.write.bgError = false)
      (manual : state.manualCompaction = some id)
      (isCall : state.compactRangeCalls[id]? = some call) :
      Moves options state .backgroundCall (state.startManual options id call)
  | startAutomatic (free : state.mutex = none) (idle : state.background = .idle)
      (scheduled : state.bgCompactionScheduled = true) (running : state.shuttingDown = false)
      (noError : state.write.bgError = false) (noManual : state.manualCompaction = none) :
      Moves options state .backgroundCall (state.startAutomatic options)
  | tableBuilt (number : Nat) (inside : Option (CompactionJob α β)) (imm : List (Entry α β))
      (free : state.mutex = none) (isBackground : state.background = .buildingTable number inside)
      (full : state.write.db.imm = some imm) :
      Moves options state (.tableBuilt true)
        { state with
          background := .loggingFlush (state.completeEdit
            (((writeLevel0Table options.toOptions (some state.write.db.version) number imm
              {}).setPrevLogNumber 0).setLogNumber state.write.logNumber)) inside }
  | tableFailed (number : Nat) (inside : Option (CompactionJob α β)) (succeeds : Bool)
      (free : state.mutex = none) (isBackground : state.background = .buildingTable number inside)
      (failed : succeeds = false ∨ state.shuttingDown = true) :
      Moves options state (.tableBuilt succeeds) (state.recordBackgroundError.afterFlush inside)
  | flushLogged (edit : VersionEdit α β) (inside : Option (CompactionJob α β)) (succeeds : Bool)
      (free : state.mutex = none) (isBackground : state.background = .loggingFlush edit inside) :
      Moves options state (.flushLogged succeeds) (state.flushLogged edit inside succeeds)
  | moveLogged (edit : VersionEdit α β) (succeeds : Bool) (free : state.mutex = none)
      (isBackground : state.background = .loggingMove edit) :
      Moves options state (.moveLogged succeeds)
        ((state.logged edit succeeds).finishing none succeeds)
  | visit (job : CompactionJob α β) (entry : Entry α β) (rest : List (Entry α β))
      (free : state.mutex = none) (isBackground : state.background = .compacting job)
      (remaining : job.remaining = entry :: rest) :
      Moves options state .visit (state.visit options job entry rest)
  | flushInside (job : CompactionJob α β) (free : state.mutex = none)
      (isBackground : state.background = .compacting job)
      (full : state.write.db.imm.isSome = true) :
      Moves options state .flushInside (state.startFlush (some job))
  | endLoop (job : CompactionJob α β) (free : state.mutex = none)
      (isBackground : state.background = .compacting job) (done : job.remaining = []) :
      Moves options state (.endLoop true)
        { state with
          background := .loggingResults (state.completeEdit (installEdit job.compaction
            (job.loop.finish.outputs.map (Output.toFile options.toOptions)))) job }
  | endLoopFailed (job : CompactionJob α β) (free : state.mutex = none)
      (isBackground : state.background = .compacting job) :
      Moves options state (.endLoop false)
        (state.recordBackgroundError.finishing job.manual false)
  | resultsLogged (edit : VersionEdit α β) (job : CompactionJob α β) (succeeds : Bool)
      (free : state.mutex = none) (isBackground : state.background = .loggingResults edit job) :
      Moves options state (.resultsLogged succeeds) (state.resultsLogged edit job succeeds)
  | endCall (ok : Bool) (isBackground : state.background = .finishing none ok) :
      Moves options state .endCall (Scheduler.endCall state)
  | endManual (id : Nat) (manualEnd : Option (InternalKey α)) (ok : Bool)
      (isBackground : state.background = .finishing (some (id, manualEnd)) ok)
      (finished : Scheduler α β) (finishes : state.finishManual manualEnd ok = some finished) :
      Moves options state .endCall finished.endCall

variable {options : SchedulerOptions α β} {state state' : Scheduler α β}

theorem writeStep_eq_some {action : WriteAction α β}
    (taken : state.writeStep options action = some state') :
    ∃ write, state.write.step options.toOptions options.opSize action = some write ∧
      state' = { state with write } := by
  obtain ⟨write, stepped, rfl⟩ := Option.map_eq_some_iff.mp taken
  exact ⟨write, stepped, rfl⟩

theorem leaveRoom_moves {action : WriteAction α β} {newLogFails : Bool} (inRoom : state.InRoom)
    (reason : action = .newLogFails ∨ action = .buildGroup ∧ (state.write.bgError = true ∨
      state.room.force = false ∨ state.suspendingCompaction = true))
    (taken : state.leaveRoom options action = some state') :
    state.Moves options (.makeRoom newLogFails) state' := by
  obtain ⟨left, stepped, rfl⟩ := Option.map_eq_some_iff.mp taken
  obtain ⟨write, queued, rfl⟩ := writeStep_eq_some stepped
  exact .leave newLogFails inRoom action reason write queued

/-- The rounds of `MakeRoomForWrite`. -/
theorem makeRoomForWrite_moves {newLogFails : Bool} (inRoom : state.InRoom)
    (taken : state.makeRoomForWrite options newLogFails = some state') :
    state.Moves options (.makeRoom newLogFails) state' := by
  simp only [makeRoomForWrite] at taken
  split at taken
  · rename_i bgError
    exact leaveRoom_moves inRoom (Or.inr ⟨rfl, Or.inl bgError⟩) taken
  split at taken
  · cases taken
    exact .delay newLogFails inRoom
  split at taken
  · rename_i fits
    simp only [Bool.and_eq_true, Bool.not_eq_true'] at fits
    exact leaveRoom_moves inRoom (Or.inr ⟨rfl, Or.inr (Or.inl fits.1)⟩) taken
  split at taken
  · rename_i suspending
    exact leaveRoom_moves inRoom (Or.inr ⟨rfl, Or.inr (Or.inr suspending)⟩) taken
  rename_i active
  split at taken
  · rename_i waiting
    cases taken
    exact .awaitImm newLogFails inRoom waiting
  split at taken
  · cases taken
    exact .awaitLevel0 newLogFails inRoom
  split at taken
  · exact leaveRoom_moves inRoom (Or.inl rfl) taken
  rename_i newLog
  obtain ⟨switched, stepped, rfl⟩ := Option.map_eq_some_iff.mp taken
  obtain ⟨write, queued, rfl⟩ := writeStep_eq_some stepped
  rw [Bool.not_eq_true] at active newLog
  subst newLog
  rw [if_neg (by simp [active])]
  exact .switch inRoom active write queued

theorem finishWrite_moves (taken : state.finishWrite options = some state') :
    state.Moves options .finishWrite state' := by
  by_cases mutex : state.mutex = if state.write.phase.keepsMutex then some .writer else none
  · rw [finishWrite, if_pos mutex] at taken
    obtain ⟨finished, stepped, rfl⟩ := Option.map_eq_some_iff.mp taken
    obtain ⟨write, queued, rfl⟩ := writeStep_eq_some stepped
    have grows : state.write.bgError = true → write.bgError = true := by
      intro isError
      cases WriteState.step_moves queued with
      | finish group status syncError last phase isLast => simp [isError]
      | leaves _ status phase reason => exact isError
    simp only
    split
    · rename_i records
      simp only [Bool.and_eq_true, Bool.not_eq_true'] at records
      exact .finishWriteFailed write mutex queued records.1 records.2
    · rename_i keeps
      refine .finishWrite write mutex queued ?_
      cases before : state.write.bgError with
      | true => exact grows before
      | false => simpa [before] using keeps
  · rw [finishWrite, if_neg mutex] at taken
    cases taken

theorem backgroundCall_moves (free : state.mutex = none) (idle : state.background = .idle)
    (scheduled : state.bgCompactionScheduled = true)
    (taken : state.backgroundCall options = some state') :
    state.Moves options .backgroundCall state' := by
  rw [backgroundCall] at taken
  split at taken
  · rename_i refused
    cases taken
    exact .refuse free idle scheduled (by simpa using refused)
  rename_i accepted
  simp only [Bool.or_eq_true, not_or, Bool.not_eq_true] at accepted
  split at taken
  · rename_i full
    cases taken
    exact .startFlush free idle scheduled accepted.1 accepted.2 full
  split at taken
  · rename_i id manual
    obtain ⟨call, isCall, rfl⟩ := Option.map_eq_some_iff.mp taken
    exact .startManual id call free idle scheduled accepted.1 accepted.2 manual isCall
  · rename_i noManual
    cases taken
    exact .startAutomatic free idle scheduled accepted.1 accepted.2 noManual

theorem tableBuilt_moves {number : Nat} {inside : Option (CompactionJob α β)} {succeeds : Bool}
    (free : state.mutex = none) (isBackground : state.background = .buildingTable number inside)
    (taken : state.tableBuilt options number inside succeeds = some state') :
    state.Moves options (.tableBuilt succeeds) state' := by
  obtain ⟨imm, full, rfl⟩ := Option.map_eq_some_iff.mp taken
  split
  · rename_i built
    simp only [Bool.and_eq_true, Bool.not_eq_true'] at built
    rw [built.1]
    exact .tableBuilt number inside imm free isBackground full
  · rename_i failed
    refine .tableFailed number inside succeeds free isBackground ?_
    cases succeeds with
    | false => exact Or.inl rfl
    | true => exact Or.inr (by simpa using failed)

theorem endLoop_moves {job : CompactionJob α β} {succeeds : Bool} (free : state.mutex = none)
    (isBackground : state.background = .compacting job)
    (taken : state.endLoop options job succeeds = some state') :
    state.Moves options (.endLoop succeeds) state' := by
  cases succeeds with
  | true =>
    rw [endLoop, if_pos rfl] at taken
    split at taken
    · rename_i done
      cases taken
      exact .endLoop job free isBackground done
    · cases taken
  | false =>
    cases taken
    exact .endLoopFailed job free isBackground

theorem callerStep_moves {action : SchedulerAction α β} (free : state.mutex = none)
    (taken : state.callerStep options action = some state') :
    state.Moves options action state' := by
  cases action with
  | write action =>
    rw [callerStep] at taken
    split at taken
    · rename_i locks
      obtain ⟨write, stepped, rfl⟩ := writeStep_eq_some taken
      exact .queue action write (Or.inr ⟨locks, free⟩) stepped
    · cases taken
  | lead =>
    obtain ⟨leading, stepped, rfl⟩ := Option.map_eq_some_iff.mp taken
    obtain ⟨write, queued, rfl⟩ := writeStep_eq_some stepped
    exact .lead write free queued _ rfl
  | updateStats charged =>
    cases charged with
    | none =>
      cases taken
      exact .updateStats none free state.write.db (Or.inl rfl)
    | some place =>
      obtain ⟨db, charges, rfl⟩ := Option.map_eq_some_iff.mp taken
      exact .updateStats (some place) free db (Or.inr ⟨_, _, charges⟩)
  | callCompactRange level first last =>
    rw [callerStep] at taken
    split at taken
    · cases taken
      exact .callCompactRange level first last free
    · cases taken
  | compactRange id =>
    obtain ⟨call, isCall, stepped⟩ := Option.bind_eq_some_iff.mp taken
    split at stepped
    · rename_i ready
      cases stepped
      exact .compactRange id call free isCall ready
    · cases stepped
  | callCompactMemTable =>
    rw [callerStep] at taken
    obtain ⟨arrived, stepped, rfl⟩ := Option.map_eq_some_iff.mp taken
    obtain ⟨write, queued, rfl⟩ := writeStep_eq_some stepped
    exact .callCompactMemTable write free queued
  | compactMemTable index =>
    obtain ⟨call, isCall, stepped⟩ := Option.bind_eq_some_iff.mp taken
    split at stepped
    · rename_i ready
      obtain ⟨status, result, rfl⟩ := Option.map_eq_some_iff.mp stepped
      exact .compactMemTable index call status free isCall ready result
    · cases stepped
  | suspendCompaction => cases taken; exact .suspend free
  | resumeCompaction => cases taken; exact .resume free
  | shutDown => cases taken; exact .shutDown free
  | _ => cases taken

theorem backgroundStep_moves {action : SchedulerAction α β} (free : state.mutex = none)
    (taken : state.backgroundStep options action = some state') :
    state.Moves options action state' := by
  cases action with
  | backgroundCall =>
    simp only [backgroundStep] at taken
    split at taken
    · rename_i idle
      split at taken
      · rename_i scheduled
        exact backgroundCall_moves free idle scheduled taken
      · cases taken
    · cases taken
  | tableBuilt succeeds =>
    simp only [backgroundStep] at taken
    split at taken
    · rename_i number inside isBackground
      exact tableBuilt_moves free isBackground taken
    · cases taken
  | flushLogged succeeds =>
    simp only [backgroundStep] at taken
    split at taken
    · rename_i edit inside isBackground
      cases taken
      exact .flushLogged edit inside succeeds free isBackground
    · cases taken
  | moveLogged succeeds =>
    simp only [backgroundStep] at taken
    split at taken
    · rename_i edit isBackground
      cases taken
      exact .moveLogged edit succeeds free isBackground
    · cases taken
  | visit =>
    simp only [backgroundStep] at taken
    split at taken
    · rename_i job isBackground
      split at taken
      · cases taken
      · rename_i entry rest remaining
        cases taken
        exact .visit job entry rest free isBackground remaining
    · cases taken
  | flushInside =>
    simp only [backgroundStep] at taken
    split at taken
    · rename_i job isBackground
      split at taken
      · rename_i full
        cases taken
        exact .flushInside job free isBackground full.2
      · cases taken
    · cases taken
  | endLoop succeeds =>
    simp only [backgroundStep] at taken
    split at taken
    · rename_i job isBackground
      exact endLoop_moves free isBackground taken
    · cases taken
  | resultsLogged succeeds =>
    simp only [backgroundStep] at taken
    split at taken
    · rename_i edit job isBackground
      cases taken
      exact .resultsLogged edit job succeeds free isBackground
    · cases taken
  | _ => cases taken

/-- Every step is one of the moves. -/
theorem step_moves {action : SchedulerAction α β} (taken : state.step options action = some state') :
    state.Moves options action state' := by
  have shared : (if state.mutex = none then
      (state.callerStep options action).or (state.backgroundStep options action) else none) =
        some state' → state.Moves options action state' := by
    intro taken
    split at taken
    · rename_i free
      rcases Option.or_eq_some_iff.mp taken with caller | ⟨_, background⟩
      · exact callerStep_moves free caller
      · exact backgroundStep_moves free background
    · cases taken
  cases action with
  | write action =>
    rw [step] at taken
    split at taken
    · rename_i unlocked
      obtain ⟨write, stepped, rfl⟩ := writeStep_eq_some taken
      exact .queue action write (Or.inl unlocked) stepped
    split at taken
    · rename_i free
      exact callerStep_moves free taken
    · cases taken
  | makeRoom newLogFails =>
    rw [step] at taken
    split at taken
    · rename_i inRoom
      exact makeRoomForWrite_moves inRoom taken
    · cases taken
  | finishWrite => exact finishWrite_moves taken
  | endCall =>
    simp only [step] at taken
    split at taken
    · rename_i manual ok isBackground
      obtain ⟨finished, finishes, rfl⟩ := Option.map_eq_some_iff.mp taken
      cases manual with
      | none =>
        cases finishes
        exact .endCall ok isBackground
      | some request => exact .endManual request.1 request.2 ok isBackground finished finishes
    · cases taken
  | _ => exact shared taken

end Scheduler

end LevelDb
