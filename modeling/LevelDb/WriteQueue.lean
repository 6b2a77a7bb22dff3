/-
This file models the write path of `DBImpl::Write` as a machine with many writers and readers.
Writers join a queue; the one at its front makes room, merges the batches behind it into a group
(`BuildBatchGroup`), and, with the mutex released, appends the group to the log, syncs it and
inserts its entries one by one into the memtable. It then takes the mutex again, advances the last
sequence number and pops the writers of the group with their status. Between any two of these
steps other writers may arrive, readers may capture what they read from, and the background thread
may work.

Writers whose Write has returned, the groups they were carried by and the entries added to the
memtables are kept as a history of the run.
-/

import LevelDb.Get

namespace LevelDb

variable {α β : Type}

/-- The status a `Write` returns. -/
inductive WriteStatus
  | ok
  | ioError
  | corruption
  | backgroundError
  deriving DecidableEq, Repr

/-! ### Write batches -/

/-- A write batch: the header's sequence number and count, and the records. -/
structure WriteBatch (α β : Type) where
  sequence : Nat
  count : Nat
  ops : List (WriteOp α β)
  deriving DecidableEq, Repr

def kHeader : Nat := 12

namespace WriteBatch

def clear : WriteBatch α β := ⟨0, 0, []⟩

/-- `WriteBatchInternal::Append`. -/
def append (dst src : WriteBatch α β) : WriteBatch α β :=
  { dst with count := dst.count + src.count, ops := dst.ops ++ src.ops }

/-- `WriteBatchInternal::ByteSize`; `opSize` is the encoded length of a record. -/
def byteSize (opSize : WriteOp α β → Nat) (batch : WriteBatch α β) : Nat :=
  kHeader + (batch.ops.map opSize).sum

/-- The count in the header is the number of records. -/
def WellFormed (batch : WriteBatch α β) : Prop := batch.count = batch.ops.length

instance (batch : WriteBatch α β) : Decidable batch.WellFormed :=
  inferInstanceAs (Decidable (_ = _))

/-- The entries `MemTableInserter` adds. -/
def entries [Inhabited β] (batch : WriteBatch α β) : List (Entry α β) :=
  batchEntries batch.sequence batch.ops

/-- What `Iterate` returns once all records were handed over. -/
def iterateStatus (batch : WriteBatch α β) : WriteStatus :=
  if batch.ops.length = batch.count then .ok else .corruption

end WriteBatch

/-! ### Groups -/

/-- A `Writer` in the queue. A NULL batch asks for a memtable switch only. -/
structure Writer (α β : Type) where
  id : Nat
  batch : Option (WriteBatch α β)
  sync : Bool
  deriving DecidableEq, Repr

/-- The records of the writer's batch. -/
def Writer.ops (writer : Writer α β) : List (WriteOp α β) :=
  (writer.batch.map WriteBatch.ops).getD []

/-- The limit on the size of a group, by the size of its first batch. -/
def maxGroupSize (size : Nat) : Nat :=
  if size ≤ 128 * 1024 then size + 128 * 1024 else 1024 * 1024

/-- The loop of `BuildBatchGroup` over the writers behind the first. It returns the temporary
batch, once that is in use, and the writers taken. -/
def buildLoop (opSize : WriteOp α β → Nat) (firstSync : Bool) (first : WriteBatch α β)
    (maxSize : Nat) : Nat → Option (WriteBatch α β) → List (Writer α β) →
      Option (WriteBatch α β) × List (Writer α β)
  | _, result, [] => (result, [])
  | size, result, writer :: rest =>
    if writer.sync && !firstSync then (result, [])
    else
      match writer.batch with
      | none =>
        let taken := buildLoop opSize firstSync first maxSize size result rest
        (taken.1, writer :: taken.2)
      | some batch =>
        if maxSize < size + batch.byteSize opSize then (result, [])
        else
          let merged := (result.getD (WriteBatch.clear.append first)).append batch
          let taken := buildLoop opSize firstSync first maxSize (size + batch.byteSize opSize)
            (some merged) rest
          (taken.1, writer :: taken.2)

/-- `BuildBatchGroup`: the batch to write and the writers whose batches it carries. -/
def buildBatchGroup (opSize : WriteOp α β → Nat) (first : Writer α β) (batch : WriteBatch α β)
    (rest : List (Writer α β)) : WriteBatch α β × List (Writer α β) :=
  let built := buildLoop opSize first.sync batch (maxGroupSize (batch.byteSize opSize))
    (batch.byteSize opSize) none rest
  (built.1.getD batch, first :: built.2)

/-- A group on its way, and whether `Sync` has succeeded since its record was appended. -/
structure Group (α β : Type) where
  writers : List (Writer α β)
  updates : WriteBatch α β
  synced : Bool
  deriving DecidableEq, Repr

/-- The sequence number after those of the group. -/
def Group.next (group : Group α β) : Nat := group.updates.sequence + group.updates.count

/-! ### The machine -/

/-- What the writer at the front of the queue is doing. `inserting` counts the entries it has
added; `finishing` has the group, if one was built, the status and whether the sync failed. -/
inductive Phase (α β : Type)
  | waiting
  | makingRoom
  | logging (group : Group α β)
  | syncing (group : Group α β)
  | inserting (group : Group α β) (done : Nat)
  | finishing (group : Option (Group α β)) (status : WriteStatus) (syncError : Bool)
  deriving DecidableEq, Repr

/-- A record of a log file. -/
structure LogRecord (α β : Type) where
  logNumber : Nat
  contents : WriteBatch α β
  deriving DecidableEq, Repr

/-- What `Get` or `NewIterator` captures under the mutex: the sequence number to read at, the
memtable, which later writes go on filling, the immutable memtable and the version. -/
structure Reader (α β : Type) where
  sequence : Nat
  memTable : Nat
  imm : Option (List (Entry α β))
  version : Version α β

/-- The shared state, and the history of the run: the writers in the order they joined the queue,
the finished groups with their status, the writers that were popped with theirs, and the entries
added to memtables. `frozen` are the memtables before the current one, oldest first. -/
structure WriteState (α β : Type) where
  db : Db α β
  frozen : List (List (Entry α β))
  logNumber : Nat
  log : List (LogRecord α β)
  bgError : Bool
  queue : List (Writer α β)
  phase : Phase α β
  readers : List (Reader α β)
  arrived : List (Writer α β)
  finished : List (Group α β × WriteStatus)
  returned : List (Writer α β × WriteStatus)
  added : List (Entry α β)

def WriteState.start (db : Db α β) (logNumber : Nat) : WriteState α β :=
  { db
    frozen := []
    logNumber
    log := []
    bgError := false
    queue := []
    phase := .waiting
    readers := []
    arrived := []
    finished := []
    returned := []
    added := [] }

/-- The content of a memtable, by its place in the order of their creation. -/
def WriteState.memTable (state : WriteState α β) (index : Nat) : List (Entry α β) :=
  ((state.frozen ++ [state.db.mem])[index]?).getD []

inductive WriteAction (α β : Type)
  | arrive (batch : Option (WriteBatch α β)) (sync : Bool)
  | lead
  | switchMemTable
  | newLogFails
  | buildGroup
  | append (succeeds : Bool)
  | sync (succeeds : Bool)
  | insert
  | finish
  | read (snapshot : Option Nat)
  | other (action : Action α β)

/-- The steps other threads take beside the writers. -/
def Action.besideWrite : Action α β → Bool
  | .write _ => false
  | .switchMemTable => false
  | _ => true

/-- The loop that pops writers up to the last one of the group. -/
def popWriters (last : Nat) : List (Writer α β) → List (Writer α β) × List (Writer α β)
  | [] => ([], [])
  | writer :: rest =>
    if writer.id = last then ([writer], rest)
    else
      let popped := popWriters last rest
      (writer :: popped.1, popped.2)

/-- The writer that `last_writer` points to at the end: the last one of the group, or the writer
itself when no group was built. -/
def lastWriter (queue : List (Writer α β)) : Option (Group α β) → Option (Writer α β)
  | none => queue.head?
  | some group => group.writers.getLast?

variable [LinearOrder α]

/-- The phase after the log record: a leader that asked for it syncs first. -/
def Phase.afterAppend (group : Group α β) : Phase α β :=
  if (group.writers.head?).any Writer.sync then .syncing group else .inserting group 0

/-- One step; `none` when it cannot be taken. -/
def WriteState.step [Inhabited β] (options : Options α β) (opSize : WriteOp α β → Nat)
    (state : WriteState α β) : WriteAction α β → Option (WriteState α β)
  | .arrive batch sync =>
    let writer : Writer α β := ⟨state.arrived.length, batch, sync⟩
    some { state with
      queue := state.queue ++ [writer]
      arrived := state.arrived ++ [writer] }
  | .lead =>
    match state.phase, state.queue with
    | .waiting, _ :: _ => some { state with phase := .makingRoom }
    | _, _ => none
  | .switchMemTable =>
    match state.phase with
    | .makingRoom =>
      if state.bgError then none
      else state.db.switchMemTable.map fun db =>
        { state with
          db := db
          frozen := state.frozen ++ [state.db.mem]
          logNumber := state.db.nextFileNumber }
    | _ => none
  | .newLogFails =>
    match state.phase with
    | .makingRoom => some { state with phase := .finishing none .ioError false }
    | _ => none
  | .buildGroup =>
    match state.phase, state.queue with
    | .makingRoom, first :: rest =>
      if state.bgError then some { state with phase := .finishing none .backgroundError false }
      else
        match first.batch with
        | none => some { state with phase := .finishing none .ok false }
        | some batch =>
          let built := buildBatchGroup opSize first batch rest
          let updates := { built.1 with sequence := state.db.lastSequence + 1 }
          if state.db.lastSequence + updates.count ≤ kMaxSequenceNumber then
            some { state with phase := .logging ⟨built.2, updates, false⟩ }
          else none
    | _, _ => none
  | .append succeeds =>
    match state.phase with
    | .logging group =>
      if succeeds then
        some { state with
          log := state.log ++ [⟨state.logNumber, group.updates⟩]
          phase := Phase.afterAppend group }
      else some { state with phase := .finishing (some group) .ioError false }
    | _ => none
  | .sync succeeds =>
    match state.phase with
    | .syncing group =>
      if succeeds then some { state with phase := .inserting { group with synced := true } 0 }
      else some { state with phase := .finishing (some group) .ioError true }
    | _ => none
  | .insert =>
    match state.phase with
    | .inserting group done =>
      match group.updates.entries[done]? with
      | some entry =>
        some { state with
          db := { state.db with mem := memTableAdd state.db.mem entry }
          added := state.added ++ [entry]
          phase := .inserting group (done + 1) }
      | none =>
        some { state with phase := .finishing (some group) group.updates.iterateStatus false }
    | _ => none
  | .finish =>
    match state.phase with
    | .finishing group status syncError =>
      (lastWriter state.queue group).map fun last =>
        let popped := popWriters last.id state.queue
        { state with
          db := { state.db with
            lastSequence := (group.map fun group => group.next - 1).getD state.db.lastSequence }
          bgError := state.bgError || syncError
          queue := popped.2
          phase := .waiting
          finished := state.finished ++ (group.map fun group => (group, status)).toList
          returned := state.returned ++ popped.1.map fun writer => (writer, status) }
    | _ => none
  | .read snapshot =>
    (match snapshot with
      | none => some state.db.lastSequence
      | some index => state.db.snapshots[index]?).map fun sequence =>
        let reader : Reader α β := ⟨sequence, state.frozen.length, state.db.imm, state.db.version⟩
        { state with readers := state.readers ++ [reader] }
  | .other action =>
    if action.besideWrite then (state.db.step options action).map fun db => { state with db := db }
    else none

/-! ### What a step does -/

/-- Beside the writers nothing changes the memtable or the last sequence number. -/
theorem Db.step_besideWrite [Inhabited β] {options : Options α β} {db db' : Db α β}
    {action : Action α β} (isBeside : action.besideWrite = true)
    (taken : db.step options action = some db') :
    db'.mem = db.mem ∧ db'.lastSequence = db.lastSequence := by
  cases action with
  | write ops => cases isBeside
  | switchMemTable => cases isBeside
  | getSnapshot =>
    cases taken
    exact ⟨rfl, rfl⟩
  | releaseSnapshot index =>
    cases taken
    exact ⟨rfl, rfl⟩
  | compactMemTable =>
    obtain ⟨imm, _, rfl⟩ := Option.map_eq_some_iff.mp taken
    exact ⟨rfl, rfl⟩
  | chargeSeek level index =>
    rw [Db.step, Db.chargeSeek] at taken
    split at taken
    · obtain ⟨file, _, rfl⟩ := Option.map_eq_some_iff.mp taken
      exact ⟨rfl, rfl⟩
    · cases taken
  | backgroundCompaction =>
    obtain ⟨compaction, _, result⟩ := Option.map_eq_some_iff.mp taken
    split at result
    · subst result
      exact ⟨db.logAndApply_mem _, db.logAndApply_lastSequence _⟩
    · subst result
      exact ⟨db.doCompaction_mem _ _, db.doCompaction_lastSequence _ _⟩
  | manualCompaction level first last =>
    obtain ⟨compaction, _, rfl⟩ := Option.map_eq_some_iff.mp taken
    exact ⟨Db.doCompaction_mem _ _ _, Db.doCompaction_lastSequence _ _ _⟩

/-- The ways a step changes the state. -/
inductive WriteState.Moves [Inhabited β] (options : Options α β) (opSize : WriteOp α β → Nat)
    (state : WriteState α β) : WriteAction α β → WriteState α β → Prop
  | arrive (batch : Option (WriteBatch α β)) (sync : Bool) :
      Moves options opSize state (.arrive batch sync)
        { state with
          queue := state.queue ++ [⟨state.arrived.length, batch, sync⟩]
          arrived := state.arrived ++ [⟨state.arrived.length, batch, sync⟩] }
  | lead (phase : state.phase = .waiting) (nonempty : state.queue ≠ []) :
      Moves options opSize state .lead { state with phase := .makingRoom }
  | switchMemTable (phase : state.phase = .makingRoom) (empty : state.db.imm = none) :
      Moves options opSize state .switchMemTable
        { state with
          db := { state.db with
            mem := []
            imm := some state.db.mem
            nextFileNumber := state.db.nextFileNumber + 1 }
          frozen := state.frozen ++ [state.db.mem]
          logNumber := state.db.nextFileNumber }
  | leaves (action : WriteAction α β) (status : WriteStatus) (phase : state.phase = .makingRoom)
      (reason : action = .newLogFails ∨ action = .buildGroup ∧ (state.bgError = true ∨
        ∃ first ∈ state.queue.head?, first.batch = none)) :
      Moves options opSize state action { state with phase := .finishing none status false }
  | group (first : Writer α β) (rest : List (Writer α β)) (batch : WriteBatch α β)
      (phase : state.phase = .makingRoom) (queue : state.queue = first :: rest)
      (isBatch : first.batch = some batch) :
      Moves options opSize state .buildGroup
        { state with phase := .logging ⟨(buildBatchGroup opSize first batch rest).2,
          { (buildBatchGroup opSize first batch rest).1 with
            sequence := state.db.lastSequence + 1 }, false⟩ }
  | append (group : Group α β) (phase : state.phase = .logging group) :
      Moves options opSize state (.append true)
        { state with
          log := state.log ++ [⟨state.logNumber, group.updates⟩]
          phase := Phase.afterAppend group }
  | appendFails (group : Group α β) (phase : state.phase = .logging group) :
      Moves options opSize state (.append false)
        { state with phase := .finishing (some group) .ioError false }
  | sync (group : Group α β) (phase : state.phase = .syncing group) :
      Moves options opSize state (.sync true)
        { state with phase := .inserting { group with synced := true } 0 }
  | syncFails (group : Group α β) (phase : state.phase = .syncing group) :
      Moves options opSize state (.sync false)
        { state with phase := .finishing (some group) .ioError true }
  | insert (group : Group α β) (done : Nat) (entry : Entry α β)
      (phase : state.phase = .inserting group done)
      (next : group.updates.entries[done]? = some entry) :
      Moves options opSize state .insert
        { state with
          db := { state.db with mem := memTableAdd state.db.mem entry }
          added := state.added ++ [entry]
          phase := .inserting group (done + 1) }
  | inserted (group : Group α β) (done : Nat) (phase : state.phase = .inserting group done)
      (all : group.updates.entries[done]? = none) :
      Moves options opSize state .insert
        { state with phase := .finishing (some group) group.updates.iterateStatus false }
  | finish (group : Option (Group α β)) (status : WriteStatus) (syncError : Bool)
      (last : Writer α β) (phase : state.phase = .finishing group status syncError)
      (isLast : lastWriter state.queue group = some last) :
      Moves options opSize state .finish
        { state with
          db := { state.db with
            lastSequence := (group.map fun group => group.next - 1).getD state.db.lastSequence }
          bgError := state.bgError || syncError
          queue := (popWriters last.id state.queue).2
          phase := .waiting
          finished := state.finished ++ (group.map fun group => (group, status)).toList
          returned := state.returned ++ (popWriters last.id state.queue).1.map
            fun writer => (writer, status) }
  | read (snapshot : Option Nat) (sequence : Nat)
      (taken : sequence = state.db.lastSequence ∨ sequence ∈ state.db.snapshots) :
      Moves options opSize state (.read snapshot)
        { state with readers := state.readers ++
            [⟨sequence, state.frozen.length, state.db.imm, state.db.version⟩] }
  | other (action : Action α β) (isBeside : action.besideWrite = true) (db : Db α β)
      (taken : state.db.step options action = some db) :
      Moves options opSize state (.other action) { state with db := db }

theorem WriteState.step_moves [Inhabited β] {options : Options α β} {opSize : WriteOp α β → Nat}
    {state state' : WriteState α β} {action : WriteAction α β}
    (taken : state.step options opSize action = some state') :
    state.Moves options opSize action state' := by
  cases action with
  | arrive batch sync =>
    cases taken
    exact .arrive batch sync
  | lead =>
    simp only [WriteState.step] at taken
    split at taken
    · rename_i phase queue
      cases taken
      exact .lead phase (by rw [queue]; exact List.cons_ne_nil _ _)
    · cases taken
  | switchMemTable =>
    simp only [WriteState.step, Db.switchMemTable] at taken
    split at taken
    · rename_i phase
      split at taken
      · cases taken
      · split at taken
        · rename_i isNone
          cases taken
          exact .switchMemTable phase (Option.isNone_iff_eq_none.mp isNone)
        · cases taken
    · cases taken
  | newLogFails =>
    simp only [WriteState.step] at taken
    split at taken
    · rename_i phase
      cases taken
      exact .leaves _ _ phase (Or.inl rfl)
    · cases taken
  | buildGroup =>
    simp only [WriteState.step] at taken
    split at taken
    · rename_i first rest phase queue
      split at taken
      · rename_i bgError
        cases taken
        exact .leaves _ _ phase (Or.inr ⟨rfl, Or.inl bgError⟩)
      · split at taken
        · rename_i isNull
          cases taken
          exact .leaves _ _ phase (Or.inr ⟨rfl, Or.inr ⟨first, by rw [queue]; rfl, isNull⟩⟩)
        · rename_i batch isBatch
          split at taken
          · cases taken
            exact .group first rest batch phase queue isBatch
          · cases taken
    · cases taken
  | append succeeds =>
    simp only [WriteState.step] at taken
    split at taken
    · rename_i group phase
      cases succeeds with
      | true => cases taken; exact .append group phase
      | false => cases taken; exact .appendFails group phase
    · cases taken
  | sync succeeds =>
    simp only [WriteState.step] at taken
    split at taken
    · rename_i group phase
      cases succeeds with
      | true => cases taken; exact .sync group phase
      | false => cases taken; exact .syncFails group phase
    · cases taken
  | insert =>
    simp only [WriteState.step] at taken
    split at taken
    · rename_i group done phase
      split at taken
      · rename_i entry next
        cases taken
        exact .insert group done entry phase next
      · rename_i all
        cases taken
        exact .inserted group done phase all
    · cases taken
  | finish =>
    simp only [WriteState.step] at taken
    split at taken
    · rename_i group status syncError phase
      obtain ⟨last, isLast, rfl⟩ := Option.map_eq_some_iff.mp taken
      exact .finish group status syncError last phase isLast
    · cases taken
  | read snapshot =>
    simp only [WriteState.step] at taken
    obtain ⟨sequence, isSequence, rfl⟩ := Option.map_eq_some_iff.mp taken
    refine .read snapshot sequence ?_
    cases snapshot with
    | none => exact Or.inl (Option.some.inj isSequence).symm
    | some index => exact Or.inr (List.mem_of_getElem? isSequence)
  | other action =>
    simp only [WriteState.step] at taken
    split at taken
    · rename_i isBeside
      obtain ⟨db, stepped, rfl⟩ := Option.map_eq_some_iff.mp taken
      exact .other action isBeside db stepped
    · cases taken

end LevelDb
