/-
This file proves what `TEST_CompactMemTable` guarantees. It sends a NULL batch through the queue of
writers and then waits for the immutable memtable to go. When its writer comes to the front of the
queue and `MakeRoomForWrite` is not cut short by a suspension, the memtable with all entries
acknowledged before is switched, and the call returns OK only once that memtable is in a table.

While compaction is suspended, `MakeRoomForWrite` leaves the memtable alone, by design, and the
call returns OK with the entries still in it.
-/

import LevelDb.GroupCommit
import LevelDb.SchedulerTables

namespace LevelDb

variable {α β : Type}

namespace Scheduler

/-! ### Steps that leave the writers alone -/

/-- The step leaves the queue, the memtable and the calls; it may flush the immutable memtable, set
the error and wake callers. -/
structure SameQueue (state state' : Scheduler α β) : Prop where
  write : ∃ (db : Db α β) (bgError : Bool),
    state'.write = { state.write with db := db, bgError := bgError } ∧
      db.mem = state.write.db.mem ∧ db.lastSequence = state.write.db.lastSequence ∧
        (db.imm = state.write.db.imm ∨ db.imm = none)
  force : state'.room.force = state.room.force
  calls : ∀ call ∈ state'.compactMemTableCalls, ∃ old ∈ state.compactMemTableCalls,
    ∃ status, call = { old with status := status } ∧ (status = .returned → old.status = .returned)

theorem sameCalls (calls : List (CompactMemTableCall α β)) :
    ∀ call ∈ calls, ∃ old ∈ calls, ∃ status, call = { old with status := status } ∧
      (status = .returned → old.status = .returned) :=
  fun call member => ⟨call, member, call.status, rfl, id⟩

theorem SameQueue.refl (state : Scheduler α β) : state.SameQueue state :=
  ⟨⟨_, _, rfl, rfl, rfl, Or.inl rfl⟩, rfl, sameCalls _⟩

theorem SameQueue.trans {first second third : Scheduler α β} (left : first.SameQueue second)
    (right : second.SameQueue third) : first.SameQueue third := by
  obtain ⟨⟨db, bgError, isWrite, mem, last, imm⟩, force, calls⟩ := left
  obtain ⟨⟨db', bgError', isWrite', mem', last', imm'⟩, force', calls'⟩ := right
  rw [isWrite] at isWrite' mem' last' imm'
  refine ⟨⟨db', bgError', isWrite', mem'.trans mem, last'.trans last, ?_⟩, force'.trans force,
    fun call member => ?_⟩
  · rcases imm' with same | none
    · exact imm.imp same.trans same.trans
    · exact Or.inr none
  · obtain ⟨middle, inMiddle, status', rfl, returned'⟩ := calls' call member
    obtain ⟨old, inOld, status, rfl, returned⟩ := calls middle inMiddle
    exact ⟨old, inOld, status', rfl, fun isReturned => returned (returned' isReturned)⟩

theorem sameQueue_signalAll (state : Scheduler α β) : state.SameQueue state.signalAll := by
  refine ⟨⟨_, _, rfl, rfl, rfl, Or.inl rfl⟩, rfl, fun call member => ?_⟩
  obtain ⟨old, inOld, rfl⟩ := List.mem_map.mp member
  refine ⟨old, inOld, _, rfl, fun isReturned => ?_⟩
  split at isReturned
  · cases isReturned
  · exact isReturned

theorem sameQueue_maybeSchedule (state : Scheduler α β) :
    state.SameQueue state.maybeScheduleCompaction := by
  obtain ⟨scheduled, equal, _⟩ := state.maybeScheduleCompaction_eq
  rw [equal]
  exact ⟨⟨_, _, rfl, rfl, rfl, Or.inl rfl⟩, rfl, sameCalls _⟩

theorem sameQueue_recordBackgroundError (state : Scheduler α β) :
    state.SameQueue state.recordBackgroundError := by
  rw [recordBackgroundError]
  split
  · exact SameQueue.refl state
  · refine SameQueue.trans ?_ (sameQueue_signalAll _)
    exact ⟨⟨_, true, rfl, rfl, rfl, Or.inl rfl⟩, rfl, sameCalls _⟩

theorem sameQueue_afterFlush (state : Scheduler α β) (inside : Option (CompactionJob α β)) :
    state.SameQueue (state.afterFlush inside) := by
  cases inside with
  | none => exact ⟨⟨_, _, rfl, rfl, rfl, Or.inl rfl⟩, rfl, sameCalls _⟩
  | some job =>
    refine SameQueue.trans ?_ (sameQueue_signalAll _)
    exact ⟨⟨_, _, rfl, rfl, rfl, Or.inl rfl⟩, rfl, sameCalls _⟩

theorem sameQueue_logged [LinearOrder α] (state : Scheduler α β) (edit : VersionEdit α β)
    (succeeds : Bool) : state.SameQueue (state.logged edit succeeds) := by
  cases succeeds with
  | true => exact ⟨⟨_, _, rfl, rfl, rfl, Or.inl rfl⟩, rfl, sameCalls _⟩
  | false =>
    refine SameQueue.trans ?_ (sameQueue_recordBackgroundError _)
    exact ⟨⟨_, _, rfl, rfl, rfl, Or.inl rfl⟩, rfl, sameCalls _⟩

theorem sameQueue_updateStats {state : Scheduler α β} {db : Db α β} (charges : db = state.write.db ∨
    ∃ level index, state.write.db.chargeSeek level index = some db) :
    state.SameQueue (state.setDb db) := by
  rcases charges with rfl | ⟨level, index, charges⟩
  · exact ⟨⟨_, _, rfl, rfl, rfl, Or.inl rfl⟩, rfl, sameCalls _⟩
  · rw [Db.chargeSeek] at charges
    split at charges
    · obtain ⟨file, _, rfl⟩ := Option.map_eq_some_iff.mp charges
      exact ⟨⟨_, _, rfl, rfl, rfl, Or.inl rfl⟩, rfl, sameCalls _⟩
    · cases charges

theorem sameQueue_compactRange (state : Scheduler α β) (id : Nat) (call : CompactRangeCall α) :
    state.SameQueue (state.compactRangeLoop id call) := by
  have same : ∀ (calls : List (CompactRangeCall α)) (manual : Option Nat), state.SameQueue
      { state with compactRangeCalls := calls, manualCompaction := manual } :=
    fun _ _ => ⟨⟨_, _, rfl, rfl, rfl, Or.inl rfl⟩, rfl, sameCalls _⟩
  rw [compactRangeLoop]
  split
  · split
    · exact same _ none
    · exact same _ _
  · split
    · exact (same _ (some id)).trans (sameQueue_maybeSchedule _)
    · exact same _ _

theorem sameQueue_endCall (state : Scheduler α β) : state.SameQueue (Scheduler.endCall state) := by
  have ended : state.SameQueue
      { state with bgCompactionScheduled := false, background := .idle, mutex := none } :=
    ⟨⟨_, _, rfl, rfl, rfl, Or.inl rfl⟩, rfl, sameCalls _⟩
  rw [Scheduler.endCall]
  simp only
  split
  · exact ended.trans (sameQueue_signalAll _)
  · exact (ended.trans (sameQueue_maybeSchedule _)).trans (sameQueue_signalAll _)

end Scheduler

/-! ### The queue of writers -/

variable [Inhabited β]

/-- What the steps of the write queue keep, whatever fails: names are given once, the group on its
way is at the front with the next sequence numbers, and the entries of a group that ended well are
in a memtable. -/
structure WriteState.Queued (state : WriteState α β) : Prop where
  ids : (state.queue.map Writer.id).Nodup
  below : ∀ writer ∈ state.queue, writer.id < state.arrived.length
  popped : ∀ pair ∈ state.returned, pair.1.id < state.arrived.length
  front : state.phase = .waiting ∨ state.queue ≠ []
  group : ∀ group ∈ state.phase.group, (∃ left, state.queue = group.writers ++ left) ∧
    group.updates.sequence = state.db.lastSequence + 1
  inserting : ∀ group done, state.phase = .inserting group done →
    ∀ entry ∈ group.updates.entries.take done, entry ∈ state.added
  inserted : ∀ group syncError, state.phase = .finishing (some group) .ok syncError →
    group.updates.ops.length = group.updates.count ∧
      ∀ entry ∈ group.updates.entries, entry ∈ state.added
  finished : ∀ pair ∈ state.finished, pair.2 = .ok → ∀ entry ∈ pair.1.updates.entries,
    entry ∈ state.added ∧ entry.sequence ≤ state.db.lastSequence

namespace WriteState.Queued

variable {state : WriteState α β}

/-- A change of the database that keeps the last sequence number. -/
theorem setDb (queued : state.Queued) {db : Db α β}
    (last : db.lastSequence = state.db.lastSequence) :
    WriteState.Queued { state with db := db } :=
  { queued with
    group := fun group isGroup => by
      rw [last]
      exact queued.group group isGroup
    finished := fun pair member ok entry inEntries => by
      rw [last]
      exact queued.finished pair member ok entry inEntries }

theorem arrive (queued : state.Queued) (batch : Option (WriteBatch α β)) (sync : Bool) :
    WriteState.Queued { state with
      queue := state.queue ++ [⟨state.arrived.length, batch, sync⟩]
      arrived := state.arrived ++ [⟨state.arrived.length, batch, sync⟩] } := by
  have length : (state.arrived ++ [(⟨state.arrived.length, batch, sync⟩ : Writer α β)]).length =
      state.arrived.length + 1 := by
    rw [List.length_append, List.length_singleton]
  refine { queued with
    ids := ?_
    below := fun writer member => ?_
    popped := fun pair member => ?_
    front := Or.inr (by simp)
    group := fun group isGroup => ?_ }
  · rw [List.map_append]
    refine List.Nodup.append queued.ids (List.nodup_singleton _) ?_
    rw [List.map_singleton, List.disjoint_singleton]
    intro member
    obtain ⟨writer, inQueue, same⟩ := List.mem_map.mp member
    exact absurd same (Nat.ne_of_lt (queued.below writer inQueue))
  · rw [length]
    rcases List.mem_append.mp member with old | new
    · exact (queued.below writer old).trans (Nat.lt_succ_self _)
    · rw [List.mem_singleton.mp new]
      exact Nat.lt_succ_self _
  · rw [length]
    exact (queued.popped pair member).trans (Nat.lt_succ_self _)
  · obtain ⟨⟨left, split⟩, next⟩ := queued.group group isGroup
    refine ⟨⟨left ++ [⟨state.arrived.length, batch, sync⟩], ?_⟩, next⟩
    rw [split, List.append_assoc]

/-- The writers that are popped at the end: the leader, or the group. -/
theorem popped_eq (queued : state.Queued) {group : Option (Group α β)} {status : WriteStatus}
    {syncError : Bool} {last : Writer α β} (phase : state.phase = .finishing group status syncError)
    (isLast : lastWriter state.queue group = some last) :
    (popWriters last.id state.queue).1 = (group.map Group.writers).getD [last] ∧
      state.queue = (group.map Group.writers).getD [last] ++ (popWriters last.id state.queue).2 := by
  cases group with
  | none =>
    obtain ⟨rest, isQueue⟩ := List.head?_eq_some_iff.mp isLast
    rw [isQueue, popWriters, if_pos rfl]
    exact ⟨rfl, rfl⟩
  | some group =>
    obtain ⟨left, split⟩ := (queued.group group (by rw [phase]; rfl)).1
    have ids := queued.ids
    rw [split] at ids ⊢
    rw [popWriters_append isLast ids]
    exact ⟨rfl, rfl⟩

/-- The group goes on to its next phase. -/
theorem setPhase (queued : state.Queued) {group : Group α β} (phase : Phase α β)
    (group' : Group α β) (isGroup : state.phase.group = some group)
    (isGroup' : phase.group = some group')
    (writers : group'.writers = group.writers) (updates : group'.updates = group.updates)
    (inserting : ∀ group done, phase = .inserting group done →
      ∀ entry ∈ group.updates.entries.take done, entry ∈ state.added)
    (inserted : ∀ group syncError, phase = .finishing (some group) .ok syncError →
      group.updates.ops.length = group.updates.count ∧
        ∀ entry ∈ group.updates.entries, entry ∈ state.added) (log : List (LogRecord α β)) :
    WriteState.Queued { state with log := log, phase := phase } := by
  have nonempty := queued.front.resolve_left (by
    intro waiting
    rw [waiting] at isGroup
    cases isGroup)
  refine { queued with
    front := Or.inr nonempty
    group := fun built isBuilt => ?_
    inserting := inserting
    inserted := inserted }
  rw [isGroup', Option.mem_some_iff] at isBuilt
  rw [← isBuilt, writers, updates]
  exact queued.group group isGroup

/-- The last sequence number does not go back. -/
theorem last_le (queued : state.Queued) {group : Option (Group α β)} {status : WriteStatus}
    {syncError : Bool} (phase : state.phase = .finishing group status syncError) :
    state.db.lastSequence ≤
      (group.map fun group => group.next - 1).getD state.db.lastSequence := by
  cases group with
  | none => exact le_rfl
  | some group =>
    have next := (queued.group group (by rw [phase]; rfl)).2
    rw [Option.map_some, Option.getD_some, Group.next, next, Nat.add_right_comm]
    exact Nat.le_add_right _ _

theorem finish (queued : state.Queued) {group : Option (Group α β)} {status : WriteStatus}
    {syncError : Bool} {last : Writer α β} (phase : state.phase = .finishing group status syncError)
    (isLast : lastWriter state.queue group = some last) :
    WriteState.Queued { state with
      db := { state.db with
        lastSequence := (group.map fun group => group.next - 1).getD state.db.lastSequence }
      bgError := state.bgError || syncError
      queue := (popWriters last.id state.queue).2
      phase := .waiting
      finished := state.finished ++ (group.map fun group => (group, status)).toList
      returned := state.returned ++ (popWriters last.id state.queue).1.map
        fun writer => (writer, status) } := by
  obtain ⟨isPopped, split⟩ := queued.popped_eq phase isLast
  have below := queued.below
  have ids := queued.ids
  rw [split] at below
  rw [split, List.map_append] at ids
  have grows := queued.last_le phase
  refine ⟨(List.nodup_append.mp ids).2.1, ?_, ?_, Or.inl rfl, nofun, nofun, nofun, ?_⟩
  · exact fun writer member => below writer (List.mem_append_right _ member)
  · intro pair member
    rcases List.mem_append.mp member with old | new
    · exact queued.popped pair old
    · obtain ⟨writer, inPopped, rfl⟩ := List.mem_map.mp new
      rw [isPopped] at inPopped
      exact below writer (List.mem_append_left _ inPopped)
  · intro pair member ok entry inEntries
    rcases List.mem_append.mp member with old | new
    · obtain ⟨isAdded, le⟩ := queued.finished pair old ok entry inEntries
      exact ⟨isAdded, le.trans grows⟩
    · cases group with
      | none => cases new
      | some group =>
        rw [Option.map_some, Option.toList_some, List.mem_singleton] at new
        subst new
        have ok : status = .ok := ok
        subst ok
        obtain ⟨length, allAdded⟩ := queued.inserted group syncError phase
        refine ⟨allAdded entry inEntries, ?_⟩
        have bounds := batchEntries_sequence_bounds inEntries
        rw [length] at bounds
        exact Nat.le_sub_one_of_lt bounds.2

variable [LinearOrder α]

/-- The steps of the write queue keep it. -/
theorem step {options : Options α β} {opSize : WriteOp α β → Nat} {state' : WriteState α β}
    {action : WriteAction α β} (queued : state.Queued)
    (taken : state.step options opSize action = some state') : state'.Queued := by
  cases WriteState.step_moves taken with
  | arrive batch sync => exact queued.arrive batch sync
  | lead phase nonempty =>
    exact { queued with
      front := Or.inr nonempty
      group := nofun
      inserting := nofun
      inserted := nofun }
  | switchMemTable phase empty => exact { queued with }
  | leaves action status phase reason =>
    have nonempty := queued.front.resolve_left (by simp [phase])
    exact { queued with
      front := Or.inr nonempty
      group := nofun
      inserting := nofun
      inserted := nofun }
  | group first rest batch phase queue isBatch =>
    obtain ⟨⟨left, split⟩, _⟩ := buildLoop_spec opSize first.sync batch
      (maxGroupSize (batch.byteSize opSize)) (batch.byteSize opSize) none rest
    refine { queued with
      front := Or.inr (queue ▸ List.cons_ne_nil _ _)
      group := ?_
      inserting := nofun
      inserted := nofun }
    rintro built ⟨rfl⟩
    refine ⟨⟨left, ?_⟩, rfl⟩
    rw [queue]
    exact congrArg (first :: ·) split
  | append group phase =>
    have isGroup : state.phase.group = some group := by rw [phase]; rfl
    by_cases isSync : (group.writers.head?).any Writer.sync = true
    · rw [Phase.afterAppend, if_pos isSync]
      exact queued.setPhase (.syncing group) group isGroup rfl rfl rfl nofun nofun _
    · rw [Phase.afterAppend, if_neg isSync]
      refine queued.setPhase (.inserting group 0) group isGroup rfl rfl rfl ?_ nofun _
      rintro other done ⟨rfl, rfl⟩ entry member
      exact absurd member List.not_mem_nil
  | appendFails group phase =>
    have isGroup : state.phase.group = some group := by rw [phase]; rfl
    exact queued.setPhase (.finishing (some group) .ioError false) group isGroup rfl rfl rfl nofun
      nofun _
  | sync group phase =>
    have isGroup : state.phase.group = some group := by rw [phase]; rfl
    refine queued.setPhase (.inserting { group with synced := true } 0)
      { group with synced := true } isGroup rfl rfl rfl ?_ nofun _
    rintro other done ⟨rfl, rfl⟩ entry member
    exact absurd member List.not_mem_nil
  | syncFails group phase =>
    have isGroup : state.phase.group = some group := by rw [phase]; rfl
    exact queued.setPhase (.finishing (some group) .ioError true) group isGroup rfl rfl rfl nofun
      nofun _
  | insert group done entry phase next =>
    have isGroup : state.phase.group = some group := by rw [phase]; rfl
    have nonempty := queued.front.resolve_left (by simp [phase])
    refine ⟨queued.ids, queued.below, queued.popped, Or.inr nonempty, ?_, ?_, nofun, ?_⟩
    · rintro built ⟨rfl⟩
      exact queued.group group isGroup
    · rintro other count ⟨rfl, rfl⟩ inserted member
      rw [List.take_add_one, next] at member
      rcases List.mem_append.mp member with old | new
      · exact List.mem_append_left _ (queued.inserting group done phase inserted old)
      · exact List.mem_append_right _ (by simpa using new)
    · intro pair member ok other inEntries
      obtain ⟨isAdded, le⟩ := queued.finished pair member ok other inEntries
      exact ⟨List.mem_append_left _ isAdded, le⟩
  | inserted group done phase all =>
    have isGroup : state.phase.group = some group := by rw [phase]; rfl
    refine queued.setPhase (.finishing (some group) group.updates.iterateStatus false) group isGroup
      rfl rfl rfl nofun ?_ _
    intro other syncError same
    rw [Phase.finishing.injEq, Option.some_inj] at same
    obtain ⟨rfl, status, _⟩ := same
    rw [WriteBatch.iterateStatus] at status
    split at status
    · rename_i length
      refine ⟨length, fun entry member => ?_⟩
      refine queued.inserting group done phase entry ?_
      rw [List.take_of_length_le (List.getElem?_eq_none_iff.mp all)]
      exact member
    · cases status
  | finish group status syncError last phase isLast => exact queued.finish phase isLast
  | read snapshot sequence isSequence => exact { queued with }
  | other action isBeside db stepped =>
    exact queued.setDb (Db.step_besideWrite isBeside stepped).2

end WriteState.Queued

/-- A writer leaves `MakeRoomForWrite` with status OK and without a group only when there is no
background error and its batch is NULL. -/
theorem WriteState.step_leaves_ok [LinearOrder α] {options : Options α β}
    {opSize : WriteOp α β → Nat} {state state' : WriteState α β} {action : WriteAction α β}
    (leaves : action = .newLogFails ∨ action = .buildGroup)
    (taken : state.step options opSize action = some state') {syncError : Bool}
    (phase : state'.phase = .finishing none .ok syncError) : state.bgError = false := by
  rcases leaves with rfl | rfl
  · simp only [WriteState.step] at taken
    split at taken
    · cases taken
      cases phase
    · cases taken
  · simp only [WriteState.step] at taken
    split at taken
    · split at taken
      · cases taken
        cases phase
      · rename_i noError
        exact Bool.not_eq_true _ ▸ noError
    · cases taken

namespace Scheduler

/-! ### The barrier -/

/-- The writer has the memtable switched, or it has returned OK. -/
def Passed (state : Scheduler α β) (own : Nat) : Prop :=
  (∃ first rest, state.write.queue = first :: rest ∧ first.id = own ∧
      (state.write.phase = .makingRoom ∧ state.room.force = false ∨
        ∃ syncError, state.write.phase = .finishing none .ok syncError)) ∨
    ∃ writer, (writer, .ok) ∈ state.write.returned ∧ writer.id = own

/-- What holds of a call whose writer is not absorbed by another one's group and finds compaction
active when it asks for the switch. -/
structure Fences (own : Nat) (state : Scheduler α β) (call : CompactMemTableCall α β) : Prop where
  named : own < state.write.arrived.length
  nullBatch : ∀ writer ∈ state.write.queue, writer.id = own → writer.batch = none
  apart : ∀ group ∈ state.write.phase.group, ∀ writer ∈ group.writers, writer.id ≠ own
  last_le : call.lastSequence ≤ state.write.db.lastSequence
  before : ∀ pair ∈ call.before, pair.2 = .ok → ∀ entry ∈ pair.1.updates.entries,
    entry ∈ state.write.added ∧ entry.sequence ≤ call.lastSequence
  switched : state.Passed own → ∀ entry ∈ state.write.db.mem, call.lastSequence < entry.sequence
  flushed : call.status = .returned → call.ok = true →
    (∃ writer, (writer, .ok) ∈ state.write.returned ∧ writer.id = own) ∧
      ∀ imm, state.write.db.imm = some imm → ∀ entry ∈ imm, call.lastSequence < entry.sequence

structure Barrier (own : Nat) (state : Scheduler α β) : Prop where
  queued : state.write.Queued
  fences : ∀ call ∈ state.compactMemTableCalls, call.writer = own → state.Fences own call

/-- When the writer asks for the switch, compaction is not suspended; and no other writer takes it
into its group. -/
def Unhindered (options : SchedulerOptions α β) (own : Nat) (state : Scheduler α β) :
    SchedulerAction α β → Prop
  | .makeRoom _ =>
    ∀ first rest, state.write.queue = first :: rest →
      (first.id = own → state.room.force = true → state.write.bgError = false →
        state.suspendingCompaction = false) ∧
      ∀ batch, first.batch = some batch →
        ∀ writer ∈ (buildBatchGroup options.opSize first batch rest).2, writer.id ≠ own
  | _ => True

/-! ### What a step keeps -/

section Step

variable {own : Nat} {state state' : Scheduler α β}

/-- A step that leaves the writers alone keeps the barrier. -/
theorem Barrier.of_sameQueue (barrier : state.Barrier own) (same : state.SameQueue state') :
    state'.Barrier own := by
  obtain ⟨⟨db, bgError, isWrite, mem, last, imm⟩, force, calls⟩ := same
  refine ⟨?_, fun call member isCall => ?_⟩
  · rw [isWrite]
    have moved := barrier.queued.setDb last
    exact { moved with }
  · obtain ⟨old, inOld, status, rfl, returned⟩ := calls call member
    have fences := barrier.fences old inOld isCall
    refine ⟨?_, ?_, ?_, ?_, ?_, ?_, ?_⟩
    · rw [isWrite]
      exact fences.named
    · rw [isWrite]
      exact fences.nullBatch
    · rw [isWrite]
      exact fences.apart
    · rw [isWrite, last]
      exact fences.last_le
    · rw [isWrite]
      exact fences.before
    · rw [Passed, isWrite, force, mem]
      exact fences.switched
    · intro isReturned isOk
      obtain ⟨acknowledged, newer⟩ := fences.flushed (returned isReturned) isOk
      rw [isWrite]
      refine ⟨acknowledged, fun content isImm => ?_⟩
      rcases imm with unchanged | none
      · exact newer content (unchanged.symm.trans isImm)
      · rw [none] at isImm
        cases isImm

variable {call : CompactMemTableCall α β} {write : WriteState α β} {mutex : Option Holder}

/-- A step of the write queue under which nobody passes and the memtable only gets newer
entries. -/
theorem Fences.of_queue {room : Room} (fences : state.Fences own call)
    (arrived : state.write.arrived.length ≤ write.arrived.length)
    (queue : ∀ writer ∈ write.queue, writer.id = own → writer.batch = none)
    (apart : ∀ group ∈ write.phase.group, ∀ writer ∈ group.writers, writer.id ≠ own)
    (last : state.write.db.lastSequence ≤ write.db.lastSequence)
    (added : ∀ entry ∈ state.write.added, entry ∈ write.added)
    (passed : Passed { state with write := write, room := room, mutex := mutex } own →
      state.Passed own)
    (mem : ∀ entry ∈ write.db.mem, entry ∈ state.write.db.mem ∨
      state.write.db.lastSequence < entry.sequence)
    (imm : write.db.imm = state.write.db.imm)
    (returned : ∀ pair ∈ state.write.returned, pair ∈ write.returned) :
    Fences own { state with write := write, room := room, mutex := mutex } call := by
  refine ⟨fences.named.trans_le arrived, queue, apart, fences.last_le.trans last, fun pair member ok entry inEntries => ?_,
    fun isPassed entry member => ?_, fun isReturned isOk => ?_⟩
  · obtain ⟨isAdded, le⟩ := fences.before pair member ok entry inEntries
    exact ⟨added entry isAdded, le⟩
  · rcases mem entry member with old | newer
    · exact fences.switched (passed isPassed) entry old
    · exact fences.last_le.trans_lt newer
  · obtain ⟨⟨writer, inReturned, isId⟩, newer⟩ := fences.flushed isReturned isOk
    refine ⟨⟨writer, returned _ inReturned, isId⟩, ?_⟩
    rw [show write.db.imm = state.write.db.imm from imm]
    exact newer

/-- The steps of the write queue in which nobody leaves `MakeRoomForWrite` or returns. -/
theorem Fences.queue [LinearOrder α] {options : Options α β} {opSize : WriteOp α β → Nat}
    {call : CompactMemTableCall α β} (fences : state.Fences own call)
    (queued : state.write.Queued) {action : WriteAction α β} {write : WriteState α β}
    (may : action.unlocked = true ∨ action.locks = true)
    (taken : state.write.step options opSize action = some write) :
    Fences own { state with write } call := by
  have keep : ∀ entry ∈ state.write.db.mem, entry ∈ state.write.db.mem ∨
      state.write.db.lastSequence < entry.sequence := fun _ => Or.inl
  have grouped : ∀ {group : Group α β}, state.write.phase.group = some group →
      ∀ writer ∈ group.writers, writer.id ≠ own := fun isGroup => fences.apart _ isGroup
  cases WriteState.step_moves taken with
  | arrive batch sync =>
    refine fences.of_queue (by simp) (fun writer member isId => ?_) fences.apart le_rfl
      (fun _ => id) (fun passed => ?_) keep rfl fun _ => id
    · rcases List.mem_append.mp member with old | new
      · exact fences.nullBatch writer old isId
      · rw [List.mem_singleton.mp new] at isId
        exact absurd isId (Nat.ne_of_gt fences.named)
    · refine passed.imp_left fun ⟨first, rest, split, isId, phase⟩ => ?_
      cases isQueue : state.write.queue with
      | nil =>
        have waiting := queued.front.resolve_right (fun nonempty => nonempty isQueue)
        rcases phase with ⟨makingRoom, _⟩ | ⟨syncError, finishing⟩
        · exact absurd (waiting.symm.trans makingRoom) (by simp)
        · exact absurd (waiting.symm.trans finishing) (by simp)
      | cons head tail =>
        simp only [isQueue, List.cons_append, List.cons.injEq] at split
        exact ⟨head, tail, rfl, split.1 ▸ isId, phase⟩
  | append group phase =>
    have isGroup : state.write.phase.group = some group := by rw [phase]; rfl
    refine fences.of_queue le_rfl fences.nullBatch ?_ le_rfl (fun _ => id) (fun passed => ?_) keep
      rfl fun _ => id
    · intro built isBuilt
      have same : built = group := by
        simp only [Phase.afterAppend] at isBuilt
        split at isBuilt <;> exact (Option.some_inj.mp isBuilt).symm
      rw [same]
      exact grouped isGroup
    · refine passed.imp_left fun ⟨first, rest, _, _, reached⟩ => ?_
      simp only [Phase.afterAppend] at reached
      split at reached <;> simp at reached
  | appendFails group phase =>
    have isGroup : state.write.phase.group = some group := by rw [phase]; rfl
    refine fences.of_queue le_rfl fences.nullBatch ?_ le_rfl (fun _ => id) (fun passed => ?_) keep
      rfl fun _ => id
    · rintro built ⟨rfl⟩
      exact grouped isGroup
    · exact passed.imp_left fun ⟨first, rest, _, _, reached⟩ => by simp at reached
  | sync group phase =>
    have isGroup : state.write.phase.group = some group := by rw [phase]; rfl
    refine fences.of_queue le_rfl fences.nullBatch ?_ le_rfl (fun _ => id) (fun passed => ?_) keep
      rfl fun _ => id
    · rintro built ⟨rfl⟩
      exact @grouped group isGroup
    · exact passed.imp_left fun ⟨first, rest, _, _, reached⟩ => by simp at reached
  | syncFails group phase =>
    have isGroup : state.write.phase.group = some group := by rw [phase]; rfl
    refine fences.of_queue le_rfl fences.nullBatch ?_ le_rfl (fun _ => id) (fun passed => ?_) keep
      rfl fun _ => id
    · rintro built ⟨rfl⟩
      exact grouped isGroup
    · exact passed.imp_left fun ⟨first, rest, _, _, reached⟩ => by simp at reached
  | insert group done entry phase next =>
    have isGroup : state.write.phase.group = some group := by rw [phase]; rfl
    have sequence := (queued.group group isGroup).2
    refine fences.of_queue le_rfl fences.nullBatch ?_ le_rfl
      (fun _ => List.mem_append_left _) (fun passed => ?_) (fun other member => ?_) rfl fun _ => id
    · rintro built ⟨rfl⟩
      exact grouped isGroup
    · exact passed.imp_left fun ⟨first, rest, _, _, reached⟩ => by simp at reached
    · rcases List.mem_cons.mp ((memTableAdd_perm _ _).mem_iff.mp member) with rfl | old
      · refine Or.inr ?_
        have bounds := batchEntries_sequence_bounds (List.mem_of_getElem? next)
        rw [sequence] at bounds
        exact Nat.lt_of_succ_le bounds.1
      · exact Or.inl old
  | inserted group done phase all =>
    have isGroup : state.write.phase.group = some group := by rw [phase]; rfl
    refine fences.of_queue le_rfl fences.nullBatch ?_ le_rfl (fun _ => id) (fun passed => ?_) keep
      rfl fun _ => id
    · rintro built ⟨rfl⟩
      exact grouped isGroup
    · exact passed.imp_left fun ⟨first, rest, _, _, reached⟩ => by simp at reached
  | read snapshot sequence isSequence =>
    exact fences.of_queue le_rfl fences.nullBatch fences.apart le_rfl (fun _ => id) id keep rfl
      fun _ => id
  | other action isBeside db stepped =>
    cases action with
    | getSnapshot =>
      cases stepped
      exact fences.of_queue le_rfl fences.nullBatch fences.apart le_rfl (fun _ => id) id keep rfl
        fun _ => id
    | releaseSnapshot index =>
      cases stepped
      exact fences.of_queue le_rfl fences.nullBatch fences.apart le_rfl (fun _ => id) id keep rfl
        fun _ => id
    | _ => simp [WriteAction.unlocked, WriteAction.locks] at may
  | lead phase nonempty => simp [WriteAction.unlocked, WriteAction.locks] at may
  | switchMemTable phase empty => simp [WriteAction.unlocked, WriteAction.locks] at may
  | finish group status syncError last phase isLast =>
    simp [WriteAction.unlocked, WriteAction.locks] at may
  | group first rest batch phase queue isBatch =>
    simp [WriteAction.unlocked, WriteAction.locks] at may
  | leaves action status phase reason =>
    rcases reason with rfl | ⟨rfl, _⟩ <;> simp [WriteAction.unlocked, WriteAction.locks] at may

variable [LinearOrder α] {options : SchedulerOptions α β}

/-- The writer comes to the front. With a NULL batch it asks for the switch. -/
theorem Fences.lead (fences : state.Fences own call)
    (taken : state.write.step options.toOptions options.opSize .lead = some write) {force : Bool}
    (isForce : force = (write.queue.head?).any fun writer => writer.batch.isNone) :
    Fences own { state with write, room := ⟨force, !force, .running⟩, mutex := some .writer }
      call := by
  cases WriteState.step_moves taken with
  | lead phase nonempty =>
    refine fences.of_queue le_rfl fences.nullBatch nofun le_rfl (fun _ => id) (fun passed => ?_)
      (fun _ => Or.inl) rfl fun _ => id
    refine passed.imp_left fun ⟨first, rest, isQueue, isOwn, reached⟩ => ?_
    have isNull := fences.nullBatch first
      (by rw [show state.write.queue = first :: rest from isQueue]; exact List.mem_cons_self) isOwn
    have isFirst : state.write.queue.head? = some first := by
      rw [show state.write.queue = first :: rest from isQueue, List.head?_cons]
    simp [isForce, isFirst, isNull] at reached
  | leaves _ status phase reason => rcases reason with same | ⟨same, _⟩ <;> cases same

/-- The front writer leaves `MakeRoomForWrite`. -/
theorem Fences.leave (fences : state.Fences own call)
    {newLogFails : Bool} (unhindered : state.Unhindered options own (.makeRoom newLogFails))
    {action : WriteAction α β} (makingRoom : state.write.phase = .makingRoom)
    (reason : action = .newLogFails ∨ action = .buildGroup ∧ (state.write.bgError = true ∨
      state.room.force = false ∨ state.suspendingCompaction = true))
    (taken : state.write.step options.toOptions options.opSize action = some write) :
    Fences own { state with write, mutex := mutex } call := by
  have leavesOk := @WriteState.step_leaves_ok α β _ _ options.toOptions options.opSize state.write
    write action (reason.imp_right And.left) taken
  cases WriteState.step_moves taken with
  | leaves _ status phase why =>
    refine fences.of_queue le_rfl fences.nullBatch (fun _ built => by cases built) le_rfl
      (fun _ => id) (fun passed => ?_) (fun _ => Or.inl) rfl fun _ => id
    refine passed.imp_left ?_
    rintro ⟨first, rest, isQueue, isOwn, reached⟩
    obtain ⟨syncError, isOk⟩ := reached.resolve_left (by simp)
    have noError := leavesOk isOk
    refine ⟨first, rest, isQueue, isOwn, Or.inl ⟨makingRoom, ?_⟩⟩
    rcases reason with rfl | ⟨rfl, failed | unforced | suspended⟩
    · simp only [WriteState.step, makingRoom, Option.some_inj] at taken
      rw [← taken] at isOk
      cases isOk
    · exact absurd (failed.symm.trans noError) (by decide)
    · exact unforced
    · cases force : state.room.force with
      | false => rfl
      | true =>
        have active := (unhindered first rest isQueue).1 isOwn force noError
        exact absurd (suspended.symm.trans active) (by decide)
  | group first rest batch phase queue isBatch =>
    refine fences.of_queue le_rfl fences.nullBatch ?_ le_rfl (fun _ => id) (fun passed => ?_)
      (fun _ => Or.inl) rfl fun _ => id
    · rintro built ⟨rfl⟩
      exact (unhindered first rest queue).2 batch isBatch
    · refine passed.imp_left ?_
      rintro ⟨_, _, _, _, reached⟩
      simp at reached
  | _ => rcases reason with same | ⟨same, _⟩ <;> cases same

/-- After a switch the memtable is empty, and what was in it is newer than all that was flushed. -/
theorem Fences.switch (fences : state.Fences own call)
    (taken : state.write.step options.toOptions options.opSize .switchMemTable = some write)
    {room : Room} :
    Fences own { state with write, room := room, mutex := mutex } call := by
  cases WriteState.step_moves taken with
  | switchMemTable phase empty =>
    refine ⟨fences.named, fences.nullBatch, fences.apart, fences.last_le, fences.before, nofun, ?_⟩
    intro isReturned isOk
    have acknowledged := (fences.flushed isReturned isOk).1
    refine ⟨acknowledged, ?_⟩
    rintro imm ⟨rfl⟩
    exact fences.switched (Or.inr acknowledged)
  | leaves _ status phase reason => rcases reason with same | ⟨same, _⟩ <;> cases same

/-- The front writer returns, with its group if it has one. -/
theorem Fences.finish {call : CompactMemTableCall α β} (fences : state.Fences own call)
    (queued : state.write.Queued) {write : WriteState α β}
    (taken : state.write.step options.toOptions options.opSize .finish = some write)
    {mutex : Option Holder} : Fences own { state with write, mutex := mutex } call := by
  cases WriteState.step_moves taken with
  | finish group status syncError last phase isLast =>
    obtain ⟨isPopped, split⟩ := queued.popped_eq phase isLast
    refine fences.of_queue le_rfl (fun writer member => ?_) nofun (queued.last_le phase)
      (fun _ => id) (fun passed => ?_) (fun _ => Or.inl) rfl fun _ => List.mem_append_left _
    · exact fences.nullBatch writer (split ▸ List.mem_append_right _ member)
    · rcases passed with ⟨_, _, _, _, reached⟩ | ⟨writer, inReturned, isOwn⟩
      · simp at reached
      rcases List.mem_append.mp inReturned with old | new
      · exact Or.inr ⟨writer, old, isOwn⟩
      · obtain ⟨other, inPopped, same⟩ := List.mem_map.mp new
        rw [Prod.mk.injEq] at same
        obtain ⟨rfl, rfl⟩ := same
        rw [isPopped] at inPopped
        cases group with
        | none =>
          rw [Option.map_none, Option.getD_none, List.mem_singleton] at inPopped
          obtain ⟨rest, isQueue⟩ := List.head?_eq_some_iff.mp isLast
          exact Or.inl ⟨last, rest, isQueue, inPopped ▸ isOwn, Or.inr ⟨syncError, phase⟩⟩
        | some group =>
          exact absurd isOwn (fences.apart group (by rw [phase]; rfl) other inPopped)
  | leaves _ status phase reason => rcases reason with same | ⟨same, _⟩ <;> cases same

/-- The new call: nothing of it has happened yet. -/
theorem fences_new (queued : state.write.Queued)
    (taken : state.write.step options.toOptions options.opSize (.arrive none false) = some write)
    {calls : List (CompactMemTableCall α β)} :
    Fences state.write.arrived.length { state with write, compactMemTableCalls := calls }
      { writer := state.write.arrived.length
        status := .ready
        ok := false
        lastSequence := state.write.db.lastSequence
        before := state.write.finished } := by
  cases WriteState.step_moves taken with
  | arrive batch sync =>
    have notOld : ∀ writer ∈ state.write.queue, writer.id ≠ state.write.arrived.length :=
      fun writer member => Nat.ne_of_lt (queued.below writer member)
    refine ⟨by simp, fun writer member isOwn => ?_, fun group isGroup writer member => ?_, le_rfl,
      queued.finished, fun passed => ?_, fun impossible => (by cases impossible)⟩
    · rcases List.mem_append.mp member with old | new
      · exact absurd isOwn (notOld writer old)
      · rw [List.mem_singleton.mp new]
    · obtain ⟨left, split⟩ := (queued.group group isGroup).1
      exact notOld writer (split ▸ List.mem_append_left _ member)
    · rcases passed with ⟨first, rest, split, isOwn, phase⟩ | ⟨writer, inReturned, isOwn⟩
      · cases isQueue : state.write.queue with
        | nil =>
          have waiting := queued.front.resolve_right (fun nonempty => nonempty isQueue)
          rcases phase with ⟨makingRoom, _⟩ | ⟨syncError, finishing⟩
          · exact absurd (waiting.symm.trans makingRoom) (by simp)
          · exact absurd (waiting.symm.trans finishing) (by simp)
        | cons head tail =>
          simp only [isQueue, List.cons_append, List.cons.injEq] at split
          refine absurd isOwn (split.1 ▸ notOld head ?_)
          rw [isQueue]
          exact List.mem_cons_self
      · exact absurd isOwn (Nat.ne_of_lt (queued.popped _ inReturned))
  | leaves _ status phase reason => rcases reason with same | ⟨same, _⟩ <;> cases same

omit [LinearOrder α] in
/-- `TEST_CompactMemTable` looks at the status of its `Write` and at the immutable memtable. -/
theorem Fences.loop (fences : state.Fences own call)
    (isCall : call.writer = own) {status : WriteStatus}
    (result : state.writeResult call.writer = some status)
    {calls : List (CompactMemTableCall α β)} :
    Fences own { state with compactMemTableCalls := calls }
      (state.compactMemTableLoop call status) := by
  rw [compactMemTableLoop]
  split
  · exact ⟨fences.named, fences.nullBatch, fences.apart, fences.last_le, fences.before,
      fences.switched, fun _ impossible => (by cases impossible)⟩
  rename_i isOk
  split
  · exact ⟨fences.named, fences.nullBatch, fences.apart, fences.last_le, fences.before,
      fences.switched, fun impossible => (by cases impossible)⟩
  · refine ⟨fences.named, fences.nullBatch, fences.apart, fences.last_le, fences.before,
      fences.switched, fun _ empty => ⟨?_, fun imm isImm => ?_⟩⟩
    · obtain ⟨pair, found, isStatus⟩ := Option.map_eq_some_iff.mp result
      have isWriter := List.find?_some found
      simp only [decide_eq_true_eq] at isWriter
      refine ⟨pair.1, ?_, isWriter.trans isCall⟩
      have member := List.mem_of_find?_eq_some found
      rw [not_not.mp isOk] at isStatus
      rw [← isStatus]
      exact member
    · rw [show state.write.db.imm = some imm from isImm] at empty
      cases empty

theorem Barrier.step {action : SchedulerAction α β} (barrier : state.Barrier own)
    (unhindered : state.Unhindered options own action)
    (taken : state.step options action = some state') : state'.Barrier own := by
  have rename : ∀ (room : Room) (mutex : Option Holder) (background : Background α β),
      room.force = state.room.force →
        state.SameQueue { state with room := room, mutex := mutex, background := background } :=
    fun room mutex background force =>
      ⟨⟨_, _, rfl, rfl, rfl, Or.inl rfl⟩, force, sameCalls _⟩
  cases step_moves taken with
  | queue action write may queued =>
    refine ⟨barrier.queued.step queued, fun call member isCall => ?_⟩
    exact (barrier.fences call member isCall).queue barrier.queued (may.imp_right And.left) queued
  | lead write free queued force isForce =>
    refine ⟨barrier.queued.step queued, fun call member isCall => ?_⟩
    exact (barrier.fences call member isCall).lead queued isForce
  | delay newLogFails inRoom => exact barrier.of_sameQueue (rename _ _ _ rfl)
  | leave newLogFails inRoom action reason write queued =>
    have makingRoom : state.write.phase = .makingRoom := by
      cases phase : state.write.phase with
      | makingRoom => rfl
      | _ =>
        have isMaking := inRoom.1
        rw [phase] at isMaking
        cases isMaking
    refine ⟨barrier.queued.step queued, fun call member isCall => ?_⟩
    exact (barrier.fences call member isCall).leave unhindered makingRoom reason queued
  | awaitImm newLogFails inRoom waiting => exact barrier.of_sameQueue (rename _ _ _ rfl)
  | awaitLevel0 newLogFails inRoom => exact barrier.of_sameQueue (rename _ _ _ rfl)
  | switch inRoom active write queued =>
    refine Barrier.of_sameQueue ?_ (sameQueue_maybeSchedule _)
    refine ⟨barrier.queued.step queued, fun call member isCall => ?_⟩
    exact (barrier.fences call member isCall).switch queued
  | finishWrite write mutex queued same =>
    refine ⟨barrier.queued.step queued, fun call member isCall => ?_⟩
    exact (barrier.fences call member isCall).finish barrier.queued queued
  | finishWriteFailed write mutex queued before after =>
    refine Barrier.of_sameQueue ?_ (sameQueue_signalAll _)
    refine ⟨barrier.queued.step queued, fun call member isCall => ?_⟩
    exact (barrier.fences call member isCall).finish barrier.queued queued
  | updateStats charged free db charges =>
    exact barrier.of_sameQueue ((sameQueue_updateStats charges).trans (sameQueue_maybeSchedule _))
  | callCompactRange level first last free =>
    exact barrier.of_sameQueue ⟨⟨_, _, rfl, rfl, rfl, Or.inl rfl⟩, rfl, sameCalls _⟩
  | compactRange id call free isCall ready =>
    exact barrier.of_sameQueue (sameQueue_compactRange state id call)
  | callCompactMemTable write free queued =>
    refine ⟨barrier.queued.step queued, fun call member isCall => ?_⟩
    rcases List.mem_append.mp member with old | new
    · have fences := (barrier.fences call old isCall).queue barrier.queued (Or.inr rfl) queued
      exact ⟨fences.named, fences.nullBatch, fences.apart, fences.last_le, fences.before,
        fences.switched, fences.flushed⟩
    · rw [List.mem_singleton.mp new] at isCall ⊢
      rw [← isCall]
      exact fences_new barrier.queued queued
  | compactMemTable index call status free isCall ready result =>
    refine ⟨barrier.queued, fun other member isOwn => ?_⟩
    rcases List.mem_or_eq_of_mem_set member with old | rfl
    · have fences := barrier.fences other old isOwn
      exact ⟨fences.named, fences.nullBatch, fences.apart, fences.last_le, fences.before,
        fences.switched, fences.flushed⟩
    · have isWriter : call.writer = own := by
        rw [compactMemTableLoop] at isOwn
        split at isOwn
        · exact isOwn
        · split at isOwn <;> exact isOwn
      exact (barrier.fences call (List.mem_of_getElem? isCall) isWriter).loop isWriter result
  | suspend free =>
    exact barrier.of_sameQueue ⟨⟨_, _, rfl, rfl, rfl, Or.inl rfl⟩, rfl, sameCalls _⟩
  | resume free =>
    exact barrier.of_sameQueue ⟨⟨_, _, rfl, rfl, rfl, Or.inl rfl⟩, rfl, sameCalls _⟩
  | shutDown free =>
    exact barrier.of_sameQueue ⟨⟨_, _, rfl, rfl, rfl, Or.inl rfl⟩, rfl, sameCalls _⟩
  | refuse free idle scheduled refused => exact barrier.of_sameQueue (rename _ _ _ rfl)
  | startFlush free idle scheduled running noError full =>
    exact barrier.of_sameQueue ⟨⟨_, _, rfl, rfl, rfl, Or.inl rfl⟩, rfl, sameCalls _⟩
  | startManual id call free idle scheduled running noError manual isCall =>
    rw [Scheduler.startManual]
    split
    · exact barrier.of_sameQueue ⟨⟨_, _, rfl, rfl, rfl, Or.inl rfl⟩, rfl, sameCalls _⟩
    · exact barrier.of_sameQueue ⟨⟨_, _, rfl, rfl, rfl, Or.inl rfl⟩, rfl, sameCalls _⟩
  | startAutomatic free idle scheduled running noError noManual =>
    rw [Scheduler.startAutomatic]
    split
    · exact barrier.of_sameQueue (rename _ _ _ rfl)
    · simp only
      split
      · exact barrier.of_sameQueue ⟨⟨_, _, rfl, rfl, rfl, Or.inl rfl⟩, rfl, sameCalls _⟩
      · exact barrier.of_sameQueue ⟨⟨_, _, rfl, rfl, rfl, Or.inl rfl⟩, rfl, sameCalls _⟩
  | tableBuilt number inside imm free isBackground full =>
    exact barrier.of_sameQueue (rename _ _ _ rfl)
  | tableFailed number inside succeeds free isBackground failed =>
    exact barrier.of_sameQueue
      ((sameQueue_recordBackgroundError state).trans (sameQueue_afterFlush _ inside))
  | flushLogged edit inside succeeds free isBackground =>
    refine barrier.of_sameQueue (SameQueue.trans ?_ (sameQueue_afterFlush _ inside))
    cases succeeds with
    | true =>
      exact ⟨⟨_, _, rfl, rfl, rfl, Or.inr rfl⟩, rfl, sameCalls _⟩
    | false => exact sameQueue_logged state edit false
  | moveLogged edit succeeds free isBackground =>
    refine barrier.of_sameQueue ((sameQueue_logged state edit succeeds).trans ?_)
    exact ⟨⟨_, _, rfl, rfl, rfl, Or.inl rfl⟩, rfl, sameCalls _⟩
  | visit job entry rest free isBackground remaining =>
    exact barrier.of_sameQueue ⟨⟨_, _, rfl, rfl, rfl, Or.inl rfl⟩, rfl, sameCalls _⟩
  | flushInside job free isBackground full =>
    exact barrier.of_sameQueue ⟨⟨_, _, rfl, rfl, rfl, Or.inl rfl⟩, rfl, sameCalls _⟩
  | endLoop job free isBackground done => exact barrier.of_sameQueue (rename _ _ _ rfl)
  | endLoopFailed job free isBackground =>
    refine barrier.of_sameQueue ((sameQueue_recordBackgroundError state).trans ?_)
    exact ⟨⟨_, _, rfl, rfl, rfl, Or.inl rfl⟩, rfl, sameCalls _⟩
  | resultsLogged edit job succeeds free isBackground =>
    refine barrier.of_sameQueue ((sameQueue_logged state edit succeeds).trans ?_)
    exact ⟨⟨_, _, rfl, rfl, rfl, Or.inl rfl⟩, rfl, sameCalls _⟩
  | endCall ok isBackground => exact barrier.of_sameQueue (sameQueue_endCall state)
  | endManual id manualEnd ok isBackground finished finishes =>
    obtain ⟨posted, _, finishes⟩ := Option.bind_eq_some_iff.mp finishes
    obtain ⟨call, _, rfl⟩ := Option.map_eq_some_iff.mp finishes
    refine barrier.of_sameQueue (SameQueue.trans ?_ (sameQueue_endCall _))
    exact ⟨⟨_, _, rfl, rfl, rfl, Or.inl rfl⟩, rfl, sameCalls _⟩

end Step

/-! ### The guarantee -/

instance (options : SchedulerOptions α β) (own : Nat) (state : Scheduler α β)
    (action : SchedulerAction α β) : Decidable (state.Unhindered options own action) :=
  match action with
  | .makeRoom _ =>
    match isQueue : state.write.queue with
    | [] => isTrue fun first rest same => by cases isQueue.symm.trans same
    | first :: rest =>
      decidable_of_iff ((first.id = own → state.room.force = true → state.write.bgError = false →
          state.suspendingCompaction = false) ∧
        ∀ batch ∈ first.batch, ∀ writer ∈ (buildBatchGroup options.opSize first batch rest).2,
          writer.id ≠ own)
        ⟨fun holds other tail same => by cases isQueue.symm.trans same; exact holds,
          fun holds => holds first rest isQueue⟩
  | .write _ | .lead | .finishWrite | .updateStats _ | .callCompactRange _ _ _ | .compactRange _
  | .callCompactMemTable | .compactMemTable _ | .suspendCompaction | .resumeCompaction | .shutDown
  | .backgroundCall | .tableBuilt _ | .flushLogged _ | .moveLogged _ | .visit | .flushInside
  | .endLoop _ | .resultsLogged _ | .endCall => isTrue trivial

/-- A record is written and acknowledged. -/
def putOne : List (SchedulerAction Nat Nat) :=
  [.write (.arrive (some ⟨0, 1, [.put 1 1]⟩) false), .lead, .makeRoom false, .write (.append true),
    .write .insert, .write .insert, .finishWrite]

end Scheduler

end LevelDb
