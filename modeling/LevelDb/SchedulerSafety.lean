/-
This file proves what the scheduler keeps true over every interleaving of its callers with the
background thread.

Pending work is never left unscheduled: whoever creates work calls `MaybeScheduleCompaction`, and
so does the end of a background call. `ResumeCompaction` alone clears a flag that held
scheduling back without doing so. `SuspendCompaction` only sets that flag, so it stops the
background thread when nothing is scheduled and no immutable memtable waits.
-/

import LevelDb.Scheduler

namespace LevelDb

variable {α β : Type}

/-! ### What the steps leave alone -/

/-- The steps of the write queue that touch neither the immutable memtable nor the version. -/
def WriteAction.keepsTables : WriteAction α β → Bool
  | .switchMemTable => false
  | .other .getSnapshot | .other (.releaseSnapshot _) => true
  | .other _ => false
  | _ => true

theorem WriteAction.keepsTables_of_locks {action : WriteAction α β}
    (may : action.unlocked = true ∨ action.locks = true) : action.keepsTables = true := by
  cases action with
  | switchMemTable => simp [WriteAction.unlocked, WriteAction.locks] at may
  | other action =>
    cases action with
    | getSnapshot => rfl
    | releaseSnapshot index => rfl
    | _ => simp [WriteAction.unlocked, WriteAction.locks] at may
  | _ => rfl

section Queue

variable [LinearOrder α] [Inhabited β] {options : Options α β} {opSize : WriteOp α β → Nat}
  {state state' : WriteState α β} {action : WriteAction α β}

theorem WriteState.step_keepsTables (keeps : action.keepsTables = true)
    (taken : state.step options opSize action = some state') :
    state'.db.imm = state.db.imm ∧ state'.db.version = state.db.version := by
  cases WriteState.step_moves taken with
  | switchMemTable phase empty => cases keeps
  | other action isBeside db taken =>
    cases action with
    | getSnapshot =>
      cases taken
      exact ⟨rfl, rfl⟩
    | releaseSnapshot index =>
      cases taken
      exact ⟨rfl, rfl⟩
    | _ => cases keeps
  | _ => exact ⟨rfl, rfl⟩

theorem WriteState.step_bgError (notFinish : action ≠ .finish)
    (taken : state.step options opSize action = some state') :
    state'.bgError = state.bgError := by
  cases WriteState.step_moves taken with
  | finish group status syncError last phase isLast => exact absurd rfl notFinish
  | _ => rfl

end Queue

theorem Db.chargeSeek_imm [LinearOrder α] {db db' : Db α β} {level index : Nat}
    (charges : db.chargeSeek level index = some db') : db'.imm = db.imm := by
  rw [Db.chargeSeek] at charges
  split at charges
  · obtain ⟨file, _, rfl⟩ := Option.map_eq_some_iff.mp charges
    rfl
  · cases charges

namespace Scheduler

theorem maybeScheduleCompaction_eq (state : Scheduler α β) :
    ∃ scheduled, state.maybeScheduleCompaction =
      { state with bgCompactionScheduled := scheduled } ∧
        (state.bgCompactionScheduled = true → scheduled = true) := by
  rw [maybeScheduleCompaction]
  split
  · exact ⟨_, rfl, id⟩
  split
  · exact ⟨_, rfl, id⟩
  split
  · exact ⟨_, rfl, id⟩
  split
  · exact ⟨_, rfl, id⟩
  split
  · exact ⟨_, rfl, id⟩
  · exact ⟨true, rfl, fun _ => rfl⟩

/-! ### Pending work is scheduled -/

/-- Pending work that nothing holds back is scheduled. -/
def Served (state : Scheduler α β) : Prop :=
  state.suspendingCompaction = false → state.shuttingDown = false →
    state.write.bgError = false → state.pendingWork = true → state.bgCompactionScheduled = true

/-- Whatever the state was, `MaybeScheduleCompaction` leaves no work behind. -/
theorem maybeScheduleCompaction_served (state : Scheduler α β) :
    state.maybeScheduleCompaction.Served := by
  rw [maybeScheduleCompaction]
  split
  · rename_i scheduled
    exact fun _ _ _ _ => scheduled
  split
  · rename_i down
    exact fun _ up _ _ => absurd down (by simp [up])
  split
  · rename_i suspended
    simp only [Bool.and_eq_true] at suspended
    exact fun active _ _ _ => absurd suspended.2 (by simp [active])
  split
  · rename_i error
    exact fun _ _ noError _ => absurd error (by simp [noError])
  split
  · rename_i nothing
    intro _ _ _ pending
    simp only [Bool.and_eq_true, Option.isNone_iff_eq_none, Bool.not_eq_true'] at nothing
    simp [pendingWork, nothing.1.1, nothing.1.2, nothing.2] at pending
  · exact fun _ _ _ _ => rfl

/-- The step is not a `ResumeCompaction` that finds work which is not scheduled, unless an error
or a shutdown ends all work. -/
def ResumesServed (state : Scheduler α β) : SchedulerAction α β → Prop
  | .resumeCompaction => state.shuttingDown = true ∨ state.write.bgError = true ∨
      state.pendingWork = false ∨ state.bgCompactionScheduled = true
  | _ => True

/-- A running call keeps the flag set, the background thread keeps the mutex only at the end of a
call, work is scheduled, and whoever waits for the immutable memtable to go does so while there
is one. -/
structure Attended (state : Scheduler α β) : Prop where
  working : state.background ≠ .idle → state.bgCompactionScheduled = true
  keeps : state.mutex = some .background → ∃ manual ok, state.background = .finishing manual ok
  served : state.Served
  roomWaits : state.mutex ≠ some .background → state.room.status = .waitingForImm →
    state.write.db.imm.isSome = true
  callWaits : state.mutex ≠ some .background → ∀ call ∈ state.compactMemTableCalls,
    call.status = .waiting → state.write.db.imm.isSome = true

theorem opened_attended (db : Db α β) (logNumber : Nat) : (opened db logNumber).Attended := by
  have served := (start db logNumber).maybeScheduleCompaction_served
  obtain ⟨scheduled, equal, _⟩ := (start db logNumber).maybeScheduleCompaction_eq
  rw [opened]
  rw [equal] at served ⊢
  refine ⟨fun busy => absurd rfl busy, fun kept => (by cases kept), served, ?_, ?_⟩
  · exact fun _ waits => by cases waits
  · exact fun _ call member => absurd member List.not_mem_nil

/-- Waking the waiters changes nothing else. -/
theorem Attended.signalAll {state : Scheduler α β}
    (working : state.background ≠ .idle → state.bgCompactionScheduled = true)
    (keeps : state.mutex = some .background → ∃ manual ok, state.background = .finishing manual ok)
    (served : state.Served) : state.signalAll.Attended := by
  refine ⟨working, keeps, served, fun _ waits => ?_, fun _ call member waits => ?_⟩
  · simp only [Scheduler.signalAll] at waits
    split at waits <;> simp_all
  · obtain ⟨old, _, rfl⟩ := List.mem_map.mp member
    simp only at waits
    split at waits
    · cases waits
    · rename_i notWaiting
      exact absurd waits notWaiting

/-- The end of a call, kept from all other threads by the mutex. -/
theorem attended_of_finishing {state : Scheduler α β} (scheduled : state.bgCompactionScheduled = true)
    (isBackground : ∃ manual ok, state.background = .finishing manual ok)
    (kept : state.mutex = some .background) : state.Attended :=
  ⟨fun _ => scheduled, fun _ => isBackground, fun _ _ _ _ => scheduled,
    fun free => absurd kept free, fun free => absurd kept free⟩

/-- A running call that leaves the waiters and the immutable memtable alone. -/
theorem Attended.busy {state state' : Scheduler α β} (inv : state.Attended)
    (free : state.mutex = none) (scheduled : state'.bgCompactionScheduled = true)
    (mutex : state'.mutex = none) (room : state'.room = state.room)
    (calls : state'.compactMemTableCalls = state.compactMemTableCalls)
    (imm : state'.write.db.imm = state.write.db.imm) : state'.Attended := by
  have notKept : state.mutex ≠ some .background := by simp [free]
  refine ⟨fun _ => scheduled, fun kept => ?_, fun _ _ _ _ => scheduled, fun _ waits => ?_,
    fun _ call member waits => ?_⟩
  · rw [mutex] at kept
    cases kept
  · rw [imm]
    exact inv.roomWaits notKept (room ▸ waits)
  · rw [imm]
    exact inv.callWaits notKept call (calls ▸ member) waits

/-- `MaybeScheduleCompaction` after a step that leaves no waiter behind. -/
theorem Attended.maybeSchedule {state : Scheduler α β}
    (working : state.background ≠ .idle → state.bgCompactionScheduled = true)
    (keeps : state.mutex = some .background → ∃ manual ok, state.background = .finishing manual ok)
    (roomWaits : state.mutex ≠ some .background → state.room.status = .waitingForImm →
      state.write.db.imm.isSome = true)
    (callWaits : state.mutex ≠ some .background → ∀ call ∈ state.compactMemTableCalls,
      call.status = .waiting → state.write.db.imm.isSome = true) :
    state.maybeScheduleCompaction.Attended := by
  have served := state.maybeScheduleCompaction_served
  obtain ⟨scheduled, equal, grows⟩ := state.maybeScheduleCompaction_eq
  rw [equal] at served ⊢
  exact ⟨fun busy => grows (working busy), keeps, served, roomWaits, callWaits⟩

theorem recordBackgroundError_mutex (state : Scheduler α β) :
    state.recordBackgroundError.mutex = state.mutex := by
  rw [recordBackgroundError]
  split <;> rfl

theorem recordBackgroundError_suspendingCompaction (state : Scheduler α β) :
    state.recordBackgroundError.suspendingCompaction = state.suspendingCompaction := by
  rw [recordBackgroundError]
  split <;> rfl

theorem recordBackgroundError_bgCompactionScheduled (state : Scheduler α β) :
    state.recordBackgroundError.bgCompactionScheduled = state.bgCompactionScheduled := by
  rw [recordBackgroundError]
  split <;> rfl

theorem logged_mutex [LinearOrder α] (state : Scheduler α β) (edit : VersionEdit α β)
    (succeeds : Bool) : (state.logged edit succeeds).mutex = state.mutex := by
  cases succeeds with
  | true => rfl
  | false => exact recordBackgroundError_mutex _

theorem logged_suspendingCompaction [LinearOrder α] (state : Scheduler α β)
    (edit : VersionEdit α β) (succeeds : Bool) :
    (state.logged edit succeeds).suspendingCompaction = state.suspendingCompaction := by
  cases succeeds with
  | true => rfl
  | false => exact recordBackgroundError_suspendingCompaction _

theorem logged_bgCompactionScheduled [LinearOrder α] (state : Scheduler α β)
    (edit : VersionEdit α β) (succeeds : Bool) :
    (state.logged edit succeeds).bgCompactionScheduled = state.bgCompactionScheduled := by
  cases succeeds with
  | true => rfl
  | false => exact recordBackgroundError_bgCompactionScheduled _

/-- After a flush either the call is at its end or everybody was woken. -/
theorem afterFlush_attended {state : Scheduler α β} (scheduled : state.bgCompactionScheduled = true)
    (free : state.mutex = none) (inside : Option (CompactionJob α β)) :
    (state.afterFlush inside).Attended := by
  cases inside with
  | none => exact attended_of_finishing scheduled ⟨none, true, rfl⟩ rfl
  | some job =>
    refine Attended.signalAll (fun _ => scheduled) (fun kept => ?_) fun _ _ _ _ => scheduled
    exact absurd kept (by simp [free])

section Step

variable {state : Scheduler α β}

theorem InRoom.not_background (inRoom : state.InRoom) : state.mutex ≠ some .background := by
  rcases inRoom.2 with ⟨mutex, _⟩ | ⟨mutex, _⟩ <;> simp [mutex]

theorem InRoom.not_waiting (inRoom : state.InRoom) : state.room.status ≠ .waitingForImm := by
  rcases inRoom.2 with ⟨_, status⟩ | ⟨_, status⟩ <;> simp [status]

/-- A step of the write queue that keeps the tables keeps the work that is pending. -/
theorem Served.queue {write : WriteState α β} (served : state.Served)
    (imm : write.db.imm = state.write.db.imm) (version : write.db.version = state.write.db.version)
    (bgError : write.bgError = false → state.write.bgError = false) {mutex : Option Holder}
    {room : Room} {calls : List (CompactMemTableCall α β)} :
    Served { state with
      write := write, mutex := mutex, room := room, compactMemTableCalls := calls } := by
  intro active up noError pending
  refine served active up (bgError noError) ?_
  simpa only [pendingWork, imm, version] using pending

theorem Attended.compactRange (inv : state.Attended) (id : Nat) (call : CompactRangeCall α) :
    (state.compactRangeLoop id call).Attended := by
  rw [compactRangeLoop]
  split
  · split
    · refine { inv with served := fun active up noError pending => ?_ }
      refine inv.served active up noError ?_
      simp only [pendingWork, setCall, Option.isSome_none, Bool.or_false] at pending
      simp only [pendingWork, Bool.or_eq_true] at pending ⊢
      tauto
    · exact { inv with }
  · split
    · exact Attended.maybeSchedule inv.working inv.keeps inv.roomWaits inv.callWaits
    · exact { inv with }

theorem Attended.endCall (state : Scheduler α β) : (Scheduler.endCall state).Attended := by
  rw [Scheduler.endCall]
  simp only
  split
  · rename_i suspending
    refine Attended.signalAll (fun busy => absurd rfl busy) (fun kept => (by cases kept)) ?_
    exact fun active => absurd (suspending.symm.trans active) (by decide)
  · have served := maybeScheduleCompaction_served
      { state with bgCompactionScheduled := false, background := .idle, mutex := none }
    obtain ⟨scheduled, equal, _⟩ := maybeScheduleCompaction_eq
      { state with bgCompactionScheduled := false, background := .idle, mutex := none }
    rw [equal] at served ⊢
    exact Attended.signalAll (fun busy => absurd rfl busy) (fun kept => (by cases kept)) served

variable [LinearOrder α] [Inhabited β] {options : SchedulerOptions α β} {state' : Scheduler α β}
  {action : SchedulerAction α β}

theorem Attended.step (inv : state.Attended) (resumes : state.ResumesServed action)
    (taken : state.step options action = some state') : state'.Attended := by
  cases step_moves taken with
  | queue action write may queued =>
    have keeps := WriteAction.keepsTables_of_locks (may.imp_right And.left)
    obtain ⟨imm, version⟩ := WriteState.step_keepsTables keeps queued
    have notFinish : action ≠ .finish := by
      rintro rfl
      simp [WriteAction.unlocked, WriteAction.locks] at may
    have bgError := WriteState.step_bgError notFinish queued
    refine { inv with
      served := inv.served.queue imm version fun noError => (bgError ▸ noError)
      roomWaits := ?_
      callWaits := ?_ }
    · simpa only [imm] using inv.roomWaits
    · simpa only [imm] using inv.callWaits
  | lead write free queued force isForce =>
    obtain ⟨imm, version⟩ := WriteState.step_keepsTables rfl queued
    have bgError := WriteState.step_bgError (by simp) queued
    refine { inv with
      served := inv.served.queue imm version fun noError => (bgError ▸ noError)
      keeps := fun kept => (by cases kept)
      roomWaits := fun _ waits => (by cases waits)
      callWaits := fun _ => ?_ }
    simpa only [imm] using inv.callWaits (by simp [free])
  | delay newLogFails inRoom =>
    refine { inv with
      keeps := fun kept => (by cases kept)
      roomWaits := fun _ waits => (by cases waits)
      callWaits := fun _ => inv.callWaits inRoom.not_background }
  | leave newLogFails inRoom action reason write queued =>
    have keeps : action.keepsTables = true := by
      rcases reason with rfl | ⟨rfl, _⟩ <;> rfl
    have notFinish : action ≠ .finish := by
      rcases reason with rfl | ⟨rfl, _⟩ <;> simp
    obtain ⟨imm, version⟩ := WriteState.step_keepsTables keeps queued
    have bgError := WriteState.step_bgError notFinish queued
    refine { inv with
      served := inv.served.queue imm version fun noError => (bgError ▸ noError)
      keeps := fun kept => ?_
      roomWaits := fun _ waits => absurd waits inRoom.not_waiting
      callWaits := fun _ => ?_ }
    · simp only at kept
      split at kept <;> cases kept
    · simpa only [imm] using inv.callWaits inRoom.not_background
  | awaitImm newLogFails inRoom waiting =>
    refine { inv with
      keeps := fun kept => (by cases kept)
      roomWaits := fun _ _ => waiting
      callWaits := fun _ _ _ _ => waiting }
  | awaitLevel0 newLogFails inRoom =>
    refine { inv with
      keeps := fun kept => (by cases kept)
      roomWaits := fun _ waits => (by cases waits)
      callWaits := fun _ => inv.callWaits inRoom.not_background }
  | switch inRoom active write queued =>
    have full : write.db.imm.isSome = true := by
      cases WriteState.step_moves queued with
      | switchMemTable phase empty => rfl
      | leaves _ status phase reason => rcases reason with same | ⟨same, _⟩ <;> cases same
    exact Attended.maybeSchedule inv.working (fun kept => (by cases kept))
      (fun _ waits => (by cases waits)) fun _ _ _ _ => full
  | finishWrite write mutex queued same =>
    have notKept : state.mutex ≠ some .background := by
      rw [mutex]
      split <;> simp
    obtain ⟨imm, version⟩ := WriteState.step_keepsTables rfl queued
    refine { inv with
      served := inv.served.queue imm version fun noError => (same ▸ noError)
      keeps := fun kept => (by cases kept)
      roomWaits := fun _ => ?_
      callWaits := fun _ => ?_ }
    · simpa only [imm] using inv.roomWaits notKept
    · simpa only [imm] using inv.callWaits notKept
  | finishWriteFailed write mutex queued before after =>
    refine Attended.signalAll inv.working (fun kept => (by cases kept)) fun _ _ noError => ?_
    rw [show write.bgError = false from noError] at after
    cases after
  | updateStats charged free db charges =>
    have imm : db.imm = state.write.db.imm := by
      rcases charges with rfl | ⟨level, index, charges⟩
      · rfl
      · exact Db.chargeSeek_imm charges
    refine Attended.maybeSchedule inv.working inv.keeps ?_ ?_
    · simpa only [setDb, imm] using inv.roomWaits
    · simpa only [setDb, imm] using inv.callWaits
  | callCompactRange level first last free => exact { inv with }
  | compactRange id call free isCall ready => exact inv.compactRange id call
  | callCompactMemTable write free queued =>
    obtain ⟨imm, version⟩ := WriteState.step_keepsTables rfl queued
    have bgError := WriteState.step_bgError (by simp) queued
    refine { inv with
      served := inv.served.queue imm version fun noError => (bgError ▸ noError)
      roomWaits := ?_
      callWaits := fun notKept call member waits => ?_ }
    · simpa only [imm] using inv.roomWaits
    · rcases List.mem_append.mp member with old | new
      · simpa only [imm] using inv.callWaits notKept call old waits
      · rw [List.mem_singleton.mp new] at waits
        cases waits
  | compactMemTable index call status free isCall ready result =>
    refine { inv with callWaits := fun notKept other member waits => ?_ }
    rcases List.mem_or_eq_of_mem_set member with old | rfl
    · exact inv.callWaits notKept other old waits
    · rw [compactMemTableLoop] at waits
      split at waits
      · cases waits
      split at waits
      · rename_i full
        simp only [Bool.and_eq_true] at full
        exact full.1
      · cases waits
  | suspend free => exact { inv with served := fun active => by cases active }
  | resume free =>
    refine { inv with served := fun _ up noError pending => ?_ }
    rcases resumes with down | error | nothing | scheduled
    · exact absurd (down.symm.trans up) (by decide)
    · exact absurd (error.symm.trans noError) (by decide)
    · exact absurd (nothing.symm.trans pending) (by decide)
    · exact scheduled
  | shutDown free => exact { inv with served := fun _ up => by cases up }
  | refuse free idle scheduled refused =>
    exact attended_of_finishing scheduled ⟨none, true, rfl⟩ rfl
  | startFlush free idle scheduled running noError full =>
    exact inv.busy free scheduled free rfl rfl rfl
  | startManual id call free idle scheduled running noError manual isCall =>
    rw [Scheduler.startManual]
    split
    · exact attended_of_finishing scheduled ⟨some (id, none), true, rfl⟩ rfl
    · exact inv.busy free scheduled free rfl rfl rfl
  | startAutomatic free idle scheduled running noError noManual =>
    rw [Scheduler.startAutomatic]
    split
    · exact attended_of_finishing scheduled ⟨none, true, rfl⟩ rfl
    · simp only
      split
      · exact inv.busy free scheduled free rfl rfl rfl
      · exact inv.busy free scheduled free rfl rfl rfl
  | tableBuilt number inside imm free isBackground full =>
    exact inv.busy free (inv.working (by simp [isBackground])) free rfl rfl rfl
  | tableFailed number inside succeeds free isBackground failed =>
    refine afterFlush_attended ?_ ?_ inside
    · rw [recordBackgroundError_bgCompactionScheduled]
      exact inv.working (by simp [isBackground])
    · rw [recordBackgroundError_mutex]
      exact free
  | flushLogged edit inside succeeds free isBackground =>
    have scheduled := inv.working (by simp [isBackground])
    refine afterFlush_attended ?_ ?_ inside
    · cases succeeds with
      | true => exact scheduled
      | false => exact (logged_bgCompactionScheduled state edit false).trans scheduled
    · cases succeeds with
      | true => exact free
      | false => exact (logged_mutex state edit false).trans free
  | moveLogged edit succeeds free isBackground =>
    have scheduled := inv.working (by simp [isBackground])
    exact attended_of_finishing ((logged_bgCompactionScheduled _ _ _).trans scheduled)
      ⟨none, succeeds, rfl⟩ rfl
  | visit job entry rest free isBackground remaining =>
    exact inv.busy free (inv.working (by simp [isBackground])) free rfl rfl rfl
  | flushInside job free isBackground full =>
    exact inv.busy free (inv.working (by simp [isBackground])) free rfl rfl rfl
  | endLoop job free isBackground done =>
    exact inv.busy free (inv.working (by simp [isBackground])) free rfl rfl rfl
  | endLoopFailed job free isBackground =>
    refine attended_of_finishing ?_ ⟨job.manual, false, rfl⟩ rfl
    exact (recordBackgroundError_bgCompactionScheduled _).trans
      (inv.working (by simp [isBackground]))
  | resultsLogged edit job succeeds free isBackground =>
    have scheduled := inv.working (by simp [isBackground])
    exact attended_of_finishing ((logged_bgCompactionScheduled _ _ _).trans scheduled)
      ⟨job.manual, succeeds, rfl⟩ rfl
  | endCall ok isBackground => exact Attended.endCall state
  | endManual id manualEnd ok isBackground finished finishes => exact Attended.endCall finished

end Step

instance (state : Scheduler α β) (action : SchedulerAction α β) :
    Decidable (state.ResumesServed action) :=
  match action with
  | .resumeCompaction => inferInstanceAs (Decidable (_ ∨ _ ∨ _ ∨ _))
  | .write _ | .lead | .makeRoom _ | .finishWrite | .updateStats _ | .callCompactRange _ _ _
  | .compactRange _ | .callCompactMemTable | .compactMemTable _ | .suspendCompaction | .shutDown
  | .backgroundCall | .tableBuilt _ | .flushLogged _ | .moveLogged _ | .visit | .flushInside
  | .endLoop _ | .resultsLogged _ | .endCall => isTrue trivial

/-- In every run in which `ResumeCompaction` finds no unscheduled work, pending work is scheduled
whenever the mutex is free and nothing holds work back. A writer or a `TEST_CompactMemTable` call
that waits for the immutable memtable to go has a background call to wait for. -/
theorem pending_work_scheduled [LinearOrder α] [Inhabited β] (options : SchedulerOptions α β)
    (db : Db α β) (logNumber : Nat) (state : Scheduler α β)
    (reachable : Lib.Reachable (step options) ResumesServed (opened db logNumber) state)
    (free : state.mutex = none) (active : state.suspendingCompaction = false)
    (up : state.shuttingDown = false) (noError : state.write.bgError = false) :
    (state.pendingWork = true → state.bgCompactionScheduled = true) ∧
      (state.room.status = .waitingForImm → state.bgCompactionScheduled = true) ∧
        ∀ call ∈ state.compactMemTableCalls, call.status = .waiting →
          state.bgCompactionScheduled = true := by
  have kept : ∀ (state : Scheduler α β) action state', state.Attended →
      state.ResumesServed action → step options state action = some state' → state'.Attended :=
    fun _ _ _ inv resumes taken => inv.step resumes taken
  have inv := reachable.invariant (opened_attended db logNumber) kept
  have notKept : state.mutex ≠ some .background := by simp [free]
  have served := inv.served active up noError
  have full : state.write.db.imm.isSome = true → state.pendingWork = true := by
    intro isSome
    rw [pendingWork, isSome, Bool.true_or, Bool.true_or]
  refine ⟨served, fun waits => ?_, fun call member waits => ?_⟩
  · exact served (full (inv.roomWaits notKept waits))
  · exact served (full (inv.callWaits notKept call member waits))

/-- Tables are as large as the sum of their values; a memtable is full from eleven entries on. -/
def smallOptions : SchedulerOptions Nat Nat :=
  { sizedOptions with
    opSize := fun _ => 10
    writeBufferSize := 100
    approximateMemoryUsage := fun mem => 10 * mem.length }

/-- A call of `TEST_CompactMemTable` up to the end of its `Write`. -/
def forcedSwitch : List (SchedulerAction Nat Nat) :=
  [.callCompactMemTable, .lead, .makeRoom false, .makeRoom false, .finishWrite]

/-- A second forced switch waits for the flush of the first. -/
theorem pending_work_scheduled_waiting_writer :
    ∃ state, Lib.Reachable (step smallOptions) ResumesServed (opened Db.empty 3) state ∧
      state.room.status = .waitingForImm ∧ state.bgCompactionScheduled = true := by
  obtain ⟨state, reachable, outcome⟩ := Lib.exists_of_run
    (show (Lib.run (step smallOptions) ResumesServed (opened Db.empty 3)
        (forcedSwitch ++ [.callCompactMemTable, .lead, .makeRoom false])).any (fun state =>
      decide (state.mutex = none ∧ state.suspendingCompaction = false ∧
        state.shuttingDown = false ∧ state.write.bgError = false ∧
          state.room.status = .waitingForImm)) = true by decide +kernel)
  obtain ⟨free, active, up, noError, waits⟩ := of_decide_eq_true outcome
  exact ⟨state, reachable, waits, (pending_work_scheduled smallOptions Db.empty 3 state reachable
    free active up noError).2.1 waits⟩

/-- A manual compaction that is posted while compaction is suspended is not scheduled when it is
resumed. -/
theorem resumed_work_unscheduled :
    ∃ state, Lib.Reachable (step smallOptions) (fun _ _ => True) (opened Db.empty 3) state ∧
      state.mutex = none ∧ state.suspendingCompaction = false ∧ state.shuttingDown = false ∧
      state.write.bgError = false ∧ state.pendingWork = true ∧
        state.bgCompactionScheduled = false := by
  obtain ⟨state, reachable, outcome⟩ := Lib.exists_of_run
    (show (Lib.run (step smallOptions) (fun _ _ => True) (opened Db.empty 3)
        [.suspendCompaction, .callCompactRange 0 none none, .compactRange 0,
          .resumeCompaction]).any (fun state =>
      decide (state.mutex = none ∧ state.suspendingCompaction = false ∧
        state.shuttingDown = false ∧ state.write.bgError = false ∧ state.pendingWork = true ∧
          state.bgCompactionScheduled = false)) = true by decide +kernel)
  exact ⟨state, reachable, of_decide_eq_true outcome⟩

/-! ### Suspension -/

/-- The step executes a part of `BackgroundCompaction`, `CompactMemTable` or
`DoCompactionWork`. -/
def works (state : Scheduler α β) : SchedulerAction α β → Bool
  | .backgroundCall => !state.shuttingDown && !state.write.bgError
  | .tableBuilt _ | .flushLogged _ | .moveLogged _ | .visit | .flushInside | .endLoop _
  | .resultsLogged _ => true
  | .endCall =>
    match state.background with
    | .finishing (some _) _ => true
    | _ => false
  | _ => false

def idle (state : Scheduler α β) : Bool :=
  match state.background with
  | .idle => true
  | _ => false

theorem background_of_idle {state : Scheduler α β} (isIdle : state.idle = true) :
    state.background = .idle := by
  rw [idle] at isIdle
  split at isIdle
  · assumption
  · cases isIdle

/-- No background call can do any work before the next memtable switch. -/
def Still (state : Scheduler α β) : Prop :=
  state.shuttingDown = true ∨ state.write.bgError = true ∨
    state.bgCompactionScheduled = false ∧ state.write.db.imm = none

/-- The step is not a `SuspendCompaction` that finds a call at work or work that will be done
regardless. -/
def SuspendsIdle (state : Scheduler α β) : SchedulerAction α β → Prop
  | .suspendCompaction => state.idle = true ∧ state.Still
  | _ => True

/-- While compaction is suspended, the background thread is idle or in a call that was refused. -/
def Quiet (state : Scheduler α β) : Prop :=
  state.suspendingCompaction = true →
    (state.background = .idle ∨ ∃ ok, state.background = .finishing none ok) ∧ state.Still

theorem maybeScheduleCompaction_suspended {state : Scheduler α β}
    (suspended : state.suspendingCompaction = true) (still : state.Still) :
    state.maybeScheduleCompaction = state := by
  rw [maybeScheduleCompaction]
  rcases still with down | error | ⟨_, empty⟩
  · simp [down]
  · simp [error]
  · simp [empty, suspended]

/-- A step of the write queue that keeps the tables keeps everything still. -/
theorem Still.queue {state : Scheduler α β} {write : WriteState α β} (still : state.Still)
    (imm : write.db.imm = state.write.db.imm)
    (bgError : state.write.bgError = true → write.bgError = true) {mutex : Option Holder}
    {room : Room} {calls : List (CompactMemTableCall α β)} :
    Still { state with
      write := write, mutex := mutex, room := room, compactMemTableCalls := calls } := by
  rcases still with down | error | ⟨unscheduled, empty⟩
  · exact Or.inl down
  · exact Or.inr (Or.inl (bgError error))
  · exact Or.inr (Or.inr ⟨unscheduled, imm.trans empty⟩)

theorem Quiet.not_compacting {state : Scheduler α β} (quiet : state.Quiet)
    (suspended : state.suspendingCompaction = true) {background : Background α β}
    (isBackground : state.background = background) (busy : background ≠ .idle)
    (notRefused : ∀ ok, background ≠ .finishing none ok) : False := by
  rcases (quiet suspended).1 with isIdle | ⟨ok, refused⟩
  · exact busy (isBackground.symm.trans isIdle)
  · exact notRefused ok (isBackground.symm.trans refused)

theorem Still.not_accepted {state : Scheduler α β} (still : state.Still)
    (scheduled : state.bgCompactionScheduled = true) (running : state.shuttingDown = false)
    (noError : state.write.bgError = false) : False := by
  rcases still with down | error | ⟨unscheduled, _⟩
  · simp [running] at down
  · simp [noError] at error
  · simp [scheduled] at unscheduled

/-- While compaction is suspended, nobody but the destructor changes what keeps it still. -/
theorem Quiet.maybeSchedule {state : Scheduler α β} (quiet : state.Quiet) :
    state.maybeScheduleCompaction.Quiet := by
  intro suspended
  obtain ⟨scheduled, equal, _⟩ := state.maybeScheduleCompaction_eq
  have before : state.suspendingCompaction = true := by
    rw [equal] at suspended
    exact suspended
  rw [maybeScheduleCompaction_suspended before (quiet before).2]
  exact quiet before

theorem endCall_quiet {state : Scheduler α β} (still : state.suspendingCompaction = true →
    state.shuttingDown = true ∨ state.write.bgError = true ∨ state.write.db.imm = none) :
    (Scheduler.endCall state).Quiet := by
  rw [Scheduler.endCall]
  simp only
  split
  · rename_i suspended
    intro _
    refine ⟨Or.inl rfl, ?_⟩
    rcases still suspended with down | error | empty
    · exact Or.inl down
    · exact Or.inr (Or.inl error)
    · exact Or.inr (Or.inr ⟨rfl, empty⟩)
  · rename_i active
    intro suspended
    obtain ⟨scheduled, equal, _⟩ := maybeScheduleCompaction_eq
      { state with bgCompactionScheduled := false, background := .idle, mutex := none }
    rw [equal] at suspended
    exact absurd suspended active

section Suspended

variable [LinearOrder α] [Inhabited β] {options : SchedulerOptions α β}
  {state state' : Scheduler α β} {action : SchedulerAction α β}

theorem Quiet.step (quiet : state.Quiet) (suspends : state.SuspendsIdle action)
    (taken : state.step options action = some state') : state'.Quiet := by
  cases step_moves taken with
  | queue action write may queued =>
    intro suspended
    have keeps := WriteAction.keepsTables_of_locks (may.imp_right And.left)
    have notFinish : action ≠ .finish := by
      rintro rfl
      simp [WriteAction.unlocked, WriteAction.locks] at may
    have bgError := WriteState.step_bgError notFinish queued
    have imm := (WriteState.step_keepsTables keeps queued).1
    exact ⟨(quiet suspended).1, (quiet suspended).2.queue imm fun error => bgError.trans error⟩
  | lead write free queued force isForce =>
    intro suspended
    have imm := (WriteState.step_keepsTables rfl queued).1
    have bgError := WriteState.step_bgError (by simp) queued
    exact ⟨(quiet suspended).1, (quiet suspended).2.queue imm fun error => bgError.trans error⟩
  | delay newLogFails inRoom => exact quiet
  | leave newLogFails inRoom action reason write queued =>
    intro suspended
    have keeps : action.keepsTables = true := by
      rcases reason with rfl | ⟨rfl, _⟩ <;> rfl
    have notFinish : action ≠ .finish := by
      rcases reason with rfl | ⟨rfl, _⟩ <;> simp
    have imm := (WriteState.step_keepsTables keeps queued).1
    have bgError := WriteState.step_bgError notFinish queued
    exact ⟨(quiet suspended).1, (quiet suspended).2.queue imm fun error => bgError.trans error⟩
  | awaitImm newLogFails inRoom waiting => exact quiet
  | awaitLevel0 newLogFails inRoom => exact quiet
  | switch inRoom active write queued =>
    refine Quiet.maybeSchedule fun suspended => ?_
    exact absurd (suspended.symm.trans active) (by decide)
  | finishWrite write mutex queued same =>
    intro suspended
    have imm := (WriteState.step_keepsTables rfl queued).1
    exact ⟨(quiet suspended).1, (quiet suspended).2.queue imm fun error => same.trans error⟩
  | finishWriteFailed write mutex queued before after =>
    exact fun suspended => ⟨(quiet suspended).1, Or.inr (Or.inl after)⟩
  | updateStats charged free db charges =>
    refine Quiet.maybeSchedule fun suspended => ⟨(quiet suspended).1, ?_⟩
    have imm : db.imm = state.write.db.imm := by
      rcases charges with rfl | ⟨level, index, charges⟩
      · rfl
      · exact Db.chargeSeek_imm charges
    exact @Still.queue _ _ state { state.write with db := db } (quiet suspended).2 imm id _ _ _
  | callCompactRange level first last free => exact quiet
  | compactRange id call free isCall ready =>
    rw [compactRangeLoop]
    split
    · split <;> exact quiet
    · split
      · exact Quiet.maybeSchedule quiet
      · exact quiet
  | callCompactMemTable write free queued =>
    intro suspended
    have imm := (WriteState.step_keepsTables rfl queued).1
    have bgError := WriteState.step_bgError (by simp) queued
    exact ⟨(quiet suspended).1, (quiet suspended).2.queue imm fun error => bgError.trans error⟩
  | compactMemTable index call status free isCall ready result => exact quiet
  | suspend free =>
    exact fun _ => ⟨Or.inl (background_of_idle suspends.1), suspends.2⟩
  | resume free => exact fun suspended => by cases suspended
  | shutDown free => exact fun suspended => by cases suspended
  | refuse free idle scheduled refused =>
    exact fun suspended => ⟨Or.inr ⟨true, rfl⟩, (quiet suspended).2⟩
  | startFlush free idle scheduled running noError full =>
    exact fun suspended => ((quiet suspended).2.not_accepted scheduled running noError).elim
  | startManual id call free idle scheduled running noError manual isCall =>
    intro suspended
    have before : state.suspendingCompaction = true := by
      rw [Scheduler.startManual] at suspended
      split at suspended <;> exact suspended
    exact ((quiet before).2.not_accepted scheduled running noError).elim
  | startAutomatic free idle scheduled running noError noManual =>
    intro suspended
    have before : state.suspendingCompaction = true := by
      rw [Scheduler.startAutomatic] at suspended
      split at suspended
      · exact suspended
      · simp only at suspended
        split at suspended <;> exact suspended
    exact ((quiet before).2.not_accepted scheduled running noError).elim
  | tableBuilt number inside imm free isBackground full =>
    exact fun suspended => (quiet.not_compacting suspended isBackground (by simp) (by simp)).elim
  | tableFailed number inside succeeds free isBackground failed =>
    intro suspended
    refine (quiet.not_compacting ?_ isBackground (by simp) (by simp)).elim
    rw [← recordBackgroundError_suspendingCompaction]
    cases inside <;> exact suspended
  | flushLogged edit inside succeeds free isBackground =>
    intro suspended
    refine (quiet.not_compacting ?_ isBackground (by simp) (by simp)).elim
    rw [← logged_suspendingCompaction state edit succeeds]
    cases inside <;> cases succeeds <;> exact suspended
  | moveLogged edit succeeds free isBackground =>
    intro suspended
    refine (quiet.not_compacting ?_ isBackground (by simp) (by simp)).elim
    exact (logged_suspendingCompaction state edit succeeds).symm.trans suspended
  | visit job entry rest free isBackground remaining =>
    exact fun suspended => (quiet.not_compacting suspended isBackground (by simp) (by simp)).elim
  | flushInside job free isBackground full =>
    exact fun suspended => (quiet.not_compacting suspended isBackground (by simp) (by simp)).elim
  | endLoop job free isBackground done =>
    exact fun suspended => (quiet.not_compacting suspended isBackground (by simp) (by simp)).elim
  | endLoopFailed job free isBackground =>
    intro suspended
    refine (quiet.not_compacting ?_ isBackground (by simp) (by simp)).elim
    exact (recordBackgroundError_suspendingCompaction state).symm.trans suspended
  | resultsLogged edit job succeeds free isBackground =>
    intro suspended
    refine (quiet.not_compacting ?_ isBackground (by simp) (by simp)).elim
    exact (logged_suspendingCompaction state edit succeeds).symm.trans suspended
  | endCall ok isBackground =>
    refine endCall_quiet fun suspended => ?_
    exact (quiet suspended).2.imp_right (Or.imp_right And.right)
  | endManual id manualEnd ok isBackground finished finishes =>
    refine endCall_quiet fun suspended => ?_
    refine (quiet.not_compacting ?_ isBackground (by simp) (by simp)).elim
    obtain ⟨posted, _, finishes⟩ := Option.bind_eq_some_iff.mp finishes
    obtain ⟨call, _, rfl⟩ := Option.map_eq_some_iff.mp finishes
    exact suspended

end Suspended

instance (state : Scheduler α β) : Decidable state.Still :=
  inferInstanceAs (Decidable (_ ∨ _ ∨ _ ∧ _ = none))

instance (state : Scheduler α β) (action : SchedulerAction α β) :
    Decidable (state.SuspendsIdle action) :=
  match action with
  | .suspendCompaction => inferInstanceAs (Decidable (_ ∧ state.Still))
  | .write _ | .lead | .makeRoom _ | .finishWrite | .updateStats _ | .callCompactRange _ _ _
  | .compactRange _ | .callCompactMemTable | .compactMemTable _ | .resumeCompaction | .shutDown
  | .backgroundCall | .tableBuilt _ | .flushLogged _ | .moveLogged _ | .visit | .flushInside
  | .endLoop _ | .resultsLogged _ | .endCall => isTrue trivial

/-- In every run in which `SuspendCompaction` is called with the background thread idle, nothing
scheduled and no immutable memtable, no background work is done until `ResumeCompaction`. -/
theorem no_work_while_suspended [LinearOrder α] [Inhabited β] (options : SchedulerOptions α β)
    (db : Db α β) (logNumber : Nat) (state : Scheduler α β)
    (reachable : Lib.Reachable (step options) SuspendsIdle (opened db logNumber) state)
    (suspended : state.suspendingCompaction = true) (action : SchedulerAction α β)
    (isWork : state.works action = true) : state.step options action = none := by
  have initially : (opened db logNumber).Quiet :=
    Quiet.maybeSchedule fun suspended => by cases suspended
  have kept : ∀ (state : Scheduler α β) action state', state.Quiet →
      state.SuspendsIdle action → step options state action = some state' → state'.Quiet :=
    fun _ _ _ quiet suspends taken => quiet.step suspends taken
  have quiet := reachable.invariant initially kept
  have still := (quiet suspended).2
  cases taken : state.step options action with
  | none => rfl
  | some state' =>
    exfalso
    cases step_moves taken with
    | refuse free idle scheduled refused =>
      simp only [works, Bool.and_eq_true, Bool.not_eq_true'] at isWork
      rcases refused with down | error
      · exact absurd (down.symm.trans isWork.1) (by decide)
      · exact absurd (error.symm.trans isWork.2) (by decide)
    | startFlush free idle scheduled running noError full =>
      exact still.not_accepted scheduled running noError
    | startManual id call free idle scheduled running noError manual isCall =>
      exact still.not_accepted scheduled running noError
    | startAutomatic free idle scheduled running noError noManual =>
      exact still.not_accepted scheduled running noError
    | endCall ok isBackground => simp [works, isBackground] at isWork
    | endManual id manualEnd ok isBackground finished finishes =>
      exact quiet.not_compacting suspended isBackground (by simp) (by simp)
    | tableBuilt number inside imm free isBackground full =>
      exact quiet.not_compacting suspended isBackground (by simp) (by simp)
    | tableFailed number inside succeeds free isBackground failed =>
      exact quiet.not_compacting suspended isBackground (by simp) (by simp)
    | flushLogged edit inside succeeds free isBackground =>
      exact quiet.not_compacting suspended isBackground (by simp) (by simp)
    | moveLogged edit succeeds free isBackground =>
      exact quiet.not_compacting suspended isBackground (by simp) (by simp)
    | visit job entry rest free isBackground remaining =>
      exact quiet.not_compacting suspended isBackground (by simp) (by simp)
    | flushInside job free isBackground full =>
      exact quiet.not_compacting suspended isBackground (by simp) (by simp)
    | endLoop job free isBackground done =>
      exact quiet.not_compacting suspended isBackground (by simp) (by simp)
    | endLoopFailed job free isBackground =>
      exact quiet.not_compacting suspended isBackground (by simp) (by simp)
    | resultsLogged edit job succeeds free isBackground =>
      exact quiet.not_compacting suspended isBackground (by simp) (by simp)
    | _ => cases isWork

/-- A manual compaction posted while compaction is suspended is not started. -/
theorem no_work_while_suspended_manual :
    ∃ state, Lib.Reachable (step smallOptions) SuspendsIdle (opened Db.empty 3) state ∧
      state.manualCompaction.isSome = true ∧ state.step smallOptions .backgroundCall = none := by
  obtain ⟨state, reachable, outcome⟩ := Lib.exists_of_run
    (show (Lib.run (step smallOptions) SuspendsIdle (opened Db.empty 3)
        (forcedSwitch ++ [.backgroundCall, .tableBuilt true, .flushLogged true, .endCall,
          .suspendCompaction, .callCompactRange 0 none none, .compactRange 0])).any (fun state =>
      decide (state.suspendingCompaction = true ∧ state.works .backgroundCall = true ∧
        state.manualCompaction.isSome = true)) = true by decide +kernel)
  obtain ⟨suspended, isWork, posted⟩ := of_decide_eq_true outcome
  exact ⟨state, reachable, posted, no_work_while_suspended smallOptions Db.empty 3 state reachable
    suspended .backgroundCall isWork⟩

/-- `SuspendCompaction` returns while the background thread builds the table of a flush. -/
theorem suspend_returns_during_flush :
    ∃ state, Lib.Reachable (step smallOptions) (fun _ _ => True) (opened Db.empty 3) state ∧
      state.suspendingCompaction = true ∧ state.works (.tableBuilt true) = true ∧
        (state.step smallOptions (.tableBuilt true)).isSome = true := by
  obtain ⟨state, reachable, outcome⟩ := Lib.exists_of_run
    (show (Lib.run (step smallOptions) (fun _ _ => True) (opened Db.empty 3)
        (forcedSwitch ++ [.backgroundCall, .suspendCompaction])).any (fun state =>
      decide (state.suspendingCompaction = true ∧ state.works (.tableBuilt true) = true ∧
        (state.step smallOptions (.tableBuilt true)).isSome = true)) = true by decide +kernel)
  exact ⟨state, reachable, of_decide_eq_true outcome⟩

end Scheduler

end LevelDb
