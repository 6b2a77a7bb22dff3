/-
This file proves when the request of a manual compaction stays valid. The request lives on the
stack of a `TEST_CompactRange` call, and `BackgroundCompaction` goes back to it through
`manual_compaction_` once the compaction is over. The caller takes the request back and returns
when it wakes up after an error or a shutdown, which may be while the background thread still works
on it with the mutex released.
-/

import LevelDb.SchedulerSafety

namespace LevelDb

variable {α β : Type}

/-! ### The request of a background call -/

/-- The manual request a background call was started for. -/
def Background.request : Background α β → Option Nat
  | .buildingTable _ (some job) | .loggingFlush _ (some job) | .compacting job
  | .loggingResults _ job => job.manual.map Prod.fst
  | .finishing manual _ => manual.map Prod.fst
  | _ => none

/-- The writer at the front could not sync the log. -/
def Phase.syncFailed : Phase α β → Bool
  | .finishing _ _ true => true
  | _ => false

namespace Scheduler

/-- While a background call works on a manual request with the mutex released, the step neither
records a background error nor starts to shut down. -/
def SparesManual (state : Scheduler α β) : SchedulerAction α β → Prop
  | .shutDown | .tableBuilt false | .flushLogged false => state.background.request = none
  | .finishWrite => state.write.phase.syncFailed = true → state.background.request = none
  | _ => True

/-- The posted request belongs to a call that has not returned, a background call finds the request
it started from, and until its end nothing tells the caller to give up. -/
structure Posted (state : Scheduler α β) : Prop where
  valid : ∀ id, state.manualCompaction = some id →
    ∃ call, state.compactRangeCalls[id]? = some call ∧ call.status ≠ .returned
  same : ∀ id, state.background.request = some id → state.manualCompaction = some id
  keeps : ∀ manual ok, state.background = .finishing manual ok → state.mutex = some .background
  live : ∀ id, state.background.request = some id → state.mutex ≠ some .background →
    state.shuttingDown = false ∧ state.write.bgError = false ∧
      ∃ call, state.compactRangeCalls[id]? = some call ∧ call.manual.done = false

/-! ### What a step keeps -/

section Posted

variable {state state' : Scheduler α β}

/-- A step that touches neither the requests nor the background thread. -/
theorem Posted.of_same (inv : state.Posted) (notKept : state.mutex ≠ some .background)
    (background : state'.background = state.background)
    (manual : state'.manualCompaction = state.manualCompaction)
    (calls : state'.compactRangeCalls = state.compactRangeCalls)
    (down : state'.shuttingDown = state.shuttingDown)
    (bgError : state'.write.bgError = state.write.bgError) : state'.Posted := by
  refine ⟨?_, ?_, fun request ok finishing => ?_, fun id request _ => ?_⟩
  · rw [manual, calls]
    exact inv.valid
  · rw [background, manual]
    exact inv.same
  · rw [background] at finishing
    exact absurd (inv.keeps request ok finishing) notKept
  · rw [background] at request
    rw [down, bgError, calls]
    exact inv.live id request notKept

/-- A step after which no background call works on a request. -/
theorem posted_of_noRequest
    (valid : ∀ id, state.manualCompaction = some id →
      ∃ call, state.compactRangeCalls[id]? = some call ∧ call.status ≠ .returned)
    (none : state.background.request = none)
    (keeps : ∀ manual ok, state.background = .finishing manual ok →
      state.mutex = some .background) : state.Posted := by
  refine ⟨valid, fun id request => ?_, keeps, fun id request => ?_⟩
  · rw [none] at request
    cases request
  · rw [none] at request
    cases request

theorem Posted.maybeSchedule (inv : state.Posted) : state.maybeScheduleCompaction.Posted := by
  obtain ⟨scheduled, equal, _⟩ := state.maybeScheduleCompaction_eq
  rw [equal]
  exact { inv with }

/-- Waking the callers ends no call and completes no request. -/
theorem signalAll_call {id : Nat} {call : CompactRangeCall α}
    (isCall : state.compactRangeCalls[id]? = some call) :
    ∃ woken, state.signalAll.compactRangeCalls[id]? = some woken ∧ woken.manual = call.manual ∧
      (call.status ≠ .returned → woken.status ≠ .returned) := by
  refine ⟨{ call with status := if call.status = .waiting then .ready else call.status }, ?_, rfl,
    fun running => ?_⟩
  · simp only [Scheduler.signalAll, List.getElem?_map, isCall, Option.map_some]
  · simp only
    split
    · simp
    · exact running

theorem Posted.signalAll (inv : state.Posted) : state.signalAll.Posted := by
  refine ⟨fun id posted => ?_, inv.same, inv.keeps, fun id request notKept => ?_⟩
  · obtain ⟨call, isCall, running⟩ := inv.valid id posted
    obtain ⟨woken, isWoken, _, stays⟩ := signalAll_call isCall
    exact ⟨woken, isWoken, stays running⟩
  · obtain ⟨up, noError, call, isCall, notDone⟩ := inv.live id request notKept
    obtain ⟨woken, isWoken, sameManual, _⟩ := signalAll_call isCall
    exact ⟨up, noError, woken, isWoken, sameManual ▸ notDone⟩

/-- Recording an error ends no call; the posted request stays. -/
theorem recordBackgroundError_valid
    (valid : ∀ id, state.manualCompaction = some id →
      ∃ call, state.compactRangeCalls[id]? = some call ∧ call.status ≠ .returned) (id : Nat)
    (posted : state.recordBackgroundError.manualCompaction = some id) :
    ∃ call, state.recordBackgroundError.compactRangeCalls[id]? = some call ∧
      call.status ≠ .returned := by
  rw [recordBackgroundError] at posted ⊢
  split at posted
  · rename_i error
    rw [if_pos error]
    exact valid id posted
  · rename_i noError
    rw [if_neg noError]
    obtain ⟨call, isCall, running⟩ := valid id posted
    obtain ⟨woken, isWoken, _, stays⟩ := signalAll_call
      (show { state with write := { state.write with bgError := true } }.compactRangeCalls[id]? =
        some call from isCall)
    exact ⟨woken, isWoken, stays running⟩

theorem recordBackgroundError_manualCompaction (state : Scheduler α β) :
    state.recordBackgroundError.manualCompaction = state.manualCompaction := by
  rw [recordBackgroundError]
  split <;> rfl

end Posted

section Step

variable {state state' : Scheduler α β}

theorem getElem?_set_call {calls : List (CompactRangeCall α)} {id : Nat}
    {old call : CompactRangeCall α} (isCall : calls[id]? = some old) :
    (calls.set id call)[id]? = some call := by
  rw [List.getElem?_set_self']
  rw [isCall]
  rfl

/-- A caller goes through its loop. The one whose request is being worked on waits again. -/
theorem Posted.compactRange (inv : state.Posted) (free : state.mutex = none) {id : Nat}
    {call : CompactRangeCall α} (isCall : state.compactRangeCalls[id]? = some call) :
    (state.compactRangeLoop id call).Posted := by
  have notKept : state.mutex ≠ some .background := by simp [free]
  have notFinishing : ∀ manual ok, state.background ≠ .finishing manual ok :=
    fun manual ok finishing => notKept (inv.keeps manual ok finishing)
  have others : ∀ other (new : CompactRangeCall α), other ≠ id →
      (state.compactRangeCalls.set id new)[other]? = state.compactRangeCalls[other]? :=
    fun other new different => List.getElem?_set_ne (Ne.symm different)
  rw [compactRangeLoop]
  split
  · rename_i leaves
    have notRequest : state.background.request ≠ some id := by
      intro request
      obtain ⟨up, noError, posted, isPosted, notDone⟩ := inv.live id request notKept
      rw [isCall, Option.some_inj] at isPosted
      simp [isPosted, up, noError, notDone] at leaves
    split
    · rename_i posted
      refine posted_of_noRequest (fun other impossible => by cases impossible) ?_ fun manual ok
        finishing => absurd finishing (notFinishing manual ok)
      cases request : state.background.request with
      | none => exact request
      | some other =>
        rw [inv.same other request, Option.some_inj] at posted
        exact absurd (posted ▸ request) notRequest
    · rename_i notPosted
      refine ⟨fun other posted => ?_, inv.same, inv.keeps, fun other request _ => ?_⟩
      · have different : other ≠ id := fun same => notPosted (same ▸ posted)
        simp only [setCall, others other _ different]
        exact inv.valid other posted
      · have different : other ≠ id := fun same => notRequest (same ▸ request)
        simp only [setCall, others other _ different]
        exact inv.live other request notKept
  · split
    · rename_i noManual
      refine Posted.maybeSchedule (posted_of_noRequest (fun other posted => ?_) ?_ fun manual ok
        finishing => absurd finishing (notFinishing manual ok))
      · rw [← Option.some_inj.mp posted]
        exact ⟨_, getElem?_set_call isCall, by simp⟩
      · cases request : state.background.request with
        | none => exact request
        | some other =>
          rw [inv.same other request] at noManual
          cases noManual
    · refine ⟨fun other posted => ?_, inv.same, inv.keeps, fun other request _ => ?_⟩
      · by_cases same : other = id
        · rw [same]
          exact ⟨_, getElem?_set_call isCall, by simp⟩
        · simp only [setCall, others other _ same]
          exact inv.valid other posted
      · obtain ⟨up, noError, posted, isPosted, notDone⟩ := inv.live other request notKept
        refine ⟨up, noError, ?_⟩
        by_cases same : other = id
        · rw [same, isCall, Option.some_inj] at isPosted
          rw [same]
          exact ⟨_, getElem?_set_call isCall, isPosted ▸ notDone⟩
        · simp only [setCall, others other _ same]
          exact ⟨posted, isPosted, notDone⟩

theorem endCall_posted (valid : ∀ id, state.manualCompaction = some id →
    ∃ call, state.compactRangeCalls[id]? = some call ∧ call.status ≠ .returned) :
    (Scheduler.endCall state).Posted := by
  have ended : Posted
      { state with bgCompactionScheduled := false, background := .idle, mutex := none } :=
    posted_of_noRequest valid rfl fun _ _ finishing => by cases finishing
  rw [Scheduler.endCall]
  simp only
  split
  · exact ended.signalAll
  · exact ended.maybeSchedule.signalAll

/-- A background step that keeps the mutex free, the request and the callers. -/
theorem Posted.busy (inv : state.Posted) (free : state.mutex = none)
    (request : state'.background.request = state.background.request)
    (notFinishing : ∀ manual ok, state'.background ≠ .finishing manual ok)
    (manual : state'.manualCompaction = state.manualCompaction)
    (calls : state'.compactRangeCalls = state.compactRangeCalls)
    (down : state'.shuttingDown = state.shuttingDown)
    (bgError : state'.write.bgError = state.write.bgError) : state'.Posted := by
  refine ⟨?_, ?_, fun manual ok finishing => absurd finishing (notFinishing manual ok),
    fun id isRequest _ => ?_⟩
  · rw [manual, calls]
    exact inv.valid
  · rw [request, manual]
    exact inv.same
  · rw [request] at isRequest
    rw [down, bgError, calls]
    exact inv.live id isRequest (by simp [free])

/-- The end of a compaction: the mutex is taken until the end of the call. -/
theorem finishing_posted {finished : Scheduler α β} {manual : Option (Nat × Option (InternalKey α))}
    {ok : Bool}
    (valid : ∀ id, finished.manualCompaction = some id →
      ∃ call, finished.compactRangeCalls[id]? = some call ∧ call.status ≠ .returned)
    (same : ∀ id, manual.map Prod.fst = some id → finished.manualCompaction = some id) :
    (finished.finishing manual ok).Posted :=
  ⟨valid, same, fun _ _ _ => rfl, fun _ _ free => absurd rfl free⟩

/-- After a failed flush the background thread must not be working on a request. -/
theorem afterFlush_posted {failed : Scheduler α β}
    (valid : ∀ id, failed.manualCompaction = some id →
      ∃ call, failed.compactRangeCalls[id]? = some call ∧ call.status ≠ .returned)
    (inside : Option (CompactionJob α β)) (noRequest : ∀ job ∈ inside, job.manual = none) :
    (failed.afterFlush inside).Posted := by
  cases inside with
  | none => exact finishing_posted valid fun _ request => by cases request
  | some job =>
    refine Posted.signalAll (posted_of_noRequest valid ?_ fun _ _ finishing => by cases finishing)
    rw [Background.request, noRequest job rfl]
    rfl

variable [LinearOrder α]

theorem Posted.logged_valid (inv : state.Posted) (edit : VersionEdit α β) (succeeds : Bool)
    (id : Nat) (posted : (state.logged edit succeeds).manualCompaction = some id) :
    ∃ call, (state.logged edit succeeds).compactRangeCalls[id]? = some call ∧
      call.status ≠ .returned := by
  cases succeeds with
  | true => exact inv.valid id posted
  | false =>
    exact @recordBackgroundError_valid _ _ { state with manifest := state.manifest ++ [(edit, false)] }
      inv.valid id posted

theorem logged_manualCompaction (edit : VersionEdit α β) (succeeds : Bool) :
    (state.logged edit succeeds).manualCompaction = state.manualCompaction := by
  cases succeeds with
  | true => rfl
  | false => exact recordBackgroundError_manualCompaction _

variable [Inhabited β] {options : SchedulerOptions α β} {action : SchedulerAction α β}

theorem Posted.step (inv : state.Posted) (spares : state.SparesManual action)
    (taken : state.step options action = some state') : state'.Posted := by
  cases step_moves taken with
  | queue action write may queued =>
    have notFinish : action ≠ .finish := by
      rintro rfl
      simp [WriteAction.unlocked, WriteAction.locks] at may
    have bgError := WriteState.step_bgError notFinish queued
    refine { inv with live := fun id request notKept => ?_ }
    simp only [bgError]
    exact inv.live id request notKept
  | lead write free queued force isForce =>
    exact inv.of_same (by simp [free]) rfl rfl rfl rfl (WriteState.step_bgError (by simp) queued)
  | delay newLogFails inRoom => exact inv.of_same inRoom.not_background rfl rfl rfl rfl rfl
  | leave newLogFails inRoom action reason write queued =>
    have notFinish : action ≠ .finish := by
      rcases reason with rfl | ⟨rfl, _⟩ <;> simp
    exact inv.of_same inRoom.not_background rfl rfl rfl rfl
      (WriteState.step_bgError notFinish queued)
  | awaitImm newLogFails inRoom waiting =>
    exact inv.of_same inRoom.not_background rfl rfl rfl rfl rfl
  | awaitLevel0 newLogFails inRoom =>
    exact inv.of_same inRoom.not_background rfl rfl rfl rfl rfl
  | switch inRoom active write queued =>
    refine Posted.maybeSchedule (inv.of_same inRoom.not_background rfl rfl rfl rfl ?_)
    exact WriteState.step_bgError (by simp) queued
  | finishWrite write mutex queued same =>
    refine inv.of_same ?_ rfl rfl rfl rfl same
    rw [mutex]
    split <;> simp
  | finishWriteFailed write mutex queued before after =>
    have notKept : state.mutex ≠ some .background := by
      rw [mutex]
      split <;> simp
    have failed : state.write.phase.syncFailed = true := by
      cases WriteState.step_moves queued with
      | finish group status syncError last phase isLast =>
        simp only [before, Bool.false_or] at after
        rw [phase, after]
        rfl
      | leaves _ status phase reason => rcases reason with same | ⟨same, _⟩ <;> cases same
    refine Posted.signalAll (posted_of_noRequest inv.valid (spares failed) ?_)
    exact fun manual ok finishing => absurd (inv.keeps manual ok finishing) notKept
  | updateStats charged free db charges =>
    exact Posted.maybeSchedule (inv.of_same (by simp [free]) rfl rfl rfl rfl rfl)
  | callCompactRange level first last free =>
    have kept : ∀ (id : Nat) (call : CompactRangeCall α),
        state.compactRangeCalls[id]? = some call → (state.compactRangeCalls ++
          [⟨ManualCompaction.new level first last, .ready⟩])[id]? = some call := by
      intro id call isCall
      have inside := (List.getElem?_eq_some_iff.mp isCall).1
      rw [List.getElem?_append_left inside]
      exact isCall
    refine { inv with valid := fun id posted => ?_, live := fun id request notKept => ?_ }
    · obtain ⟨call, isCall, running⟩ := inv.valid id posted
      exact ⟨call, kept id call isCall, running⟩
    · obtain ⟨up, noError, call, isCall, notDone⟩ := inv.live id request notKept
      exact ⟨up, noError, call, kept id call isCall, notDone⟩
  | compactRange id call free isCall ready => exact inv.compactRange free isCall
  | callCompactMemTable write free queued =>
    exact inv.of_same (by simp [free]) rfl rfl rfl rfl (WriteState.step_bgError (by simp) queued)
  | compactMemTable index call status free isCall ready result => exact { inv with }
  | suspend free => exact { inv with }
  | resume free => exact { inv with }
  | shutDown free =>
    refine posted_of_noRequest inv.valid spares fun manual ok finishing => ?_
    exact inv.keeps manual ok finishing
  | refuse free idle scheduled refused =>
    exact finishing_posted inv.valid fun _ request => by cases request
  | startFlush free idle scheduled running noError full =>
    exact posted_of_noRequest inv.valid rfl fun _ _ finishing => by cases finishing
  | startManual id call free idle scheduled running noError manual isCall =>
    have posted : ∀ (new : CompactRangeCall α), new.status = call.status → ∀ other,
        state.manualCompaction = some other →
          ∃ call, (state.compactRangeCalls.set id new)[other]? = some call ∧
            call.status ≠ .returned := by
      intro new sameStatus other isPosted
      rw [manual, Option.some_inj] at isPosted
      subst isPosted
      obtain ⟨found, isFound, notReturned⟩ := inv.valid id manual
      rw [isCall, Option.some_inj] at isFound
      exact ⟨new, getElem?_set_call isCall, by rw [sameStatus, isFound]; exact notReturned⟩
    rw [Scheduler.startManual]
    split
    · refine finishing_posted (posted _ rfl) fun other request => ?_
      rw [← Option.some_inj.mp request]
      exact manual
    · refine ⟨posted _ rfl, fun other request => ?_, fun _ _ finishing => (by cases finishing),
        fun other request _ => ?_⟩
      · rw [← Option.some_inj.mp request]
        exact manual
      · rw [← Option.some_inj.mp request]
        exact ⟨running, noError, _, getElem?_set_call isCall, rfl⟩
  | startAutomatic free idle scheduled running noError noManual =>
    rw [Scheduler.startAutomatic]
    split
    · exact finishing_posted inv.valid fun _ request => by cases request
    · simp only
      split
      · exact posted_of_noRequest inv.valid rfl fun _ _ finishing => by cases finishing
      · exact posted_of_noRequest inv.valid rfl fun _ _ finishing => by cases finishing
  | tableBuilt number inside imm free isBackground full =>
    refine inv.busy free ?_ (by simp) rfl rfl rfl rfl
    rw [isBackground]
    cases inside <;> rfl
  | tableFailed number inside succeeds free isBackground failed =>
    have noRequest : state.background.request = none := by
      cases succeeds with
      | false => exact spares
      | true =>
        have down := failed.resolve_left (by simp)
        cases request : state.background.request with
        | none => rfl
        | some id =>
          have up := (inv.live id request (by simp [free])).1
          rw [down] at up
          cases up
    refine afterFlush_posted (recordBackgroundError_valid inv.valid) inside ?_
    rintro job rfl
    rw [isBackground] at noRequest
    exact Option.map_eq_none_iff.mp noRequest
  | flushLogged edit inside succeeds free isBackground =>
    cases succeeds with
    | false =>
      refine afterFlush_posted (inv.logged_valid edit false) inside ?_
      rintro job rfl
      rw [SparesManual, isBackground] at spares
      exact Option.map_eq_none_iff.mp spares
    | true =>
      cases inside with
      | none => exact finishing_posted inv.valid fun _ request => by cases request
      | some job =>
        refine Posted.signalAll (inv.busy free ?_ (by simp) rfl rfl rfl rfl)
        rw [isBackground]
        rfl
  | moveLogged edit succeeds free isBackground =>
    exact finishing_posted (inv.logged_valid edit succeeds) fun _ request => by cases request
  | visit job entry rest free isBackground remaining =>
    refine inv.busy free ?_ (by simp [Scheduler.visit]) rfl rfl rfl rfl
    rw [isBackground]
    rfl
  | flushInside job free isBackground full =>
    refine inv.busy free ?_ (by simp [Scheduler.startFlush]) rfl rfl rfl rfl
    rw [isBackground]
    rfl
  | endLoop job free isBackground done =>
    refine inv.busy free ?_ (by simp) rfl rfl rfl rfl
    rw [isBackground]
    rfl
  | endLoopFailed job free isBackground =>
    refine finishing_posted (recordBackgroundError_valid inv.valid) fun id request => ?_
    rw [recordBackgroundError_manualCompaction]
    exact inv.same id (by rw [isBackground]; exact request)
  | resultsLogged edit job succeeds free isBackground =>
    refine finishing_posted (inv.logged_valid edit succeeds) fun id request => ?_
    refine (logged_manualCompaction edit succeeds).trans ?_
    exact inv.same id (by rw [isBackground]; exact request)
  | endCall ok isBackground => exact endCall_posted inv.valid
  | endManual id manualEnd ok isBackground finished finishes =>
    obtain ⟨posted, _, finishes⟩ := Option.bind_eq_some_iff.mp finishes
    obtain ⟨call, _, rfl⟩ := Option.map_eq_some_iff.mp finishes
    exact endCall_posted fun _ impossible => by cases impossible

end Step

instance (state : Scheduler α β) (action : SchedulerAction α β) :
    Decidable (state.SparesManual action) :=
  match action with
  | .shutDown | .tableBuilt false | .flushLogged false =>
    inferInstanceAs (Decidable (state.background.request = none))
  | .finishWrite => inferInstanceAs (Decidable (_ → state.background.request = none))
  | .write _ | .lead | .makeRoom _ | .updateStats _ | .callCompactRange _ _ _ | .compactRange _
  | .callCompactMemTable | .compactMemTable _ | .suspendCompaction | .resumeCompaction
  | .backgroundCall | .tableBuilt true | .flushLogged true | .moveLogged _ | .visit | .flushInside
  | .endLoop _ | .resultsLogged _ | .endCall => isTrue trivial

/-- In every run in which no error is recorded and no shutdown starts while a manual compaction
works with the mutex released, `BackgroundCompaction` finds the request it started from when it
comes to its end, and the call that owns it has not returned. -/
theorem manual_request_valid [LinearOrder α] [Inhabited β] (options : SchedulerOptions α β)
    (db : Db α β) (logNumber : Nat) (state : Scheduler α β)
    (reachable : Lib.Reachable (step options) SparesManual (opened db logNumber) state) (id : Nat)
    (manualEnd : Option (InternalKey α)) (ok : Bool)
    (isFinal : state.background = .finishing (some (id, manualEnd)) ok) :
    state.manualCompaction = some id ∧
      ∃ call, state.compactRangeCalls[id]? = some call ∧ call.status ≠ .returned := by
  have initially : (opened db logNumber).Posted := by
    refine Posted.maybeSchedule (posted_of_noRequest (fun id posted => ?_) rfl ?_)
    · cases posted
    · exact fun manual ok finishing => by cases finishing
  have kept : ∀ (state : Scheduler α β) action state', state.Posted →
      state.SparesManual action → step options state action = some state' → state'.Posted :=
    fun _ _ _ inv spares taken => inv.step spares taken
  have inv := reachable.invariant initially kept
  have posted := inv.same id (by rw [isFinal]; rfl)
  exact ⟨posted, inv.valid id posted⟩

/-- A write of one record up to the end of its log record. -/
def logOne (sync : Bool) : List (SchedulerAction Nat Nat) :=
  [.write (.arrive (some ⟨0, 1, [.put 1 1]⟩) sync), .lead, .makeRoom false, .write (.append true)]

/-- A record is written and flushed, and a manual compaction of its table is started. -/
def manualCompactionRuns : List (SchedulerAction Nat Nat) :=
  logOne false ++ [.write .insert, .write .insert, .finishWrite] ++ forcedSwitch ++
    [.backgroundCall, .tableBuilt true, .flushLogged true, .endCall,
      .callCompactRange 2 none none, .compactRange 0, .backgroundCall]

/-- The end of the first request, when a background call that succeeded is about to finish it. -/
def manualEndOf : Background α β → Option (InternalKey α)
  | .finishing (some (0, some manualEnd)) true => some manualEnd
  | _ => none

theorem background_of_manualEnd {background : Background α β} {manualEnd : InternalKey α}
    (isEnd : manualEndOf background = some manualEnd) :
    background = .finishing (some (0, some manualEnd)) true := by
  unfold manualEndOf at isEnd
  split at isEnd
  · rw [Option.some.inj isEnd]
  · cases isEnd

theorem manual_request_valid_compacted :
    ∃ state manualEnd ok, Lib.Reachable (step smallOptions) SparesManual (opened Db.empty 3) state ∧
      state.background = .finishing (some (0, manualEnd)) ok ∧
        state.manualCompaction = some 0 := by
  obtain ⟨state, reachable, outcome⟩ := Lib.exists_of_run
    (show (Lib.run (step smallOptions) SparesManual (opened Db.empty 3)
        (manualCompactionRuns ++ [.visit, .endLoop true, .resultsLogged true])).any (fun state =>
      (manualEndOf state.background).isSome) = true by decide +kernel)
  obtain ⟨manualEnd, isEnd⟩ := Option.isSome_iff_exists.mp outcome
  have isFinal := background_of_manualEnd isEnd
  exact ⟨state, some manualEnd, true, reachable, isFinal, (manual_request_valid smallOptions
    Db.empty 3 state reachable 0 (some manualEnd) true isFinal).1⟩

/-- A failed sync lets the caller return while its compaction runs: at the end there is no request
to go back to. -/
theorem manual_request_gone_after_error :
    ∃ state manualEnd ok, Lib.Reachable (step smallOptions) (fun _ _ => True) (opened Db.empty 3)
        state ∧ state.background = .finishing (some (0, manualEnd)) ok ∧
      state.manualCompaction = none := by
  obtain ⟨state, reachable, outcome⟩ := Lib.exists_of_run
    (show (Lib.run (step smallOptions) (fun _ _ => True) (opened Db.empty 3)
        (manualCompactionRuns ++ logOne true ++ [.write (.sync false), .finishWrite,
          .compactRange 0, .visit, .endLoop true, .resultsLogged true])).any (fun state =>
      (manualEndOf state.background).isSome && state.manualCompaction.isNone) = true by decide +kernel)
  obtain ⟨finishes, gone⟩ := Bool.and_eq_true_iff.mp outcome
  obtain ⟨manualEnd, isEnd⟩ := Option.isSome_iff_exists.mp finishes
  exact ⟨state, some manualEnd, true, reachable, background_of_manualEnd isEnd,
    Option.isNone_iff_eq_none.mp gone⟩

end Scheduler

end LevelDb
