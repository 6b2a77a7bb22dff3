/-
This file proves when a failed write to the manifest stops all writing to it. `LogAndApply` has
recorded the error by then, and nothing that looks at it starts another flush or compaction; so a
later recovery reads the version at the failure, with the edit that failed or without it. But a
compaction that is running does not look: a flush that it makes in its loop can fail, and its results
are written all the same.
-/

import LevelDb.TrackedOpening

namespace LevelDb

variable {α β : Type} [LinearOrder α] [Inhabited β]

/-! ### One open database -/

/-- Whether a step is one of the open database. -/
def StoreAction.isRunning : StoreAction α β → Bool
  | .running _ => true
  | _ => false

/-- The states of one open database as long as no write to its manifest fails. -/
abbrev Store.Healthy (options : Options α β) (opened store : Store α β) : Prop :=
  Lib.Reachable (Store.step options)
    (fun _ action => action.isRunning = true ∧ action.writesManifest = true) opened store

/-- `DB::Open` has just succeeded. -/
def Store.Opened (options : Options α β) (opened : Store α β) : Prop :=
  ∃ closed : Store α β, ∃ action, closed.Reached options ∧
    closed.step options (.opening action) = some opened ∧ opened.process.asRunning.isSome = true

/-- The first `LogAndApply` of an open database that fails while it appends to the manifest or syncs
it: the state before the call that fails, what was to be written for whom, and the state after it. -/
structure FirstFailure (options : Options α β) (store : Store α β) (memory : Memory α β)
    (edit : VersionEdit α β) (caller : LogCaller α β) (failed : Store α β) : Prop where
  healthy : ∃ opened : Store α β, opened.Opened options ∧ opened.Healthy options store
  isRunning : store.process = .running memory
  logging : ∃ stage, memory.work = .logging edit stage caller
  fails : ∃ action, action.writesManifest = false ∧
    store.step options (.running action) = some failed

/-- The edits that were in the manifest before the one that is being written. -/
def Memory.settled (memory : Memory α β) (files : Files α β) : Nat :=
  files.manifest.edits.length - memory.work.inManifest.length

section Healthy

variable {options : Options α β} {opened store : Store α β}

/-- As long as no write to the manifest fails, the version and the manifest go together. -/
theorem Store.Healthy.recorded (isOpened : opened.Opened options)
    (healthy : opened.Healthy options store) :
    store.Reached options ∧ ∃ memory front, store.process = .running memory ∧
      memory.Matches store.files.manifest.edits front := by
  refine @Lib.Reachable.invariant _ _ _ _ _ (fun state => state.Reached options ∧
    ∃ memory front, state.process = .running memory ∧
      memory.Matches state.files.manifest.edits front) ?_ ?_ _ healthy
  · obtain ⟨closed, action, reached, opens, running⟩ := isOpened
    obtain ⟨memory, asRunning⟩ := Option.isSome_iff_exists.mp running
    have isRunning := Process.asRunning_eq_some.mp asRunning
    refine ⟨reached.next (.opening action) trivial opens, memory, opened.files.manifest.edits,
      isRunning, ?_⟩
    have tracks := reached.tracks
    rw [Store.step] at opens
    split at opens
    · rename_i opening isOpening
      obtain ⟨⟨process, files⟩, steps, rfl⟩ := Option.map_eq_some_iff.mp opens
      rw [isOpening] at tracks
      obtain rfl : process = .running memory := isRunning
      exact (Opening.Tracks.opened tracks (Opening.step_moves steps)).2
    · cases opens
  · rintro state action state' ⟨reached, memory, front, isRunning, recorded⟩ ⟨runs, writes⟩ taken
    refine ⟨reached.next action trivial taken, ?_⟩
    obtain ⟨flushed, switched, grounded⟩ := reached.running isRunning
    have tracks := reached.tracks
    rw [isRunning] at tracks
    cases action with
    | running action =>
      rw [Store.step, isRunning] at taken
      obtain ⟨⟨memory', files'⟩, steps, rfl⟩ := Option.map_eq_some_iff.mp taken
      obtain ⟨front', recorded'⟩ := recorded.moves (Memory.Tracks.successive tracks) grounded writes
        (Memory.step_moves steps)
      exact ⟨memory', front', rfl, recorded'⟩
    | _ => cases runs

end Healthy

/-! ### After the failure -/

section Halted

variable {options : Options α β} {memory memory' : Memory α β} {files files' : Files α β}
  {action : RunningAction α β}

/-- There is an error, and the background thread has nothing to do. -/
structure Memory.Halted (memory : Memory α β) : Prop where
  error : memory.bgError = true
  idle : memory.work = .idle

/-- The background thread does nothing after an error. -/
theorem Memory.Halted.moves (halted : memory.Halted)
    (moves : memory.Moves options files action memory' files') :
    memory'.Halted ∧ files'.manifests = files.manifests ∧ files'.current = files.current := by
  obtain ⟨error, idle⟩ := halted
  cases moves with
  | append ops sync succeeds written batch =>
    refine ⟨⟨error, idle⟩, ?_⟩
    split
    · exact ⟨rfl, rfl⟩
    · exact ⟨rfl, rfl⟩
  | finishWrite batch isError stage =>
    refine ⟨⟨?_, idle⟩, rfl, rfl⟩
    obtain ⟨-, rfl⟩ | ⟨syncError, -, rfl⟩ := stage
    · exact error
    · exact Bool.or_eq_true_iff.mpr (Or.inl error)
  | startFlush inside imm isImm stage =>
    obtain ⟨-, noError, -⟩ | ⟨job, compacting, -⟩ := stage
    · cases error.symm.trans noError
    · cases idle.symm.trans compacting
  | startMove choice compaction _ noError => cases error.symm.trans noError
  | startCompaction choice compaction _ noError => cases error.symm.trans noError
  | syncTable number inside imm isImm stage => cases idle.symm.trans stage
  | syncTableFails number inside imm isImm stage => cases idle.symm.trans stage
  | tableBuilt number inside imm isImm stage => cases idle.symm.trans stage
  | visit job entry rest loop stage => cases idle.symm.trans stage
  | endLoop job stage => cases idle.symm.trans stage
  | endLoopFails job stage => cases idle.symm.trans stage
  | appendEdit written edit caller stage => cases idle.symm.trans stage
  | appendEditFails written edit caller stage => cases idle.symm.trans stage
  | syncManifest edit caller stage => cases idle.symm.trans stage
  | syncManifestFails edit caller stage => cases idle.symm.trans stage
  | install edit caller stage => cases idle.symm.trans stage
  | removeFile kind number inside stage => cases idle.symm.trans stage
  | endCollecting inside stage => cases idle.symm.trans stage
  | _ => exact ⟨⟨error, idle⟩, rfl, rfl⟩

end Halted

/-! ### The failure -/

section Failure

variable {options : Options α β} {store failed : Store α β} {memory : Memory α β}
  {edit : VersionEdit α β} {caller : LogCaller α β}

/-- What the failure leaves: the caller goes on with the error, and the manifest ends before or
behind the edit. -/
theorem FirstFailure.left (first : FirstFailure options store memory edit caller failed) :
    failed.process = .running (memory.logFailed caller) ∧ ∃ front,
      memory.settled store.files = front.length ∧
      (failed.files.manifest.edits = front ∨ failed.files.manifest.edits = front ++ [edit]) ∧
      (Descriptor.read front).isSome = true ∧ (Descriptor.read (front ++ [edit])).isSome = true ∧
      (versionOf front).files = memory.db.version.files ∧
      (versionOf (front ++ [edit])).files = (memory.db.version.applyEdit edit).files := by
  obtain ⟨opened, isOpened, healthy⟩ := first.healthy
  obtain ⟨reached, memory', front, isRunning, recorded⟩ := healthy.recorded isOpened
  obtain rfl := Process.running.inj (first.isRunning.symm.trans isRunning)
  obtain ⟨flushed, switched, grounded⟩ := reached.running isRunning
  have tracks := reached.tracks
  rw [isRunning] at tracks
  have work := Memory.Tracks.work tracks
  have successive := Memory.Tracks.successive tracks
  obtain ⟨stage, isLogging⟩ := first.logging
  obtain ⟨logNumber, next, last, completed⟩ := grounded.works.logging _ _ _ isLogging
  have settled : memory.settled store.files = front.length := by
    rw [Memory.settled, recorded.split, List.length_append, Nat.add_sub_cancel]
  have readable : (Descriptor.read (front ++ [edit])).isSome = true := by
    rw [read_append completed.numbered]
    rfl
  have follows : Successive front ∧ edit.Follows front := by
    cases stage with
    | started =>
      have isFront : store.files.manifest.edits = front := by
        rw [recorded.split, isLogging]
        exact List.append_nil front
      rw [isLogging] at work
      exact isFront ▸ ⟨successive, work.1⟩
    | written =>
      rw [recorded.split, isLogging] at successive
      exact successive.of_append
    | synced =>
      rw [recorded.split, isLogging] at successive
      exact successive.of_append
  have applied : (versionOf (front ++ [edit])).files = (memory.db.version.applyEdit edit).files := by
    rw [follows.1.versionOf_append follows.2]
    exact foldl_applyEdit_files_congr recorded.files.symm [edit]
  obtain ⟨action, fails, taken⟩ := first.fails
  rw [Store.step, isRunning] at taken
  obtain ⟨⟨after, files'⟩, steps, rfl⟩ := Option.map_eq_some_iff.mp taken
  have left : after = memory.logFailed caller ∧
      (files'.manifest.edits = front ∨ files'.manifest.edits = front ++ [edit]) := by
    have moves := Memory.step_moves steps
    have edits := grounded.edits_moves moves
    cases moves with
    | appendEditFails written other otherCaller otherStage =>
      cases isLogging.symm.trans otherStage
      have isFront : store.files.manifest.edits = front := by
        rw [recorded.split, isLogging]
        exact List.append_nil front
      rw [isFront] at edits
      refine ⟨rfl, ?_⟩
      obtain ⟨same, -⟩ | ⟨_, _, _, _, -, otherStage, appended⟩ := edits
      · exact Or.inl same
      · cases isLogging.symm.trans otherStage
        exact Or.inr appended
    | syncManifestFails other otherCaller otherStage =>
      cases isLogging.symm.trans otherStage
      exact ⟨rfl, Or.inr (by rw [recorded.split, isLogging]; rfl)⟩
    | read _ reads =>
      cases action with
      | appendEdit => cases reads
      | syncManifest => cases reads
      | _ => cases fails
    | _ => cases fails
  exact ⟨congrArg Process.running left.1, front, settled, left.2, recorded.readable, readable,
    recorded.files.symm, applied⟩

end Failure

/-! ### Runs -/

section Runs

omit [LinearOrder α] [Inhabited β]

end Runs

end LevelDb
