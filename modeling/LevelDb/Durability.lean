/-
This file proves the durability of a database over crashes. After any run of opening, sync and other
writes, flushes, compactions, deletions and crashes, without `reuse_logs`, a crash at any point that
keeps what was synced leaves files from which the next `Open` gets every batch that was acknowledged to
a sync `Write`: it is in a log that is replayed, or each of its entries is in a table of the recovered
version or was dropped by a compaction.
-/

import LevelDb.DurableOpening

namespace LevelDb

variable {α β : Type} [LinearOrder α] [Inhabited β]

/-! ### The invariant -/

/-- What was promised to sync writers, and how the process keeps it. -/
def Process.Durable (files : Files α β) (acknowledged : List (WriteBatch α β)) :
    Process α β → Prop
  | .down => files.Durable acknowledged
  | .opening state => state.Durable files acknowledged
  | .running memory => memory.Durable files acknowledged

/-- No log is reused, and a crash keeps what was synced. -/
def StoreAction.KeepsSynced (files : Files α β) : StoreAction α β → Prop
  | .open reuseLogs _ => reuseLogs = false
  | .crash loss => loss.KeepsSynced files
  | _ => True

/-- The states after runs without `reuse_logs` in which every crash keeps what was synced. -/
def Store.Survives (options : Options α β) (store : Store α β) : Prop :=
  Lib.Reachable (Store.step options) (fun store action => action.KeepsSynced store.files)
    Store.created store

section Moves

variable {options : Options α β} {opening : Opening α β} {process : Process α β}
  {files files' : Files α β} {action : OpeningAction} {acknowledged : List (WriteBatch α β)}

/-- What was promised is kept by every step of opening. -/
theorem Opening.Durable.moves (durable : opening.Durable files acknowledged)
    (grounded : opening.Grounded files) (tracks : opening.Tracks files)
    (moves : opening.Moves options files action process files') :
    process.Durable files' acknowledged := by
  have stageTracks := tracks.stage
  cases moves with
  | replay log logs batch unread stage isLogs isUnread => exact durable.replay stage isLogs isUnread
  | startFlush mem stage isMem =>
    have notBuilding : ∀ number, opening.stage ≠ .building number true :=
      fun number building => by cases stage.symm.trans building
    have written := durable.putTable grounded.newNumber_next notBuilding mem false
    exact
      { written with
        saves := rfl
        building := fun number impossible => by cases impossible
        rewrites := fun edit logging impossible => by cases impossible }
  | syncTable number mem stage isMem =>
    rw [stage] at stageTracks
    have notBuilding : ∀ number, opening.stage ≠ .building number true :=
      fun number building => by cases stage.symm.trans building
    have written := durable.putTable stageTracks.2 notBuilding mem true
    exact
      { written with
        building := fun other isOther content isContent nonempty => by
          cases isOther
          obtain rfl := Option.mem_some.mp (isMem ▸ isContent)
          obtain ⟨first, rest, rfl⟩ := List.exists_cons_of_ne_nil nonempty
          exact ⟨Lib.Shelf.mem_put.mpr (Or.inl rfl), Lib.Shelf.put_file_self _ _ _⟩
        rewrites := fun edit logging impossible => by cases impossible }
  | tableBuilt number mem stage isMem => exact durable.tableBuilt stage isMem
  | endLog log logs stage isLogs isUnread isMem =>
    exact durable.finishLog stage isLogs isUnread isMem
  | reuseLog log stage isLogs isUnread reuses whole => cases durable.replays.symm.trans reuses
  | createLog stage isLogs noLog => exact durable.createLog grounded stage isLogs
  | logEdit stage isLogs hasLog saves => exact durable.logEdit _ rfl rfl
  | skipEdit stage isLogs hasLog saves => cases durable.saves.symm.trans saves
  | appendReused edit stage reused => cases durable.creates.symm.trans reused
  | appendCreated edit stage created => exact durable.appendCreated grounded stage
  | syncManifest edit stage => exact durable.syncManifest grounded stage
  | install edit stage => exact durable.install grounded tracks stage

theorem Process.Durable.durable (durable : process.Durable files acknowledged) :
    files.Durable acknowledged := by
  cases process with
  | down => exact durable
  | opening state => exact Opening.Durable.promised durable
  | running memory => exact Memory.Durable.durable durable

end Moves

/-! ### Every run -/

section Runs

variable {options : Options α β} {store store' : Store α β}

theorem Store.durable_step {action : StoreAction α β}
    (grounded : store.process.Grounded store.files) (tracks : store.process.Tracks store.files)
    (durable : store.process.Durable store.files store.acknowledged)
    (keeps : action.KeepsSynced store.files) (taken : store.step options action = some store') :
    store'.process.Durable store'.files store'.acknowledged := by
  cases action with
  | «open» reuseLogs reuseManifest =>
    obtain rfl : reuseLogs = false := keeps
    rw [Store.step] at taken
    split at taken
    · obtain ⟨opening, recovers, rfl⟩ := Option.map_eq_some_iff.mp taken
      exact durable.durable.start recovers
    · cases taken
  | opening action =>
    rw [Store.step] at taken
    split at taken
    · rename_i opening isOpening
      obtain ⟨⟨process, files⟩, steps, rfl⟩ := Option.map_eq_some_iff.mp taken
      rw [isOpening] at grounded tracks durable
      exact Opening.Durable.moves durable grounded tracks (Opening.step_moves steps)
    · cases taken
  | running action =>
    rw [Store.step] at taken
    split at taken
    · rename_i memory isRunning
      obtain ⟨⟨memory', files⟩, steps, rfl⟩ := Option.map_eq_some_iff.mp taken
      rw [isRunning] at grounded tracks durable
      obtain ⟨flushed, switched, running⟩ := grounded
      exact Memory.Durable.step durable running tracks steps
    · cases taken
  | crash loss =>
    cases taken
    exact durable.durable.crash grounded.recoverable keeps

theorem durable_created : (Store.created : Store α β).files.Durable [] := by
  refine ⟨⟨Nat.zero_le _, fun impossible => absurd impossible (Nat.lt_irrefl 0),
    fun kept _ level file inVersion => ?_⟩, List.forall_mem_nil _⟩
  obtain ⟨new, isAdded, -⟩ := mem_versionOf inVersion
  exact absurd (addedFiles_take_subset _ _ isAdded) List.not_mem_nil

theorem Store.Survives.durable (survives : store.Survives options) :
    store.process.Grounded store.files ∧
      store.process.Durable store.files store.acknowledged := by
  have all : store.process.Grounded store.files ∧ store.process.Tracks store.files ∧
      store.process.Durable store.files store.acknowledged :=
    @Lib.Reachable.invariant _ _ _ _ _
      (fun state => state.process.Grounded state.files ∧ state.process.Tracks state.files ∧
        state.process.Durable state.files state.acknowledged)
      ⟨grounded_created, tracks_created, durable_created⟩
      (fun _ _ _ all keeps taken => ⟨Store.grounded_step all.1 taken,
        Store.tracks_step all.1 all.2.1 taken,
        Store.durable_step all.1 all.2.1 all.2.2 keeps taken⟩) _ survives
  exact ⟨all.1, all.2.2⟩

end Runs

/-! ### Two runs -/

section Examples

end Examples

end LevelDb
