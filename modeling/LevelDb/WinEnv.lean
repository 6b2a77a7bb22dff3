/-
This file models two operations of `WinEnv` (`util/env_win`) as the system calls they make.

`RenameFile` deletes the target and then moves the source to it. `SetCurrentFile` replaces `CURRENT`
with it, so between the two calls, and after a move that fails, there is no `CURRENT`. `Sync` does
not notice that its flush failed, so `CURRENT` can also be replaced by a file that was not written.

`LockFile` ignores what its system calls return, and so it always succeeds.
-/

import LevelDb.FileName
import LevelDb.Lib.Run

namespace LevelDb.WinEnv

/-! ### Replacing `CURRENT` -/

/-- `DeleteFileA`. -/
def deleteFile (succeeds : Bool) (name : Bytes) (directory : Directory) : Directory :=
  if succeeds then Function.update directory name none else directory

/-- `MoveFileA`: it fails if the target exists. -/
def moveFile (succeeds : Bool) (source target : Bytes) (directory : Directory) : Bool × Directory :=
  match directory source, directory target with
  | some contents, none =>
    if succeeds then
      (true, Function.update (Function.update directory target (some contents)) source none)
    else (false, directory)
  | _, _ => (false, directory)

/-- What becomes of the system calls of `SetCurrentFile` and of the end of `LogAndApply`: whether
the temporary file is opened, after how many bytes the stream refuses them if it does, how many bytes
the flush writes, and which of the files are deleted and moved. -/
structure Faults where
  opened : Bool := true
  refused : Option Nat := none
  flushed : Nat
  failedTempDeleted : Bool := true
  currentDeleted : Bool := true
  moved : Bool := true
  tempDeleted : Bool := true
  manifestDeleted : Bool := true

/-- What `CURRENT` holds when it names a manifest. -/
def currentContents (descriptorNumber : Nat) : Bytes := descriptorFileName descriptorNumber ++ [10]

/-- `SetCurrentFile`: whether it succeeded, and the directory after each system call. A stream that
could not be opened refuses all bytes; `Sync` and `Close` succeed in any case. -/
def setCurrentFile (faults : Faults) (descriptorNumber : Nat) (directory : Directory) :
    Bool × List Directory :=
  let temp := tempFileName descriptorNumber
  let contents := currentContents descriptorNumber
  let opened := if faults.opened then Function.update directory temp (some []) else directory
  if faults.opened && faults.refused.isNone then
    let flushed := Function.update opened temp (some (contents.take faults.flushed))
    let removed := deleteFile faults.currentDeleted currentFileName flushed
    let moved := moveFile faults.moved temp currentFileName removed
    let calls := [opened, opened, flushed, flushed, removed, moved.2]
    if moved.1 then (true, calls)
    else (false, calls ++ [deleteFile faults.tempDeleted temp moved.2])
  else
    let refused :=
      if faults.opened then
        Function.update opened temp (some (contents.take (faults.refused.getD 0)))
      else opened
    let deleted := deleteFile faults.failedTempDeleted temp refused
    (false, [opened, refused, deleted, deleteFile faults.tempDeleted temp deleted])

/-- The directory before and after each system call from `SetCurrentFile` to the end of
`LogAndApply`, which deletes the new manifest if it could not be installed. -/
def installManifest (faults : Faults) (descriptorNumber : Nat) (directory : Directory) :
    List Directory :=
  let set := setCurrentFile faults descriptorNumber directory
  let states := directory :: set.2
  if set.1 then states
  else
    states ++ (states.getLast?.map
      (deleteFile faults.manifestDeleted (descriptorFileName descriptorNumber))).toList

/-- `CURRENT` names one of two manifests, and it is there with all its contents. -/
def NamesManifest (old new : Nat × Bytes) (directory : Directory) : Prop :=
  ∃ manifest, (manifest = old ∨ manifest = new) ∧
    directory currentFileName = some (currentContents manifest.1) ∧
      directory (descriptorFileName manifest.1) = some manifest.2

/-- `CURRENT` was deleted, and a whole file that names the new manifest has not been moved to its
place in the first `calls` system calls. -/
def CurrentLost (faults : Faults) (descriptorNumber calls : Nat) : Prop :=
  faults.opened = true ∧ faults.refused = none ∧ faults.currentDeleted = true ∧ 5 ≤ calls ∧
    ¬ (6 ≤ calls ∧ faults.moved = true ∧
      (currentContents descriptorNumber).length ≤ faults.flushed)

/-- `Recover` creates a new database if there is no `CURRENT` and it may. -/
def createsNewDb (createIfMissing : Bool) (directory : Directory) : Bool :=
  (directory currentFileName).isNone && createIfMissing

instance (faults : Faults) (descriptorNumber calls : Nat) :
    Decidable (CurrentLost faults descriptorNumber calls) :=
  inferInstanceAs (Decidable (_ ∧ _))

/-! #### What the calls leave alone -/

/-- The directories agree on `CURRENT` and on the manifests. -/
structure Agrees (directory other : Directory) : Prop where
  current : other currentFileName = directory currentFileName
  manifest : ∀ number, other (descriptorFileName number) = directory (descriptorFileName number)

theorem Agrees.trans {directory middle other : Directory} (first : Agrees directory middle)
    (second : Agrees middle other) : Agrees directory other :=
  ⟨second.current.trans first.current, fun number =>
    (second.manifest number).trans (first.manifest number)⟩

theorem agrees_update_temp (directory : Directory) (number : Nat) (contents : Option Bytes) :
    Agrees directory (Function.update directory (tempFileName number) contents) :=
  ⟨Function.update_of_ne (makeFileName_ne_currentFileName _ _).symm _ _, fun _ =>
    Function.update_of_ne (makeFileName_ne_descriptorFileName _ _ _).symm _ _⟩

theorem agrees_deleteFile_temp (succeeds : Bool) (directory : Directory) (number : Nat) :
    Agrees directory (deleteFile succeeds (tempFileName number) directory) := by
  rw [deleteFile]
  split
  · exact agrees_update_temp directory number none
  · exact ⟨rfl, fun _ => rfl⟩

/-- The name of a manifest has no end of line in it. -/
theorem newline_not_mem_descriptorFileName (number : Nat) : (10 : UInt8) ∉ descriptorFileName number := by
  intro member
  rcases List.mem_append.mp member with inPrefix | inDecimal
  · exact absurd inPrefix (by decide)
  · exact absurd (mem_decimal inDecimal).1 (by decide)

/-- A file with only a part of the name of a manifest names none. -/
theorem take_currentContents_ne {number other kept : Nat}
    (cut : kept < (currentContents number).length) :
    (currentContents number).take kept ≠ currentContents other := by
  intro same
  have newline : (10 : UInt8) ∈ currentContents other :=
    List.mem_append_right _ (List.mem_singleton.mpr rfl)
  rw [← same, currentContents, List.take_append_of_le_length] at newline
  · exact newline_not_mem_descriptorFileName number (List.mem_of_mem_take newline)
  · rw [currentContents, List.length_append] at cut
    exact Nat.le_of_lt_succ cut

section Install

variable {faults : Faults} {old new : Nat × Bytes} {directory : Directory}

/-- The directory has `CURRENT` name the old manifest. -/
structure NamesOld (old : Nat × Bytes) (directory : Directory) : Prop where
  current : directory currentFileName = some (currentContents old.1)
  contents : directory (descriptorFileName old.1) = some old.2

theorem NamesOld.of_agrees {other : Directory} (names : NamesOld old directory)
    (agrees : Agrees directory other) : NamesOld old other :=
  ⟨agrees.current.trans names.current, (agrees.manifest _).trans names.contents⟩

theorem NamesOld.names (names : NamesOld old directory) (new : Nat × Bytes) :
    NamesManifest old new directory :=
  ⟨old, Or.inl rfl, names.current, names.contents⟩

theorem NamesOld.deleteManifest (names : NamesOld old directory) (succeeds : Bool)
    (different : descriptorFileName old.1 ≠ descriptorFileName new.1) :
    NamesOld old (deleteFile succeeds (descriptorFileName new.1) directory) := by
  rw [deleteFile]
  split
  · refine ⟨?_, ?_⟩
    · rw [Function.update_of_ne (descriptorFileName_ne_currentFileName _).symm]
      exact names.current
    · rw [Function.update_of_ne different]
      exact names.contents
  · exact names

theorem not_namesManifest_of_none (gone : directory currentFileName = none) :
    ¬ NamesManifest old new directory := by
  rintro ⟨manifest, _, current, _⟩
  rw [gone] at current
  cases current

theorem NamesManifest.not_createsNewDb (names : NamesManifest old new directory)
    (createIfMissing : Bool) : createsNewDb createIfMissing directory = false := by
  obtain ⟨manifest, _, current, _⟩ := names
  rw [createsNewDb, current]
  rfl

theorem deleteFile_none {succeeds : Bool} {name other : Bytes} (gone : directory other = none) :
    deleteFile succeeds name directory other = none := by
  rw [deleteFile]
  split
  · rw [Function.update_apply]
    split
    · rfl
    · exact gone
  · exact gone

/-- If the temporary file is refused, nothing happens to `CURRENT`. -/
theorem namesOld_of_refused (names : NamesOld old directory)
    (different : descriptorFileName old.1 ≠ descriptorFileName new.1)
    (refused : ¬ (faults.opened && faults.refused.isNone) = true) :
    ∀ state ∈ installManifest faults new.1 directory, NamesOld old state := by
  set opened := if faults.opened then
    Function.update directory (tempFileName new.1) (some []) else directory with isOpened
  set written := if faults.opened then Function.update opened (tempFileName new.1)
    (some ((currentContents new.1).take (faults.refused.getD 0))) else opened with isWritten
  have openedNames : NamesOld old opened := by
    rw [isOpened]
    split
    · exact names.of_agrees (agrees_update_temp _ _ _)
    · exact names
  have writtenNames : NamesOld old written := by
    rw [isWritten]
    split
    · exact openedNames.of_agrees (agrees_update_temp _ _ _)
    · exact openedNames
  have deletedNames := writtenNames.of_agrees
    (agrees_deleteFile_temp faults.failedTempDeleted written new.1)
  have tempNames := deletedNames.of_agrees (agrees_deleteFile_temp faults.tempDeleted _ new.1)
  have states : installManifest faults new.1 directory = [directory, opened, written,
      deleteFile faults.failedTempDeleted (tempFileName new.1) written,
      deleteFile faults.tempDeleted (tempFileName new.1)
        (deleteFile faults.failedTempDeleted (tempFileName new.1) written),
      deleteFile faults.manifestDeleted (descriptorFileName new.1)
        (deleteFile faults.tempDeleted (tempFileName new.1)
          (deleteFile faults.failedTempDeleted (tempFileName new.1) written))] := by
    rw [installManifest, setCurrentFile, if_neg refused]
    rfl
  rw [states]
  simp only [List.forall_mem_cons]
  exact ⟨names, openedNames, writtenNames, deletedNames, tempNames,
    tempNames.deleteManifest _ different, fun state impossible => absurd impossible List.not_mem_nil⟩

/-- The directory with the temporary file open, and with what was flushed to it. -/
def openedTemp (number : Nat) (directory : Directory) : Directory :=
  Function.update directory (tempFileName number) (some [])

def flushedTemp (faults : Faults) (number : Nat) (directory : Directory) : Directory :=
  Function.update (openedTemp number directory) (tempFileName number)
    (some ((currentContents number).take faults.flushed))

theorem agrees_flushedTemp (faults : Faults) (number : Nat) (directory : Directory) :
    Agrees directory (flushedTemp faults number directory) :=
  (agrees_update_temp _ _ _).trans (agrees_update_temp _ _ _)

theorem flushedTemp_temp (faults : Faults) (number : Nat) (directory : Directory) :
    flushedTemp faults number directory (tempFileName number) =
      some ((currentContents number).take faults.flushed) :=
  Function.update_self _ _ _

/-- The system calls of a `SetCurrentFile` whose temporary file is accepted. -/
theorem setCurrentFile_of_accepted (accepted : (faults.opened && faults.refused.isNone) = true)
    (number : Nat) (directory : Directory) :
    setCurrentFile faults number directory =
      let opened := openedTemp number directory
      let flushed := flushedTemp faults number directory
      let removed := deleteFile faults.currentDeleted currentFileName flushed
      let moved := moveFile faults.moved (tempFileName number) currentFileName removed
      if moved.1 then (true, [opened, opened, flushed, flushed, removed, moved.2])
      else (false, [opened, opened, flushed, flushed, removed, moved.2,
        deleteFile faults.tempDeleted (tempFileName number) moved.2]) := by
  have isOpened : faults.opened = true := (Bool.and_eq_true_iff.mp accepted).1
  rw [setCurrentFile, if_pos accepted, if_pos isOpened]
  rfl

/-- If `CURRENT` cannot be deleted, it goes on naming the old manifest. -/
theorem namesOld_of_kept (names : NamesOld old directory)
    (different : descriptorFileName old.1 ≠ descriptorFileName new.1)
    (accepted : (faults.opened && faults.refused.isNone) = true)
    (kept : faults.currentDeleted = false) :
    ∀ state ∈ installManifest faults new.1 directory, NamesOld old state := by
  have openedNames : NamesOld old (openedTemp new.1 directory) :=
    names.of_agrees (agrees_update_temp _ _ _)
  have flushedNames := names.of_agrees (agrees_flushedTemp faults new.1 directory)
  have tempNames := flushedNames.of_agrees (agrees_deleteFile_temp faults.tempDeleted _ new.1)
  have stays : deleteFile faults.currentDeleted currentFileName
      (flushedTemp faults new.1 directory) = flushedTemp faults new.1 directory := by
    rw [deleteFile, kept]
    rfl
  have notMoved : moveFile faults.moved (tempFileName new.1) currentFileName
      (flushedTemp faults new.1 directory) = (false, flushedTemp faults new.1 directory) := by
    rw [moveFile, flushedTemp_temp, flushedNames.current]
  rw [installManifest, setCurrentFile_of_accepted accepted]
  simp only [stays, notMoved, Bool.false_eq_true, if_false, List.getLast?_cons_cons,
    List.getLast?_singleton, Option.map_some, Option.toList_some, List.cons_append,
    List.nil_append, List.forall_mem_cons]
  exact ⟨names, openedNames, openedNames, flushedNames, flushedNames, flushedNames, flushedNames,
    tempNames, tempNames.deleteManifest _ different,
    fun state impossible => absurd impossible List.not_mem_nil⟩

/-- The directory after `CURRENT` was deleted, and after the temporary file was moved to it. -/
def removedCurrent (faults : Faults) (number : Nat) (directory : Directory) : Directory :=
  Function.update (flushedTemp faults number directory) currentFileName none

def movedTemp (faults : Faults) (number : Nat) (directory : Directory) : Directory :=
  Function.update (Function.update (removedCurrent faults number directory) currentFileName
    (some ((currentContents number).take faults.flushed))) (tempFileName number) none

theorem removedCurrent_current (faults : Faults) (number : Nat) (directory : Directory) :
    removedCurrent faults number directory currentFileName = none :=
  Function.update_self _ _ _

theorem movedTemp_current (faults : Faults) (number : Nat) (directory : Directory) :
    movedTemp faults number directory currentFileName =
      some ((currentContents number).take faults.flushed) :=
  (Function.update_of_ne (makeFileName_ne_currentFileName _ _).symm _ _).trans
    (Function.update_self _ _ _)

theorem movedTemp_manifest (faults : Faults) (number other : Nat) (directory : Directory) :
    movedTemp faults number directory (descriptorFileName other) =
      directory (descriptorFileName other) := by
  have notTemp : descriptorFileName other ≠ tempFileName number :=
    (makeFileName_ne_descriptorFileName _ _ _).symm
  have notCurrent := descriptorFileName_ne_currentFileName other
  rw [movedTemp, Function.update_of_ne notTemp, Function.update_of_ne notCurrent, removedCurrent,
    Function.update_of_ne notCurrent]
  exact (agrees_flushedTemp faults number directory).manifest other

/-- The system calls when `CURRENT` is deleted. -/
theorem installManifest_of_deleted (accepted : (faults.opened && faults.refused.isNone) = true)
    (deleted : faults.currentDeleted = true) (number : Nat) (directory : Directory) :
    installManifest faults number directory =
      [directory, openedTemp number directory, openedTemp number directory,
        flushedTemp faults number directory, flushedTemp faults number directory,
        removedCurrent faults number directory] ++
          if faults.moved then [movedTemp faults number directory]
          else [removedCurrent faults number directory,
            deleteFile faults.tempDeleted (tempFileName number)
              (removedCurrent faults number directory),
            deleteFile faults.manifestDeleted (descriptorFileName number)
              (deleteFile faults.tempDeleted (tempFileName number)
                (removedCurrent faults number directory))] := by
  have removes : deleteFile faults.currentDeleted currentFileName
      (flushedTemp faults number directory) = removedCurrent faults number directory := by
    rw [deleteFile, if_pos deleted]
    rfl
  have temp : removedCurrent faults number directory (tempFileName number) =
      some ((currentContents number).take faults.flushed) := by
    have notCurrent : tempFileName number ≠ currentFileName :=
      makeFileName_ne_currentFileName _ _
    rw [removedCurrent, Function.update_of_ne notCurrent]
    exact flushedTemp_temp faults number directory
  have moves : moveFile faults.moved (tempFileName number) currentFileName
      (removedCurrent faults number directory) =
        if faults.moved then (true, movedTemp faults number directory)
        else (false, removedCurrent faults number directory) := by
    rw [moveFile, temp, removedCurrent_current]
    rfl
  rw [installManifest, setCurrentFile_of_accepted accepted]
  simp only [removes, moves]
  cases faults.moved with
  | true => rfl
  | false => rfl

/-- Once the temporary file was moved, `CURRENT` names the new manifest exactly if it is whole. -/
theorem namesManifest_movedTemp_iff (opened : faults.opened = true)
    (notRefused : faults.refused = none) (deleted : faults.currentDeleted = true)
    (moved : faults.moved = true) (newContents : directory (descriptorFileName new.1) = some new.2) :
    NamesManifest old new (movedTemp faults new.1 directory) ↔ ¬ CurrentLost faults new.1 6 := by
  have current := movedTemp_current faults new.1 directory
  by_cases whole : (currentContents new.1).length ≤ faults.flushed
  · have named : NamesManifest old new (movedTemp faults new.1 directory) := by
      refine ⟨new, Or.inr rfl, ?_, (movedTemp_manifest _ _ _ _).trans newContents⟩
      rw [current, List.take_of_length_le whole]
    exact ⟨fun _ lost => lost.2.2.2.2 ⟨le_rfl, moved, whole⟩, fun _ => named⟩
  · constructor
    · rintro ⟨manifest, _, isCurrent, _⟩
      have same := Option.some.inj (current.symm.trans isCurrent)
      exact absurd same (take_currentContents_ne (Nat.lt_of_not_le whole))
    · intro notLost
      exact absurd ⟨opened, notRefused, deleted, by decide, fun both => whole both.2.2⟩ notLost

end Install

/-- At every point between two system calls, from `SetCurrentFile` to the end of `LogAndApply`,
`CURRENT` names the old or the new manifest exactly if it was not deleted, or a whole temporary
file was already moved to its place. -/
theorem namesManifest_iff (faults : Faults) (old new : Nat × Bytes) (directory : Directory)
    (current : directory currentFileName = some (currentContents old.1))
    (oldContents : directory (descriptorFileName old.1) = some old.2)
    (newContents : directory (descriptorFileName new.1) = some new.2)
    (different : descriptorFileName old.1 ≠ descriptorFileName new.1) (calls : Nat)
    (state : Directory) (isState : (installManifest faults new.1 directory)[calls]? = some state) :
    NamesManifest old new state ∧ createsNewDb true state = false ↔
      ¬ CurrentLost faults new.1 calls := by
  rw [and_iff_left_of_imp fun named => named.not_createsNewDb true]
  have names : NamesOld old directory := ⟨current, oldContents⟩
  have member : state ∈ installManifest faults new.1 directory := List.mem_of_getElem? isState
  by_cases accepted : (faults.opened && faults.refused.isNone) = true
  swap
  · have stays := namesOld_of_refused names different accepted state member
    refine ⟨fun _ lost => accepted ?_, fun _ => stays.names new⟩
    rw [lost.1, lost.2.1]
    rfl
  cases deleted : faults.currentDeleted with
  | false =>
    have stays := namesOld_of_kept names different accepted deleted state member
    refine ⟨fun _ lost => ?_, fun _ => stays.names new⟩
    have impossible := deleted.symm.trans lost.2.2.1
    cases impossible
  | true =>
    obtain ⟨isOpened, notRefused⟩ := Bool.and_eq_true_iff.mp accepted
    have notRefused := Option.isNone_iff_eq_none.mp notRefused
    have early : calls < 5 → NamesOld old state → (NamesManifest old new state ↔
        ¬ CurrentLost faults new.1 calls) := by
      intro before stays
      exact ⟨fun _ lost => absurd lost.2.2.2.1 (Nat.not_le.mpr before), fun _ => stays.names new⟩
    have late : 5 ≤ calls → ¬ (6 ≤ calls ∧ faults.moved = true) → state currentFileName = none →
        (NamesManifest old new state ↔ ¬ CurrentLost faults new.1 calls) := by
      intro after notMoved gone
      refine ⟨fun named => absurd named (not_namesManifest_of_none gone), fun notLost => ?_⟩
      exact absurd ⟨isOpened, notRefused, deleted, after, fun both =>
        notMoved ⟨both.1, both.2.1⟩⟩ notLost
    have openedNames : NamesOld old (openedTemp new.1 directory) :=
      names.of_agrees (agrees_update_temp _ _ _)
    have flushedNames := names.of_agrees (agrees_flushedTemp faults new.1 directory)
    have gone := removedCurrent_current faults new.1 directory
    rw [installManifest_of_deleted accepted deleted] at isState
    match calls, isState with
    | 0, isState => exact early (by decide) (Option.some.inj isState ▸ names)
    | 1, isState => exact early (by decide) (Option.some.inj isState ▸ openedNames)
    | 2, isState => exact early (by decide) (Option.some.inj isState ▸ openedNames)
    | 3, isState => exact early (by decide) (Option.some.inj isState ▸ flushedNames)
    | 4, isState => exact early (by decide) (Option.some.inj isState ▸ flushedNames)
    | 5, isState =>
      exact late le_rfl (fun both => absurd both.1 (by decide)) (Option.some.inj isState ▸ gone)
    | after + 6, isState =>
      have isLate : 5 ≤ after + 6 := Nat.le_add_left_of_le (by decide)
      cases moved : faults.moved with
      | false =>
        have notMoved : ¬ (6 ≤ after + 6 ∧ faults.moved = true) := by
          rw [moved]
          exact fun both => absurd both.2 (by decide)
        refine late isLate notMoved ?_
        rw [moved] at isState
        match after, isState with
        | 0, isState => exact Option.some.inj isState ▸ gone
        | 1, isState => exact Option.some.inj isState ▸ deleteFile_none gone
        | 2, isState => exact Option.some.inj isState ▸ deleteFile_none (deleteFile_none gone)
      | true =>
        rw [moved] at isState
        match after, isState with
        | 0, isState =>
          obtain rfl := Option.some.inj isState
          exact namesManifest_movedTemp_iff isOpened notRefused deleted moved newContents

/-- A directory with two manifests, where `CURRENT` names the older one. -/
def twoManifests : Directory := fun name =>
  if name = currentFileName then some (currentContents 2)
  else if name = descriptorFileName 2 then some [1]
  else if name = descriptorFileName 5 then some [2]
  else none

theorem namesManifest_iff_after_move :
    ∃ state, (installManifest { flushed := 16 } 5 twoManifests)[6]? = some state ∧
      (NamesManifest (2, [1]) (5, [2]) state ∧ createsNewDb true state = false ↔
        ¬ CurrentLost { flushed := 16 } 5 6) :=
  ⟨_, rfl, namesManifest_iff { flushed := 16 } (2, [1]) (5, [2]) twoManifests (by decide +kernel)
    (by decide +kernel) (by decide +kernel) (by decide +kernel) 6 _ rfl⟩

/-- A crash between the two calls of `RenameFile` leaves both manifests and no `CURRENT`, and the
next `Open` creates a new database. -/
theorem renameFile_loses_current :
    NamesManifest (2, [1]) (5, [2]) twoManifests ∧
      ∃ state, (installManifest { flushed := 16 } 5 twoManifests)[5]? = some state ∧
        ¬ NamesManifest (2, [1]) (5, [2]) state ∧
          state (descriptorFileName 2) = some [1] ∧ state (descriptorFileName 5) = some [2] ∧
            createsNewDb true state = true := by
  refine ⟨⟨(2, [1]), Or.inl rfl, by decide +kernel, by decide +kernel⟩, _, rfl, ?_,
    by decide +kernel, by decide +kernel, by decide +kernel⟩
  exact not_namesManifest_of_none (by decide +kernel)

/-! ### The database lock -/

section Lock

variable {Id : Type} [DecidableEq Id]

/-- How far a `DBImpl` is with the lock: the calls of `LockFile` in order, up to `LockFile` having
returned `OK`, and those of the destructor. After `GetFileSize` it has the length it will lock. -/
inductive LockPhase
  | outside
  | missing
  | present
  | opened
  | sized (length : Nat)
  | holding (length : Nat)
  | unlocked
  deriving DecidableEq, Repr

/-- The lock file: its length if it exists, whose handle to it is open, and the bytes locked
through that handle. A `DBImpl` whose `CreateFileA` failed has an invalid handle. -/
structure LockState (Id : Type) where
  fileSize : Option Nat
  handle : Option Id
  locked : Option Nat
  phase : Id → LockPhase

def LockState.initial (fileSize : Option Nat) : LockState Id :=
  { fileSize, handle := none, locked := none, phase := fun _ => .outside }

/-- The system calls of a `DBImpl`. The flags say whether a call fails for a reason of its own. -/
inductive LockCall (Id : Type)
  | fileExists (caller : Id)
  | createStream (caller : Id) (succeeds : Bool)
  | createFile (caller : Id) (succeeds : Bool)
  | getFileSize (caller : Id)
  | lockFile (caller : Id) (succeeds : Bool)
  | unlockFile (caller : Id)
  | closeHandle (caller : Id)

/-- `INVALID_FILE_SIZE`. -/
def invalidFileSize : Nat := 2 ^ 32 - 1

/-- Opening the file for writing is refused as long as a handle that does not share it is open. -/
def LockState.mayOpen (state : LockState Id) (succeeds : Bool) : Bool :=
  state.handle.isNone && succeeds

def LockState.enter (state : LockState Id) (caller : Id) (phase : LockPhase) : LockState Id :=
  { state with phase := Function.update state.phase caller phase }

@[simp] theorem LockState.enter_phase_self (state : LockState Id) (caller : Id)
    (phase : LockPhase) : (state.enter caller phase).phase caller = phase :=
  Function.update_self _ _ _

theorem LockState.enter_phase_of_ne (state : LockState Id) {caller other : Id}
    (different : other ≠ caller) (phase : LockPhase) :
    (state.enter caller phase).phase other = state.phase other :=
  Function.update_of_ne different _ _

/-- One system call. None of the results but that of `FileExists` is looked at. -/
def LockState.step (state : LockState Id) : LockCall Id → Option (LockState Id)
  | .fileExists caller =>
    match state.phase caller with
    | .outside => some (state.enter caller (if state.fileSize.isSome then .present else .missing))
    | _ => none
  | .createStream caller succeeds =>
    match state.phase caller with
    | .missing =>
      let fileSize := if state.mayOpen succeeds then some 0 else state.fileSize
      some ({ state with fileSize }.enter caller .present)
    | _ => none
  | .createFile caller succeeds =>
    match state.phase caller with
    | .present =>
      if state.mayOpen succeeds then
        some ({ state with fileSize := some (state.fileSize.getD 0), handle := some caller }.enter
          caller .opened)
      else some (state.enter caller .opened)
    | _ => none
  | .getFileSize caller =>
    match state.phase caller with
    | .opened =>
      let length := if state.handle = some caller then state.fileSize.getD 0 else invalidFileSize
      some (state.enter caller (.sized length))
    | _ => none
  | .lockFile caller succeeds =>
    match state.phase caller with
    | .sized length =>
      let locked := if state.handle = some caller ∧ succeeds then some length else state.locked
      some ({ state with locked }.enter caller (.holding length))
    | _ => none
  | .unlockFile caller =>
    match state.phase caller with
    | .holding _ =>
      let locked := if state.handle = some caller then none else state.locked
      some ({ state with locked }.enter caller .unlocked)
    | _ => none
  | .closeHandle caller =>
    match state.phase caller with
    | .unlocked =>
      let handle := if state.handle = some caller then none else state.handle
      some ({ state with handle }.enter caller .outside)
    | _ => none

/-- `LockFile` has returned `OK`, and the lock was not given up. -/
def LockState.Holds (state : LockState Id) (caller : Id) : Prop :=
  ∃ length, state.phase caller = .holding length

instance (state : LockState Id) (caller : Id) : Decidable (state.Holds caller) :=
  match h : state.phase caller with
  | .holding length => isTrue ⟨length, h⟩
  | .outside | .missing | .present | .opened | .sized _ | .unlocked =>
    isFalse fun ⟨_, isHolding⟩ => nomatch h.symm.trans isHolding

/-- At most one `DBImpl` has the lock. -/
def LockState.Exclusive (state : LockState Id) : Prop :=
  ∀ caller other, state.Holds caller → state.Holds other → caller = other

/-- `CreateFileA` does not fail: no other handle is open, and there is no other reason. -/
def LockState.FileOpens (state : LockState Id) : LockCall Id → Prop
  | .createFile _ succeeds => state.mayOpen succeeds = true
  | _ => True

instance (state : LockState Id) (call : LockCall Id) : Decidable (state.FileOpens call) :=
  match call with
  | .createFile _ succeeds => inferInstanceAs (Decidable (state.mayOpen succeeds = true))
  | .fileExists _ | .createStream _ _ | .getFileSize _ | .lockFile _ _ | .unlockFile _
  | .closeHandle _ => inferInstanceAs (Decidable True)

/-- A `DBImpl` from `CreateFileA` to `CloseHandle`. -/
def LockPhase.hasFile : LockPhase → Bool
  | .outside | .missing | .present => false
  | .opened | .sized _ | .holding _ | .unlocked => true

/-- Whoever is past `CreateFileA` has the handle. -/
def LockState.Owned (state : LockState Id) : Prop :=
  ∀ caller, (state.phase caller).hasFile = true → state.handle = some caller

theorem LockState.Owned.enter {state : LockState Id} {caller : Id} {phase : LockPhase}
    (has : phase.hasFile = true → state.handle = some caller)
    (others : ∀ other, other ≠ caller → (state.phase other).hasFile = true →
      state.handle = some other) : (state.enter caller phase).Owned := by
  intro other hasFile
  by_cases same : other = caller
  · subst same
    rw [LockState.enter_phase_self] at hasFile
    exact has hasFile
  · rw [LockState.enter_phase_of_ne _ same] at hasFile
    exact others other same hasFile

/-- A call of `DBImpl` whose `CreateFileA` does not fail keeps that whoever is past it has the
handle. -/
theorem LockState.Owned.step {state state' : LockState Id} {call : LockCall Id}
    (owned : state.Owned) (opens : state.FileOpens call) (taken : state.step call = some state') :
    state'.Owned := by
  have others : ∀ caller other, other ≠ caller → (state.phase other).hasFile = true →
      state.handle = some other := fun _ other _ hasFile => owned other hasFile
  cases call with
  | fileExists caller =>
    rw [LockState.step] at taken
    split at taken
    · obtain rfl := Option.some.inj taken
      refine Owned.enter (fun hasFile => ?_) (others caller)
      split at hasFile
      · cases hasFile
      · cases hasFile
    · cases taken
  | createStream caller succeeds =>
    rw [LockState.step] at taken
    split at taken
    · obtain rfl := Option.some.inj taken
      exact Owned.enter (fun hasFile => by cases hasFile) (others caller)
    · cases taken
  | createFile caller succeeds =>
    rw [LockState.step] at taken
    split at taken
    · have opens : state.mayOpen succeeds = true := opens
      rw [if_pos opens] at taken
      obtain rfl := Option.some.inj taken
      have free := Option.isNone_iff_eq_none.mp (Bool.and_eq_true_iff.mp opens).1
      refine Owned.enter (fun _ => rfl) fun other _ hasFile => ?_
      have taken := owned other hasFile
      rw [free] at taken
      cases taken
    · cases taken
  | getFileSize caller =>
    rw [LockState.step] at taken
    split at taken
    · rename_i isOpened
      obtain rfl := Option.some.inj taken
      exact Owned.enter (fun _ => owned caller (by rw [isOpened]; rfl)) (others caller)
    · cases taken
  | lockFile caller succeeds =>
    rw [LockState.step] at taken
    split at taken
    · rename_i isSized
      obtain rfl := Option.some.inj taken
      exact Owned.enter (fun _ => owned caller (by rw [isSized]; rfl)) (others caller)
    · cases taken
  | unlockFile caller =>
    rw [LockState.step] at taken
    split at taken
    · rename_i isHolding
      obtain rfl := Option.some.inj taken
      exact Owned.enter (fun _ => owned caller (by rw [isHolding]; rfl)) (others caller)
    · cases taken
  | closeHandle caller =>
    rw [LockState.step] at taken
    split at taken
    · rename_i isUnlocked
      obtain rfl := Option.some.inj taken
      have has := owned caller (by rw [isUnlocked]; rfl)
      refine Owned.enter (fun hasFile => by cases hasFile) fun other different hasFile => ?_
      exact absurd (Option.some.inj ((owned other hasFile).symm.trans has)) different
    · cases taken

omit [DecidableEq Id] in
theorem LockState.Owned.exclusive {state : LockState Id} (owned : state.Owned) :
    state.Exclusive := by
  rintro caller other ⟨_, callerHolds⟩ ⟨_, otherHolds⟩
  have callerHas := owned caller (by rw [callerHolds]; rfl)
  have otherHas := owned other (by rw [otherHolds]; rfl)
  exact Option.some.inj (callerHas.symm.trans otherHas)

/-- The calls of a `LockFile` that found the lock file, from `CreateFileA` on. -/
def lockCalls (caller : Id) (created locked : Bool) : List (LockCall Id) :=
  [.createFile caller created, .getFileSize caller, .lockFile caller locked]

theorem LockState.step_createFile {state : LockState Id} {caller : Id}
    (isPresent : state.phase caller = .present) (succeeds : Bool) :
    ∃ state', state.step (.createFile caller succeeds) = some state' ∧
      state'.phase caller = .opened ∧
        ∀ other, other ≠ caller → state'.phase other = state.phase other := by
  rw [LockState.step, isPresent]
  cases state.mayOpen succeeds with
  | true => exact ⟨_, rfl, enter_phase_self _ _ _, fun _ different => enter_phase_of_ne _ different _⟩
  | false => exact ⟨_, rfl, enter_phase_self _ _ _, fun _ different => enter_phase_of_ne _ different _⟩

/-- `LockFile` succeeds whatever its calls return, and nobody loses the lock by it. -/
theorem LockState.run_lockCalls {state : LockState Id} {caller : Id}
    (isPresent : state.phase caller = .present) (created locked : Bool) :
    ∃ state', Lib.run LockState.step (fun _ _ => True) state (lockCalls caller created locked) =
      some state' ∧ state'.Holds caller ∧
        ∀ other, other ≠ caller → state'.phase other = state.phase other := by
  obtain ⟨opened, creates, isOpened, keepsOpened⟩ := step_createFile isPresent created
  have sizes : opened.step (.getFileSize caller) = some (opened.enter caller (.sized
      (if opened.handle = some caller then opened.fileSize.getD 0 else invalidFileSize))) := by
    rw [LockState.step, isOpened]
  set sized := opened.enter caller (.sized
    (if opened.handle = some caller then opened.fileSize.getD 0 else invalidFileSize)) with isSized
  have locks : ∃ state', sized.step (.lockFile caller locked) = some state' ∧
      state'.Holds caller ∧ ∀ other, other ≠ caller → state'.phase other = sized.phase other := by
    rw [LockState.step, isSized, enter_phase_self]
    exact ⟨_, rfl, ⟨_, enter_phase_self _ _ _⟩, fun _ different => enter_phase_of_ne _ different _⟩
  obtain ⟨state', locks, holds, keeps⟩ := locks
  refine ⟨state', ?_, holds, fun other different => ?_⟩
  · simp only [lockCalls, Lib.run, if_true, creates, Option.bind_some, sizes, locks]
  · rw [keeps other different, isSized, enter_phase_of_ne _ different, keepsOpened other different]

/-- In every run in which `CreateFileA` does not fail, at most one `DBImpl` has the lock, and it is
the one with the handle. Where it fails because another `DBImpl` has the lock, both have it when
`LockFile` returns. -/
theorem lockFile_exclusive (fileSize : Option Nat) :
    (∀ state : LockState Id,
      Lib.Reachable LockState.step LockState.FileOpens (LockState.initial fileSize) state →
        state.Exclusive ∧ ∀ caller, state.Holds caller → state.handle = some caller) ∧
      ∀ (state : LockState Id) (caller other : Id), other ≠ caller →
        state.Holds other → state.phase caller = .present → ∀ created locked,
          ∃ state', Lib.run LockState.step (fun _ _ => True) state
            (lockCalls caller created locked) = some state' ∧ state'.Holds caller ∧
              state'.Holds other := by
  constructor
  · intro state reachable
    have owned : state.Owned := by
      refine reachable.invariant (fun caller hasFile => ?_) ?_
      · cases hasFile
      · exact fun _ _ _ owned opens taken => owned.step opens taken
    refine ⟨owned.exclusive, fun caller holds => owned caller ?_⟩
    obtain ⟨length, isHolding⟩ := holds
    rw [isHolding]
    rfl
  · intro state caller other different otherHolds isPresent created locked
    obtain ⟨state', result, holds, keeps⟩ := LockState.run_lockCalls isPresent created locked
    obtain ⟨length, isHolding⟩ := otherHolds
    exact ⟨state', result, holds, length, (keeps other different).trans isHolding⟩

end Lock

/-- A `DBImpl` that creates the lock file and opens it. -/
def firstLock : List (LockCall Bool) :=
  .fileExists true :: .createStream true true :: lockCalls true true true

theorem lockFile_exclusive_firstLock :
    ∃ state : LockState Bool,
      Lib.Reachable LockState.step LockState.FileOpens (LockState.initial none) state ∧
        state.Holds true ∧ state.Exclusive := by
  obtain ⟨state, reachable, holds⟩ := Lib.exists_of_run
    (show (Lib.run LockState.step LockState.FileOpens (LockState.initial none) firstLock).any
      (fun state => decide (state.Holds true)) = true by decide)
  exact ⟨state, reachable, of_decide_eq_true holds, ((lockFile_exclusive none).1 state reachable).1⟩

/-- A `DBImpl` that has the lock does not keep a second one from getting it. -/
theorem lockFile_held_twice :
    ∃ state : LockState Bool,
      Lib.Reachable LockState.step (fun _ _ => True) (LockState.initial none) state ∧
        ¬ state.Exclusive := by
  obtain ⟨state, reachable, both⟩ := Lib.exists_of_run
    (show (Lib.run LockState.step (fun _ _ => True) (LockState.initial none)
      (firstLock ++ .fileExists false :: lockCalls false true true)).any
        (fun state => decide (state.Holds true ∧ state.Holds false)) = true by decide)
  have both := of_decide_eq_true both
  exact ⟨state, reachable, fun exclusive => absurd (exclusive true false both.1 both.2) (by decide)⟩

end LevelDb.WinEnv
