/-
This file models `LogAndApply` call by call: every call on the Env that it and `SetCurrentFile` make
can fail, an append can fail halfway, and other threads take file numbers and sequence numbers while
the mutex is dropped. A call that fails leaves the version set as it was, up to the compaction
pointers, which `Builder::Apply` sets before anything is written.
-/

import LevelDb.ManifestRuns

namespace LevelDb.ManifestFailures

variable {β : Type}

/-! ### The calls on the Env -/

/-- The outcomes of the calls of one `LogAndApply`. An append that fails has written a number of
bytes. -/
structure Outcomes where
  created : Bool := true
  appends : List (Option Nat) := []
  synced : Bool := true
  tempCreated : Bool := true
  tempAppended : Option Nat := none
  tempSynced : Bool := true
  tempClosed : Bool := true
  failedTempDeleted : Bool := true
  renamed : Bool := true
  tempDeleted : Bool := true
  manifestDeleted : Bool := true

/-- The outcomes as the version set sees them, with the temporary file written or not. -/
def Outcomes.faults (outcomes : Outcomes) : ManifestFaults where
  created := outcomes.created
  appends := outcomes.appends
  synced := outcomes.synced
  tempWritten := outcomes.tempCreated && outcomes.tempAppended.isNone && outcomes.tempSynced &&
    outcomes.tempClosed
  renamed := outcomes.renamed

def deleteFile (succeeds : Bool) (name : Bytes) (directory : Directory) : Directory :=
  if succeeds then Function.update directory name none else directory

/-- `RenameFile`, which replaces its target in one step. -/
def renameFile (succeeds : Bool) (source target : Bytes) (directory : Directory) : Bool × Directory :=
  match directory source with
  | some contents =>
    if succeeds then
      (true, Function.update (Function.update directory target (some contents)) source none)
    else (false, directory)
  | none => (false, directory)

/-- `WriteStringToFileSync`, here for the temporary file. -/
def writeStringToFileSync (outcomes : Outcomes) (data name : Bytes) (directory : Directory) :
    Bool × Directory :=
  if outcomes.tempCreated then
    let written := outcomes.tempAppended.elim data data.take
    let appended := Function.update directory name (some written)
    if outcomes.tempAppended.isNone && outcomes.tempSynced && outcomes.tempClosed then (true, appended)
    else (false, deleteFile outcomes.failedTempDeleted name appended)
  else (false, directory)

/-- Write the name of a manifest to the temporary file and rename it to `CURRENT`. -/
def replaceCurrent (outcomes : Outcomes) (descriptorNumber : Nat) (directory : Directory) :
    Bool × Directory :=
  let tmp := tempFileName descriptorNumber
  let written :=
    writeStringToFileSync outcomes (descriptorFileName descriptorNumber ++ [10]) tmp directory
  if written.1 then renameFile outcomes.renamed tmp currentFileName written.2 else written

/-- `SetCurrentFile`. -/
def setCurrentFile (outcomes : Outcomes) (descriptorNumber : Nat) (directory : Directory) :
    Bool × Directory :=
  let replaced := replaceCurrent outcomes descriptorNumber directory
  if replaced.1 then replaced
  else (false, deleteFile outcomes.tempDeleted (tempFileName descriptorNumber) replaced.2)

/-- A new manifest that was written and synced is installed in `CURRENT`. -/
def installManifest (outcomes : Outcomes) (newManifest synced : Bool) (number : Nat)
    (directory : Directory) : Bool × Directory :=
  if synced && newManifest then setCurrentFile outcomes number directory else (synced, directory)

/-! ### The version set and its files -/

/-- A version set with its directory. `descriptorFile` is the number of the manifest that is open. -/
structure State (β : Type) where
  versions : VersionSet β
  descriptorFile : Option Nat
  directory : Directory

/-- How many file numbers and sequence numbers other threads take while the mutex is dropped. -/
structure Meanwhile where
  fileNumbers : Nat := 0
  sequences : Nat := 0

/-- The version set when the mutex is held again. -/
def Meanwhile.take (meanwhile : Meanwhile) (versions : VersionSet β) : VersionSet β :=
  { versions with
    nextFileNumber := versions.nextFileNumber + meanwhile.fileNumbers
    lastSequence := versions.lastSequence + meanwhile.sequences }

/-- The directory after the appends to the manifest, which holds what the log writer wrote. -/
def writeManifest (outcomes : Outcomes) (state : State β) (writer : Log.Writer) : Directory :=
  match state.versions.descriptorLog with
  | some _ =>
    state.descriptorFile.elim state.directory fun number =>
      Function.update state.directory (descriptorFileName number) (some writer.dest.contents)
  | none =>
    if outcomes.created then
      Function.update state.directory (descriptorFileName state.versions.manifestFileNumber)
        (some writer.dest.contents)
    else state.directory

/-! ### What the calls change -/

variable {directory : Directory}

theorem deleteFile_of_ne {succeeds : Bool} {name other : Bytes}
    (distinct : other ≠ name) : deleteFile succeeds name directory other = directory other := by
  unfold deleteFile
  split
  · exact Function.update_of_ne distinct _ _
  · rfl

theorem deleteFile_self (name : Bytes) (directory : Directory) :
    deleteFile true name directory name = none := Function.update_self _ _ _

theorem renameFile_of_failed {succeeds : Bool} {source target : Bytes}
    (failed : (renameFile succeeds source target directory).1 = false) :
    (renameFile succeeds source target directory).2 = directory := by
  unfold renameFile at failed ⊢
  cases found : directory source with
  | none => rfl
  | some contents =>
    rw [found] at failed
    cases succeeds with
    | true => exact Bool.noConfusion failed
    | false => rfl

variable {outcomes : Outcomes}

theorem writeStringToFileSync_of_ne {data name other : Bytes} (distinct : other ≠ name) :
    (writeStringToFileSync outcomes data name directory).2 other = directory other := by
  unfold writeStringToFileSync
  split
  · dsimp only
    split
    · exact Function.update_of_ne distinct _ _
    · exact (deleteFile_of_ne distinct).trans (Function.update_of_ne distinct _ _)
  · rfl

theorem replaceCurrent_of_failed {number : Nat}
    (failed : (replaceCurrent outcomes number directory).1 = false) {other : Bytes}
    (distinct : other ≠ tempFileName number) :
    (replaceCurrent outcomes number directory).2 other = directory other := by
  unfold replaceCurrent at failed ⊢
  dsimp only at failed ⊢
  split at failed
  next written =>
    rw [if_pos written, renameFile_of_failed failed, writeStringToFileSync_of_ne distinct]
  next unwritten => rw [if_neg unwritten, writeStringToFileSync_of_ne distinct]

/-- A `SetCurrentFile` that fails touches the temporary file alone. -/
theorem setCurrentFile_of_failed {number : Nat}
    (failed : (setCurrentFile outcomes number directory).1 = false) {other : Bytes}
    (distinct : other ≠ tempFileName number) :
    (setCurrentFile outcomes number directory).2 other = directory other := by
  unfold setCurrentFile at failed ⊢
  dsimp only at failed ⊢
  split at failed
  next replaced => exact Bool.noConfusion (replaced.symm.trans failed)
  next unreplaced =>
    rw [if_neg unreplaced]
    exact (deleteFile_of_ne distinct).trans
      (replaceCurrent_of_failed (Bool.eq_false_iff.mpr unreplaced) distinct)

theorem installManifest_of_failed {newManifest synced : Bool} {number : Nat}
    (failed : (installManifest outcomes newManifest synced number directory).1 = false) {other : Bytes}
    (distinct : other ≠ tempFileName number) :
    (installManifest outcomes newManifest synced number directory).2 other = directory other := by
  unfold installManifest at failed ⊢
  split at failed
  next installs =>
    rw [if_pos installs]
    exact setCurrentFile_of_failed failed distinct
  next stays => rw [if_neg stays]

theorem writeManifest_current (outcomes : Outcomes) (state : State β) (writer : Log.Writer) :
    writeManifest outcomes state writer currentFileName = state.directory currentFileName := by
  have distinct : ∀ number, currentFileName ≠ descriptorFileName number := fun number =>
    (descriptorFileName_ne_currentFileName number).symm
  unfold writeManifest
  cases state.versions.descriptorLog with
  | some _ =>
    cases state.descriptorFile with
    | none => rfl
    | some number => exact Function.update_of_ne (distinct number) _ _
  | none =>
    cases outcomes.created with
    | true => exact Function.update_of_ne (distinct _) _ _
    | false => rfl

section LogAndApply

variable [LinearOrder UserKey]

/-- `LogAndApply`: whether it succeeded, and the state after it. -/
def logAndApply (options : VersionSetOptions) (outcomes : Outcomes) (meanwhile : Meanwhile)
    (state : State β) (edit : VersionEdit UserKey β) : Bool × State β :=
  let versions := state.versions
  let edit := versions.completeEdit edit
  let pointed := versions.pointTo edit.compactPointers
  let newManifest := versions.descriptorLog.isNone
  let added := pointed.addToDescriptor options outcomes.faults edit
  let written := writeManifest outcomes state added.2
  let current := installManifest outcomes newManifest (added.1 && outcomes.synced)
    versions.manifestFileNumber written
  let locked := meanwhile.take pointed
  if current.1 then
    (true,
      { versions := locked.install edit added.2
        descriptorFile := if newManifest then some versions.manifestFileNumber
          else state.descriptorFile
        directory := current.2 })
  else if newManifest then
    (false,
      { versions := { locked with descriptorLog := none }
        descriptorFile := none
        directory := deleteFile outcomes.manifestDeleted
          (descriptorFileName versions.manifestFileNumber) current.2 })
  else
    (false,
      { versions := { locked with descriptorLog := some added.2 }
        descriptorFile := state.descriptorFile
        directory := current.2 })

/-- A `LogAndApply` that fails, at whatever call, leaves the version and the numbers as they were, up
to what other threads took meanwhile; `CURRENT` is as it was; and a new manifest is closed and
deleted. -/
theorem logAndApply_fails_atomically (options : VersionSetOptions) (outcomes : Outcomes)
    (meanwhile : Meanwhile) (state after : State β) (edit : VersionEdit UserKey β)
    (failed : logAndApply options outcomes meanwhile state edit = (false, after)) :
    after.versions.current = state.versions.current ∧
      after.versions.logNumber = state.versions.logNumber ∧
      after.versions.prevLogNumber = state.versions.prevLogNumber ∧
      after.versions.nextFileNumber = state.versions.nextFileNumber + meanwhile.fileNumbers ∧
      after.versions.lastSequence = state.versions.lastSequence + meanwhile.sequences ∧
      after.directory currentFileName = state.directory currentFileName ∧
      (state.versions.descriptorLog = none →
        after.versions.descriptorLog = none ∧ after.descriptorFile = none ∧
          (outcomes.manifestDeleted = true →
            after.directory (descriptorFileName state.versions.manifestFileNumber) = none)) := by
  unfold logAndApply at failed
  dsimp only at failed
  split at failed
  next succeeded => cases failed
  next unset =>
    have current := installManifest_of_failed (Bool.eq_false_iff.mpr unset)
      (makeFileName_ne_currentFileName state.versions.manifestFileNumber _).symm
    rw [writeManifest_current] at current
    split at failed
    next isNew =>
      obtain rfl := congrArg Prod.snd failed
      refine ⟨rfl, rfl, rfl, rfl, rfl, (deleteFile_of_ne ?_).trans current,
        fun _ => ⟨rfl, rfl, fun deleted => ?_⟩⟩
      · exact (descriptorFileName_ne_currentFileName _).symm
      · show deleteFile outcomes.manifestDeleted _ _ _ = none
        rw [deleted, deleteFile_self]
    next isOld =>
      obtain rfl := congrArg Prod.snd failed
      exact ⟨rfl, rfl, rfl, rfl, rfl, current, fun isNone =>
        absurd (Option.isNone_iff_eq_none.mpr isNone) isOld⟩

/-! ### The version set that fails as a whole -/

omit [LinearOrder UserKey] in
theorem replaceCurrent_of_succeeds {outcomes : Outcomes} {number : Nat} {directory : Directory}
    (written : outcomes.faults.tempWritten = true) (renamed : outcomes.renamed = true) :
    replaceCurrent outcomes number directory =
      (true, Function.update (Function.update (Function.update directory (tempFileName number)
        (some (descriptorFileName number ++ [10]))) currentFileName
          (some (descriptorFileName number ++ [10]))) (tempFileName number) none) := by
  simp only [Outcomes.faults, Bool.and_eq_true, Option.isNone_iff_eq_none] at written
  obtain ⟨⟨⟨created, appended⟩, synced⟩, closed⟩ := written
  have whole : writeStringToFileSync outcomes (descriptorFileName number ++ [10])
      (tempFileName number) directory =
        (true, Function.update directory (tempFileName number)
          (some (descriptorFileName number ++ [10]))) := by
    rw [writeStringToFileSync, created, appended, synced, closed]
    rfl
  rw [replaceCurrent, whole]
  dsimp only
  rw [if_pos rfl, renameFile, Function.update_self, renamed]
  rfl

omit [LinearOrder UserKey] in
theorem replaceCurrent_of_fails {outcomes : Outcomes} {number : Nat} {directory : Directory}
    (fails : (outcomes.faults.tempWritten && outcomes.renamed) = false) :
    (replaceCurrent outcomes number directory).1 = false := by
  have writes : ∀ data name, (writeStringToFileSync outcomes data name directory).1 =
      outcomes.faults.tempWritten := by
    intro data name
    unfold writeStringToFileSync Outcomes.faults
    cases outcomes.tempCreated with
    | false => rfl
    | true =>
      dsimp only
      rw [if_pos rfl, Bool.true_and]
      cases (outcomes.tempAppended.isNone && outcomes.tempSynced && outcomes.tempClosed) <;> rfl
  have refuses : ∀ source target files, outcomes.renamed = false →
      (renameFile outcomes.renamed source target files).1 = false := by
    intro source target files refused
    rw [refused, renameFile]
    cases files source <;> rfl
  unfold replaceCurrent
  dsimp only
  rw [writes]
  cases written : outcomes.faults.tempWritten with
  | false => exact (writes _ _).trans written
  | true =>
    rw [written, Bool.true_and] at fails
    exact refuses _ _ _ fails

omit [LinearOrder UserKey] in
/-- The calls of `SetCurrentFile` together do what it is described to do, but for the temporary file
of a call that fails, which may be left behind. -/
theorem setCurrentFile_refines (outcomes : Outcomes) (number : Nat) (directory : Directory) :
    (setCurrentFile outcomes number directory).1 = (LevelDb.setCurrentFile directory number
        outcomes.faults.tempWritten outcomes.faults.renamed).1 ∧
      ∀ other, other ≠ tempFileName number → (setCurrentFile outcomes number directory).2 other =
        (LevelDb.setCurrentFile directory number outcomes.faults.tempWritten
          outcomes.faults.renamed).2 other := by
  have sameRename : outcomes.faults.renamed = outcomes.renamed := rfl
  cases succeeds : outcomes.faults.tempWritten && outcomes.renamed with
  | true =>
    obtain ⟨written, renamed⟩ := (Bool.and_eq_true _ _).mp succeeds
    rw [setCurrentFile, replaceCurrent_of_succeeds written renamed, if_pos rfl, sameRename,
      LevelDb.setCurrentFile, succeeds, if_pos rfl]
    refine ⟨rfl, fun other distinct => ?_⟩
    dsimp only
    rw [Function.update_of_ne distinct, Function.update_of_ne distinct]
    obtain rfl | notCurrent := eq_or_ne other currentFileName
    · rw [Function.update_self, Function.update_self]
    · rw [Function.update_of_ne notCurrent, Function.update_of_ne notCurrent,
        Function.update_of_ne distinct]
  | false =>
    have failed : (setCurrentFile outcomes number directory).1 = false := by
      rw [setCurrentFile, replaceCurrent_of_fails succeeds]
      rfl
    rw [failed, sameRename, LevelDb.setCurrentFile, succeeds, if_neg Bool.false_ne_true]
    exact ⟨rfl, fun other distinct => (setCurrentFile_of_failed failed distinct).trans
      (Function.update_of_ne distinct _ _).symm⟩

omit [LinearOrder UserKey] in
/-- A new manifest is installed alike from directories that agree once it is synced, and before that
up to the manifest. -/
theorem installManifest_refines (outcomes : Outcomes) (versions : VersionSet β) (synced : Bool)
    {directory written : Directory} (whole : synced = true → directory = written)
    (agree : ∀ other, other ≠ descriptorFileName versions.manifestFileNumber →
      directory other = written other) :
    (installManifest outcomes true synced versions.manifestFileNumber directory).1 =
        (versions.installManifest outcomes.faults synced written).1 ∧
      ∀ other, other ≠ tempFileName versions.manifestFileNumber →
        synced = true ∨ other ≠ descriptorFileName versions.manifestFileNumber →
        (installManifest outcomes true synced versions.manifestFileNumber directory).2 other =
          (versions.installManifest outcomes.faults synced written).2 other := by
  unfold installManifest VersionSet.installManifest
  cases synced with
  | true =>
    rw [whole rfl]
    obtain ⟨same, others⟩ := setCurrentFile_refines outcomes versions.manifestFileNumber written
    exact ⟨same, fun other distinct _ => others other distinct⟩
  | false =>
    exact ⟨rfl, fun other _ notManifest => agree other (notManifest.resolve_left Bool.false_ne_true)⟩

/-- Without other threads, the calls of `LogAndApply` together are the `LogAndApply` of the version
set, up to the temporary file of `CURRENT`. -/
theorem logAndApply_refines (options : VersionSetOptions) (outcomes : Outcomes) (state : State β)
    (edit : VersionEdit UserKey β) (isDeleted : outcomes.manifestDeleted = true)
    (isOpen : state.versions.descriptorLog.isSome →
      state.descriptorFile = some state.versions.manifestFileNumber) :
    (logAndApply options outcomes {} state edit).1 =
        (state.versions.logAndApply options outcomes.faults state.directory edit).1 ∧
      (logAndApply options outcomes {} state edit).2.versions =
        (state.versions.logAndApply options outcomes.faults state.directory edit).2.1 ∧
      ∀ other, other ≠ tempFileName state.versions.manifestFileNumber →
        (logAndApply options outcomes {} state edit).2.directory other =
          (state.versions.logAndApply options outcomes.faults state.directory edit).2.2 other := by
  have sameSync : outcomes.faults.synced = outcomes.synced := rfl
  unfold logAndApply VersionSet.logAndApply
  dsimp only
  cases descriptor : state.versions.descriptorLog with
  | some writer =>
    have file := isOpen (by rw [descriptor]; rfl)
    simp only [Option.isNone_some, installManifest, Bool.and_false, Bool.false_eq_true, if_false,
      sameSync, writeManifest, descriptor, file, Option.elim_some]
    split
    · exact ⟨rfl, rfl, fun _ _ => rfl⟩
    · exact ⟨rfl, rfl, fun _ _ => rfl⟩
  | none =>
    generalize isPointed : state.versions.pointTo (state.versions.completeEdit edit).compactPointers =
      pointed
    generalize isAdded : pointed.addToDescriptor options outcomes.faults
      (state.versions.completeEdit edit) = added
    have closed : pointed.descriptorLog = none := isPointed ▸ descriptor
    have created : added.1 = true → outcomes.created = true := by
      intro succeeded
      by_contra uncreated
      have refused : outcomes.faults.created = false := Bool.eq_false_iff.mpr uncreated
      rw [← isAdded, VersionSet.addToDescriptor, VersionSet.openDescriptor, closed] at succeeded
      dsimp only at succeeded
      rw [refused, if_neg Bool.false_ne_true, if_neg Bool.false_ne_true] at succeeded
      exact Bool.false_ne_true succeeded
    have agreeBefore : ∀ other, other ≠ descriptorFileName state.versions.manifestFileNumber →
        writeManifest outcomes state added.2 other = Function.update state.directory
          (descriptorFileName state.versions.manifestFileNumber) (some added.2.dest.contents) other := by
      intro other notManifest
      rw [Function.update_of_ne notManifest, writeManifest, descriptor]
      dsimp only
      split
      · exact Function.update_of_ne notManifest _ _
      · rfl
    have whole : (added.1 && outcomes.synced) = true → writeManifest outcomes state added.2 =
        Function.update state.directory (descriptorFileName state.versions.manifestFileNumber)
          (some added.2.dest.contents) := by
      intro synced
      rw [writeManifest, descriptor]
      dsimp only
      rw [if_pos (created ((Bool.and_eq_true _ _).mp synced).1)]
    obtain ⟨same, agree⟩ := installManifest_refines outcomes state.versions _ whole agreeBefore
    have wasSynced : ∀ directory, (state.versions.installManifest outcomes.faults
        (added.1 && outcomes.synced) directory).1 = true → (added.1 && outcomes.synced) = true := by
      intro directory installed
      rw [VersionSet.installManifest] at installed
      by_contra unsynced
      rw [if_neg unsynced] at installed
      exact Bool.false_ne_true installed
    specialize wasSynced (Function.update state.directory
      (descriptorFileName state.versions.manifestFileNumber) (some added.2.dest.contents))
    rw [Option.isNone_none, sameSync]
    generalize installManifest outcomes true (added.1 && outcomes.synced)
      state.versions.manifestFileNumber (writeManifest outcomes state added.2) = calls at same agree ⊢
    generalize VersionSet.installManifest outcomes.faults state.versions (added.1 && outcomes.synced)
      (Function.update state.directory (descriptorFileName state.versions.manifestFileNumber)
        (some added.2.dest.contents)) = whole at same agree wasSynced ⊢
    rw [same]
    cases installed : whole.1 with
    | true => exact ⟨rfl, rfl, fun other distinct => agree other distinct (.inl (wasSynced installed))⟩
    | false =>
      refine ⟨rfl, ?_, fun other distinct => ?_⟩
      · show { pointed with descriptorLog := none } = pointed
        rw [← closed]
      · show deleteFile outcomes.manifestDeleted _ calls.2 other = Function.update whole.2 _ none other
        rw [isDeleted]
        obtain rfl | notManifest := eq_or_ne other (descriptorFileName state.versions.manifestFileNumber)
        · rw [deleteFile_self, Function.update_self]
        · rw [deleteFile_of_ne notManifest, Function.update_of_ne notManifest]
          exact agree other distinct (.inr notManifest)

end LogAndApply

/-- The rename of the temporary file fails. -/
theorem logAndApply_refines_rename :
    letI := bytewise
    ∃ state : State Nat,
      (logAndApply { comparator := [99], maxFileSize := 0 } { renamed := false } {} state {}).2.versions =
        (state.versions.logAndApply { comparator := [99], maxFileSize := 0 }
          { renamed := false : Outcomes }.faults state.directory {}).2.1 := by
  let _ := bytewise
  have refines := logAndApply_refines { comparator := [99], maxFileSize := 0 } { renamed := false }
    (⟨VersionSet.new, none, fun _ => none⟩ : State Nat) {} rfl fun isSome => by cases isSome
  exact ⟨_, refines.2.1⟩

/-- The rename of the temporary file fails in a version set that has no manifest open. -/
theorem logAndApply_fails_atomically_rename :
    letI := bytewise
    ∃ after : State Nat,
      logAndApply { comparator := [99], maxFileSize := 0 } { renamed := false } {}
          ⟨VersionSet.new, none, Function.update (fun _ => none) currentFileName (some [7])⟩ {} =
        (false, after) ∧
      after.versions.nextFileNumber = 2 ∧ after.directory currentFileName = some [7] ∧
        after.directory (descriptorFileName 0) = none := by
  let _ := bytewise
  have failed : (logAndApply { comparator := [99], maxFileSize := 0 } { renamed := false } {}
      (⟨VersionSet.new, none, Function.update (fun _ => none) currentFileName (some [7])⟩ : State Nat)
      {}).1 = false := by decide +kernel
  obtain ⟨-, -, -, nextFile, -, current, removed⟩ :=
    logAndApply_fails_atomically _ _ _ _ _ _ (Prod.ext failed rfl)
  refine ⟨_, Prod.ext failed rfl, nextFile, current.trans ?_, (removed rfl).2.2 rfl⟩
  show Function.update (fun _ => none) currentFileName (some [7]) currentFileName = some [7]
  rw [Function.update_self]

end LevelDb.ManifestFailures
