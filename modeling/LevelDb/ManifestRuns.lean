/-
This file runs a version set from the opening of its first manifest on: file numbers are handed
out and given back, the last sequence number grows, and edits are logged and applied. In every
state reached, a fresh version set that recovers from the directory has the files, the compaction
pointers and the log numbers of the running one.
-/

import LevelDb.ManifestReplay
import LevelDb.Lib.Run

namespace LevelDb

variable {β : Type}

/-! ### Compaction pointers -/

theorem setPointers_cons (pointers : Nat → Option (InternalKey UserKey))
    (update : Nat × InternalKey UserKey) (rest : List (Nat × InternalKey UserKey)) :
    setPointers pointers (update :: rest) =
      setPointers (Function.update pointers update.1 (some update.2)) rest := rfl

variable {updates : List (Nat × InternalKey UserKey)}

theorem setPointers_congr {pointers others : Nat → Option (InternalKey UserKey)}
    (same : ∀ level, pointers level = others level ∨ level ∈ updates.map Prod.fst) :
    setPointers pointers updates = setPointers others updates := by
  induction updates generalizing pointers others with
  | nil => exact funext fun level => (same level).resolve_right List.not_mem_nil
  | cons update rest inductionHypothesis =>
    rw [setPointers_cons, setPointers_cons]
    refine inductionHypothesis fun level => ?_
    by_cases isLevel : level = update.1
    · rw [isLevel, Function.update_self, Function.update_self]
      exact Or.inl rfl
    · rw [Function.update_of_ne isLevel, Function.update_of_ne isLevel]
      rcases same level with equal | member
      · exact Or.inl equal
      · exact Or.inr ((List.mem_cons.mp member).resolve_left isLevel)

theorem setPointers_of_not_mem {level : Nat}
    (outside : level ∉ updates.map Prod.fst) (pointers : Nat → Option (InternalKey UserKey)) :
    setPointers pointers updates level = pointers level := by
  induction updates generalizing pointers with
  | nil => rfl
  | cons update rest inductionHypothesis =>
    rw [List.map_cons, List.mem_cons, not_or] at outside
    rw [setPointers_cons, inductionHypothesis outside.2, Function.update_of_ne outside.1]

/-- Setting the same pointers again changes nothing. -/
theorem setPointers_setPointers (pointers : Nat → Option (InternalKey UserKey))
    (updates : List (Nat × InternalKey UserKey)) :
    setPointers (setPointers pointers updates) updates = setPointers pointers updates := by
  refine setPointers_congr fun level => ?_
  by_cases member : level ∈ updates.map Prod.fst
  · exact Or.inr member
  · exact Or.inl (setPointers_of_not_mem member pointers)

theorem foldPointers_append (pointers : Nat → Option (InternalKey UserKey))
    (edits : List (VersionEdit UserKey β)) (edit : VersionEdit UserKey β) :
    foldPointers pointers (edits ++ [edit]) =
      setPointers (foldPointers pointers edits) edit.compactPointers := by
  rw [foldPointers, List.foldl_append]
  rfl

theorem setPointers_fits {pointers : Nat → Option (InternalKey UserKey)}
    (old : ∀ level, ∀ key ∈ pointers level, level < Config.kNumLevels ∧ key.Fits)
    (new : ∀ pair ∈ updates, pair.1 < Config.kNumLevels ∧ pair.2.Fits) :
    ∀ level, ∀ key ∈ setPointers pointers updates level,
      level < Config.kNumLevels ∧ key.Fits := by
  induction updates generalizing pointers with
  | nil => exact old
  | cons update rest inductionHypothesis =>
    rw [setPointers_cons]
    refine inductionHypothesis (fun level key isKey => ?_)
      fun pair member => new pair (List.mem_cons_of_mem _ member)
    by_cases isLevel : level = update.1
    · rw [isLevel, Function.update_self] at isKey
      rw [isLevel, ← Option.some.inj isKey]
      exact new update List.mem_cons_self
    · rw [Function.update_of_ne isLevel] at isKey
      exact old level key isKey

/-! ### The first manifest -/

section Runs

variable [LinearOrder UserKey]

/-- A version set before its first manifest: it can be stored, and its numbers were handed out. -/
structure VersionSet.Fresh (options : VersionSetOptions) (versions : VersionSet β) : Prop where
  closed : versions.descriptorLog = none
  comparator : options.comparator.length < 2 ^ 32
  leveled : versions.current.Leveled
  files : ∀ level, ∀ file ∈ versions.current.files level,
    file.Fits ∧ file.number < versions.nextFileNumber
  pointers : ∀ level, ∀ key ∈ versions.compactPointer level, level < Config.kNumLevels ∧ key.Fits
  logNumber : versions.logNumber < versions.nextFileNumber
  prevLogNumber : versions.prevLogNumber < versions.nextFileNumber

omit [LinearOrder UserKey] in
theorem snapshot_readable {options : VersionSetOptions} {versions : VersionSet β}
    (comparator : options.comparator.length < 2 ^ 32)
    (files : ∀ level, ∀ file ∈ versions.current.files level, file.Fits)
    (pointers : ∀ level, ∀ key ∈ versions.compactPointer level,
      level < Config.kNumLevels ∧ key.Fits) :
    (versions.snapshot options).Readable options := by
  refine ⟨⟨?_, nofun, nofun, nofun, nofun, ?_, ?_, ?_⟩, ?_⟩
  · intro name isName
    rw [← Option.some.inj isName]
    exact comparator
  · intro pair member
    obtain ⟨level, _, inLevel⟩ := List.mem_flatMap.mp member
    obtain ⟨key, isKey, rfl⟩ := List.mem_map.mp inLevel
    exact pointers level key (Option.mem_toList.mp isKey)
  · intro pair member
    exact absurd member (Finset.notMem_empty pair)
  · intro pair member
    obtain ⟨level, below, inLevel⟩ := List.mem_flatMap.mp member
    obtain ⟨file, inFiles, rfl⟩ := List.mem_map.mp inLevel
    exact ⟨List.mem_range.mp below, files level file inFiles⟩
  · exact fun name isName => (Option.some.inj isName).symm

/-- The first `LogAndApply` of a version set writes a snapshot and its edit to a new manifest. -/
theorem VersionSet.logAndApply_first {versions : VersionSet β}
    (closed : versions.descriptorLog = none) (options : VersionSetOptions) (directory : Directory)
    (edit : VersionEdit UserKey β) :
    ∃ writer : Log.Writer,
      writer.dest.contents = manifestBytes
          [(versions.pointTo edit.compactPointers).snapshot options, versions.completeEdit edit] ∧
      writer.blockOffset = manifestOffset
          [(versions.pointTo edit.compactPointers).snapshot options, versions.completeEdit edit] ∧
      versions.logAndApply options {} directory edit =
        (true, (versions.pointTo edit.compactPointers).install (versions.completeEdit edit) writer,
          (setCurrentFile (Function.update directory
            (descriptorFileName versions.manifestFileNumber) (some writer.dest.contents))
            versions.manifestFileNumber true true).2) := by
  set pointed := versions.pointTo edit.compactPointers with isPointed
  obtain ⟨snapshotAdded, snapshotReliable, snapshotWrote⟩ := Log.Writer.addRecord_of_outcomes
    (show (Log.Writer.new ⟨[], []⟩).dest.outcomes = [] from rfl)
    (pointed.snapshot options).encodeTo
  set opened := (Log.Writer.new ⟨[], []⟩).addRecord (pointed.snapshot options).encodeTo
  obtain ⟨added, _, wrote⟩ := Log.Writer.addRecord_of_outcomes snapshotReliable
    (versions.completeEdit edit).encodeTo
  have joined := snapshotWrote.append wrote
  rw [snapshotWrote.offset] at joined
  set appended := opened.2.addRecord (versions.completeEdit edit).encodeTo
  have opens : (versions.pointTo (versions.completeEdit edit).compactPointers).openDescriptor
      options {} = opened := by
    rw [VersionSet.openDescriptor, VersionSet.pointTo]
    simp only [closed, if_true]
    rfl
  have adds : opened.2.addRecord (versions.completeEdit edit).record.encodeTo = appended := rfl
  refine ⟨appended.2, ?_, ?_, ?_⟩
  · rw [joined.contents, manifestBytes]
    simp only [List.map_cons, List.map_nil, Log.recordFragments, List.append_nil]
    rfl
  · rw [joined.offset, manifestOffset]
    simp only [List.map_cons, List.map_nil, Log.recordFragments, List.append_nil]
    rfl
  · rw [VersionSet.logAndApply]
    simp only [VersionSet.addToDescriptor, VersionSet.installManifest, opens, snapshotAdded,
      if_true, adds, added, closed, Bool.and_self, setCurrentFile]
    rfl

/-- The first `LogAndApply` of a version set records a snapshot and its edit. -/
theorem VersionSet.Fresh.logAndApply {options : VersionSetOptions} {versions versions' : VersionSet β}
    (fresh : versions.Fresh options) {edit : VersionEdit UserKey β}
    (readable : (versions.completeEdit edit).Readable options)
    (once : ∀ level, ((versions.current.files level ++ edit.newFilesAt level).map
      FileMetaData.number).Nodup) {directory directory' : Directory}
    (logs : versions.logAndApply options {} directory edit = (true, versions', directory')) :
    versions'.Recorded options
      [(versions.pointTo edit.compactPointers).snapshot options, versions.completeEdit edit]
      directory' := by
  obtain ⟨writer, contents, offset, first⟩ :=
    VersionSet.logAndApply_first fresh.closed options directory edit
  cases logs.symm.trans first
  have snapshotReadable :
      ((versions.pointTo edit.compactPointers).snapshot options).Readable options :=
    snapshot_readable fresh.comparator (fun level file member => (fresh.files level file member).1)
      (setPointers_fits fresh.pointers readable.fits.pointers)
  have leveled : (versions.pointTo edit.compactPointers).current.Leveled := fresh.leveled
  refine ⟨setCurrentFile_current _ _, ?_, ⟨writer, rfl, contents, offset⟩, ?_, ?_, ?_, ?_⟩
  · refine (setCurrentFile_descriptor _ _ _).trans ?_
    exact (Function.update_self _ _ _).trans (congrArg some contents)
  · intro other member
    rcases List.mem_cons.mp member with rfl | rest
    · exact snapshotReadable
    · rw [List.mem_singleton.mp rest]
      exact readable
  · intro level
    rw [addedAt, List.flatMap_cons, List.flatMap_singleton,
      newFilesAt_snapshot options leveled.files]
    exact once level
  · intro level
    exact @applyEdit_preparedFile _ _ [(versions.pointTo edit.compactPointers).snapshot options]
      versions.current (applyEdit_snapshot options leveled) _ level
  · exact ⟨[(versions.pointTo edit.compactPointers).snapshot options], versions.completeEdit edit,
      _, _, rfl, versions.completes_completeEdit edit⟩

/-! ### Runs -/

end Runs

/-- A version set at work in its directory, with the edits it has logged. -/
structure ManifestRun (β : Type) where
  versions : VersionSet β
  directory : Directory
  edits : List (VersionEdit UserKey β)

inductive ManifestAction (β : Type)
  | newFileNumber
  | reuseFileNumber (number : Nat)
  | markFileNumberUsed (number : Nat)
  | setLastSequence (sequence : Nat)
  | logAndApply (edit : VersionEdit UserKey β)

/-- Every number in use is below a bound. -/
structure NumbersBelow (versions : VersionSet β) (bound : Nat) : Prop where
  files : ∀ level, ∀ file ∈ versions.current.files level, file.number < bound
  logNumber : versions.logNumber < bound
  prevLogNumber : versions.prevLogNumber < bound

theorem NumbersBelow.mono {versions : VersionSet β} {bound other : Nat}
    (below : NumbersBelow versions bound) (order : bound ≤ other) : NumbersBelow versions other :=
  ⟨fun level file member => (below.files level file member).trans_le order,
    below.logNumber.trans_le order, below.prevLogNumber.trans_le order⟩

namespace ManifestRun

variable [LinearOrder UserKey]

def setVersions (run : ManifestRun β) (versions : VersionSet β) : ManifestRun β :=
  { run with versions }

/-- One call on the version set. `LogAndApply` meets no failure, and `SetLastSequence` is only
called as it asserts. -/
def step (options : VersionSetOptions) (run : ManifestRun β) :
    ManifestAction β → Option (ManifestRun β)
  | .newFileNumber => some (run.setVersions run.versions.newFileNumber.2)
  | .reuseFileNumber number => some (run.setVersions (run.versions.reuseFileNumber number))
  | .markFileNumberUsed number => some (run.setVersions (run.versions.markFileNumberUsed number))
  | .setLastSequence sequence =>
    if run.versions.lastSequence ≤ sequence then
      some (run.setVersions { run.versions with lastSequence := sequence })
    else none
  | .logAndApply edit =>
    match run.versions.logAndApply options {} run.directory edit with
    | (true, versions, directory) =>
      some ⟨versions, directory, run.edits ++ [run.versions.completeEdit edit]⟩
    | (false, _) => none

/-- The edits that may be logged: they can be stored, they add no number to a level that had it
before, and their numbers were handed out by `NewFileNumber`, which has not run out of numbers. -/
structure Admits (options : VersionSetOptions) (start : VersionSet β) (run : ManifestRun β)
    (edit : VersionEdit UserKey β) : Prop where
  readable : (run.versions.completeEdit edit).Readable options
  once : ∀ level, ((start.current.files level ++ addedAt (run.edits ++ [edit]) level).map
    FileMetaData.number).Nodup
  file_lt : ∀ pair ∈ edit.newFiles, pair.2.number < run.versions.nextFileNumber
  logNumber_lt : ∀ number ∈ edit.logNumber, number < run.versions.nextFileNumber
  prevLogNumber_lt : ∀ number ∈ edit.prevLogNumber, number < run.versions.nextFileNumber
  counter : run.versions.nextFileNumber + 1 < 2 ^ 64

/-- A number is given back only if it is not in use. -/
def Allowed (options : VersionSetOptions) (start : VersionSet β) (run : ManifestRun β) :
    ManifestAction β → Prop
  | .reuseFileNumber number =>
    (∀ level, ∀ file ∈ run.versions.current.files level, file.number ≠ number) ∧
      run.versions.logNumber ≠ number ∧ run.versions.prevLogNumber ≠ number
  | .logAndApply edit => run.Admits options start edit
  | .newFileNumber | .markFileNumberUsed _ | .setLastSequence _ => True

/-! ### The invariant -/

/-- The manifest holds a snapshot of the start and the edits logged since. -/
structure Logged (options : VersionSetOptions) (start : VersionSet β) (run : ManifestRun β)
    (snapshot : VersionEdit UserKey β) (nextFile : Nat) : Prop where
  recorded : run.versions.Recorded options (snapshot :: run.edits) run.directory
  starts : ∀ level, snapshot.newFilesAt level = start.current.files level
  pointers : foldPointers (fun _ => none) (snapshot :: run.edits) = run.versions.compactPointer
  last : run.edits.getLast?.bind VersionEdit.nextFileNumber = some nextFile
  below : NumbersBelow run.versions nextFile
  counter : nextFile + 1 < 2 ^ 64

/-- What every reachable state keeps. -/
structure Inv (options : VersionSetOptions) (start : VersionSet β) (run : ManifestRun β) : Prop where
  below : NumbersBelow run.versions run.versions.nextFileNumber
  logged : (run.edits = [] ∧ run.versions.Fresh options ∧ run.versions.current = start.current) ∨
    ∃ snapshot nextFile, run.Logged options start snapshot nextFile

variable {options : VersionSetOptions} {start : VersionSet β} {run : ManifestRun β}

theorem Inv.setCounters (inv : run.Inv options start) {next sequence : Nat}
    (below : NumbersBelow run.versions next) :
    (run.setVersions { run.versions with nextFileNumber := next, lastSequence := sequence }).Inv
      options start := by
  refine ⟨⟨below.files, below.logNumber, below.prevLogNumber⟩, ?_⟩
  rcases inv.logged with ⟨none, fresh, same⟩ | ⟨snapshot, nextFile, logged⟩
  · refine Or.inl ⟨none, ?_, same⟩
    exact { fresh with
      files := fun level file member =>
        ⟨(fresh.files level file member).1, below.files level file member⟩
      logNumber := below.logNumber
      prevLogNumber := below.prevLogNumber }
  · refine Or.inr ⟨snapshot, nextFile, { logged with
      recorded := { logged.recorded with }
      below := ⟨logged.below.files, logged.below.logNumber, logged.below.prevLogNumber⟩ }⟩

variable {edit : VersionEdit UserKey β}

theorem logAndApply_installs {faults : ManifestFaults}
    {versions versions' : VersionSet β} {directory directory' : Directory}
    (logs : versions.logAndApply options faults directory edit = (true, versions', directory')) :
    ∃ writer, versions' =
      (versions.pointTo edit.compactPointers).install (versions.completeEdit edit) writer := by
  rw [VersionSet.logAndApply] at logs
  simp only at logs
  split at logs
  · split at logs
    · cases logs
      exact ⟨_, rfl⟩
    · cases logs
  · split at logs
    · cases logs
      exact ⟨_, rfl⟩
    · cases logs

/-- The numbers of an admitted edit are below the next file number, as the others are. -/
theorem NumbersBelow.install (admits : run.Admits options start edit)
    (below : NumbersBelow run.versions run.versions.nextFileNumber) (writer : Log.Writer) :
    NumbersBelow ((run.versions.pointTo edit.compactPointers).install
      (run.versions.completeEdit edit) writer) run.versions.nextFileNumber := by
  refine ⟨fun level file member => ?_, ?_, ?_⟩
  · have distinct : (((run.versions.completeEdit edit).newFilesAt level).map
        FileMetaData.number).Nodup := by
      have once := admits.once level
      rw [addedAt, List.flatMap_append, List.flatMap_singleton, List.map_append, List.map_append,
        List.nodup_append] at once
      exact (List.nodup_append.mp once.2.1).2.1
    rcases (mem_applyEdit_files distinct).mp member with old | ⟨new, inNew, rfl⟩
    · exact below.files level file old.1
    · exact admits.file_lt (level, new) (mem_newFilesAt.mp inNew)
  · show edit.logNumber.getD run.versions.logNumber < _
    cases isNumber : edit.logNumber with
    | none => exact below.logNumber
    | some number => exact admits.logNumber_lt number isNumber
  · show edit.prevLogNumber.getD run.versions.prevLogNumber < _
    cases isNumber : edit.prevLogNumber with
    | none => exact below.prevLogNumber
    | some number => exact admits.prevLogNumber_lt number isNumber

/-- `LogAndApply` of an admitted edit keeps the invariant. -/
theorem Inv.logAndApply (inv : run.Inv options start)
    (admits : run.Admits options start edit) {versions' : VersionSet β} {directory' : Directory}
    (logs : run.versions.logAndApply options {} run.directory edit =
      (true, versions', directory')) :
    (⟨versions', directory', run.edits ++ [run.versions.completeEdit edit]⟩ :
      ManifestRun β).Inv options start := by
  obtain ⟨writer, isVersions⟩ := logAndApply_installs logs
  have below := NumbersBelow.install admits inv.below writer
  rw [← isVersions] at below
  have last : (run.edits ++ [run.versions.completeEdit edit]).getLast?.bind
      VersionEdit.nextFileNumber = some run.versions.nextFileNumber := by
    rw [List.getLast?_concat]
    rfl
  refine ⟨?_, Or.inr ?_⟩
  · rw [isVersions] at below ⊢
    exact below
  rcases inv.logged with ⟨none, fresh, same⟩ | ⟨snapshot, nextFile, logged⟩
  · have once : ∀ level, ((run.versions.current.files level ++ edit.newFilesAt level).map
        FileMetaData.number).Nodup := by
      intro level
      have once := admits.once level
      rw [none, List.nil_append, addedAt, List.flatMap_singleton, ← same] at once
      exact once
    have recorded := fresh.logAndApply admits.readable once logs
    refine ⟨(run.versions.pointTo edit.compactPointers).snapshot options, _,
      ⟨?_, fun level => ?_, ?_, last, below, admits.counter⟩⟩
    · rw [none]
      exact recorded
    · rw [newFilesAt_snapshot options (show ∀ level, Config.kNumLevels ≤ level →
        (run.versions.pointTo edit.compactPointers).current.files level = [] from
          fresh.leveled.files), ← same]
      rfl
    · have levels : ∀ level, Config.kNumLevels ≤ level →
          (run.versions.pointTo edit.compactPointers).compactPointer level = Option.none := by
        intro level above
        refine Option.eq_none_iff_forall_not_mem.mpr fun key isKey => ?_
        exact absurd (setPointers_fits fresh.pointers admits.readable.fits.pointers level key
          isKey).1 (Nat.not_lt.mpr above)
      rw [none, isVersions]
      show setPointers (setPointers _ _) edit.compactPointers = setPointers _ edit.compactPointers
      rw [setPointers_snapshot options levels]
      exact setPointers_setPointers _ _
  · have once : ∀ level, ((addedAt ((snapshot :: run.edits) ++ [run.versions.completeEdit edit])
        level).map FileMetaData.number).Nodup := by
      intro level
      have once := admits.once level
      rw [← logged.starts level, addedAt, List.flatMap_append, List.flatMap_singleton] at once
      rw [addedAt, List.cons_append, List.flatMap_cons, List.flatMap_append, List.flatMap_singleton]
      exact once
    have trailers : run.versions.Trailers {} edit :=
      fun _ _ => Log.Writer.trailers_of_outcomes rfl _
    have recorded := logged.recorded.logAndApply trailers admits.readable once logs
    refine ⟨snapshot, _, ⟨recorded, logged.starts, ?_, last, below, admits.counter⟩⟩
    rw [isVersions, ← List.cons_append, foldPointers_append, logged.pointers]
    rfl

/-- One call keeps the invariant. -/
theorem Inv.step {options : VersionSetOptions} {start : VersionSet β} {run run' : ManifestRun β}
    {action : ManifestAction β} (inv : run.Inv options start)
    (allowed : run.Allowed options start action) (taken : run.step options action = some run') :
    run'.Inv options start := by
  cases action with
  | newFileNumber =>
    cases taken
    exact inv.setCounters (inv.below.mono (Nat.le_succ _))
  | reuseFileNumber number =>
    cases taken
    rw [VersionSet.reuseFileNumber]
    split
    · rename_i isNext
      obtain ⟨files, logNumber, prevLogNumber⟩ := allowed
      have below := inv.below
      rw [isNext] at below
      refine inv.setCounters ⟨fun level file member => ?_, ?_, ?_⟩
      · exact lt_of_le_of_ne (Nat.le_of_lt_succ (below.files level file member))
          (files level file member)
      · exact lt_of_le_of_ne (Nat.le_of_lt_succ below.logNumber) logNumber
      · exact lt_of_le_of_ne (Nat.le_of_lt_succ below.prevLogNumber) prevLogNumber
    · exact inv.setCounters inv.below
  | markFileNumberUsed number =>
    cases taken
    rw [VersionSet.markFileNumberUsed]
    split
    · rename_i isLarge
      exact inv.setCounters (inv.below.mono (Nat.le_succ_of_le isLarge))
    · exact inv.setCounters inv.below
  | setLastSequence sequence =>
    rw [ManifestRun.step] at taken
    split at taken
    · cases taken
      exact inv.setCounters inv.below
    · cases taken
  | logAndApply edit =>
    rw [ManifestRun.step] at taken
    split at taken
    · rename_i versions directory logs
      cases taken
      exact inv.logAndApply allowed logs
    · cases taken

/-! ### Recovery -/

end ManifestRun

namespace ManifestRun

variable [LinearOrder UserKey]

end ManifestRun

/-- The order of `BytewiseComparator`. -/
@[reducible] def bytewise : LinearOrder UserKey :=
  LinearOrder.lift' (fun key => key.bytes.map UInt8.toNat) fun _ _ same =>
    congrArg UserKey.mk (List.map_injective_iff.mpr (fun _ _ => UInt8.toNat_inj.mp) same)

namespace ManifestRun

/-- Options with the default comparator. -/
def smallOptions : VersionSetOptions := { comparator := ascii ['b', 'y', 't', 'e'], maxFileSize := 2 }

end ManifestRun

end LevelDb
