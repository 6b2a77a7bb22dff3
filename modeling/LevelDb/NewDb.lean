/-
This file models the first `Open` of a database as the calls it makes on files: `DBImpl::NewDB`, and
what `DB::Open` does behind it in a directory without logs. All calls succeed, and a crash comes
behind any number of them.

`LogAndApply` syncs a manifest before `CURRENT` names it; `NewDB` only closes its manifest. So a
crash can leave a `CURRENT` that names a manifest without a whole record, and that cannot be opened.
-/

import LevelDb.ManifestRuns
import LevelDb.MissingTables
import LevelDb.Lib.Disk

namespace LevelDb

open Lib

variable {β : Type}

/-! ### The calls on files -/

abbrev FileOp : Type := DiskOp Bytes UInt8

/-- `WriteStringToFileSync` of the temporary file of `SetCurrentFile`. -/
def tempFileOps (descriptorNumber : Nat) : List FileOp :=
  let temp := tempFileName descriptorNumber
  [.create temp, .append temp (descriptorFileName descriptorNumber ++ [10]), .sync temp]

/-- `SetCurrentFile`. -/
def setCurrentFileOps (descriptorNumber : Nat) : List FileOp :=
  tempFileOps descriptorNumber ++ [.rename (tempFileName descriptorNumber) currentFileName]

/-- The edit of `NewDB`. -/
def newDbFirstEdit (options : VersionSetOptions) : VersionEdit UserKey β :=
  { comparator := some options.comparator
    logNumber := some 0
    nextFileNumber := some 2
    lastSequence := some 0 }

/-- What `NewDB` writes to its manifest. -/
def newDbManifest (options : VersionSetOptions) : Bytes :=
  Log.written [(newDbFirstEdit options : VersionEdit UserKey Unit).encodeTo]

/-- `NewDB` until `CURRENT` is to be made. The manifest is closed, but not synced. -/
def newManifestOps (options : VersionSetOptions) : List FileOp :=
  [.create (descriptorFileName 1), .append (descriptorFileName 1) (newDbManifest options)]

/-- `NewDB`. -/
def newDbOps (options : VersionSetOptions) : List FileOp :=
  newManifestOps options ++ setCurrentFileOps 1

/-- `LogAndApply` of a version set without a descriptor log, until `CURRENT` is to be made. -/
def VersionSet.snapshotOps (options : VersionSetOptions) (versions : VersionSet β)
    (edit : VersionEdit UserKey β) : List FileOp :=
  let edit := versions.completeEdit edit
  let opened := (versions.pointTo edit.compactPointers).openDescriptor options {}
  let added := opened.2.addRecord edit.record.encodeTo
  let manifest := descriptorFileName versions.manifestFileNumber
  [.create manifest, .append manifest opened.2.dest.contents,
    .append manifest (added.2.dest.contents.drop opened.2.dest.contents.length), .sync manifest]

/-- `LogAndApply` of a version set without a descriptor log. -/
def VersionSet.logAndApplyOps (options : VersionSetOptions) (versions : VersionSet β)
    (edit : VersionEdit UserKey β) : List FileOp :=
  versions.snapshotOps options edit ++ setCurrentFileOps versions.manifestFileNumber

/-- `AddLiveFiles` of one version. -/
def Version.liveFiles (version : Version UserKey β) : Finset Nat :=
  ((List.range Config.kNumLevels).flatMap fun level =>
    (version.files level).map FileMetaData.number).toFinset

/-- Whether `DeleteObsoleteFiles` keeps a file. No outputs are pending. -/
def VersionSet.keeps (versions : VersionSet β) (number : Nat) : FileType → Bool
  | .kLogFile => versions.logNumber ≤ number || number = versions.prevLogNumber
  | .kDescriptorFile => versions.manifestFileNumber ≤ number
  | .kTableFile | .kTempFile => number ∈ versions.current.liveFiles
  | .kCurrentFile | .kDBLockFile | .kInfoLogFile => true

/-- The files that `DeleteObsoleteFiles` deletes of those in the directory. -/
def VersionSet.obsoleteFiles (versions : VersionSet β) (listed : List Bytes) : List Bytes :=
  listed.filter fun name =>
    match parseFileName name with
    | some (number, type) => !versions.keeps number type
    | none => false

section Open

variable [LinearOrder UserKey]

/-- `DB::Open` behind `NewDB`, once the version set is recovered: a new log, a new manifest unless
the one of `NewDB` is reused, and the deletion of obsolete files. -/
def openedOps (options : VersionSetOptions) (listed : List Bytes) (versions : VersionSet β)
    (disk : Disk Bytes UInt8) : List FileOp :=
  let (number, versions) := versions.newFileNumber
  let created : List FileOp := [.create (logFileName number)]
  let edit : VersionEdit UserKey β := { logNumber := some number, prevLogNumber := some 0 }
  match versions.descriptorLog with
  | some _ => created ++ (versions.obsoleteFiles listed).map .delete
  | none =>
    let saved := (versions.logAndApply options {} (disk.run created).contents edit).2.1
    created ++ versions.logAndApplyOps options edit ++ (saved.obsoleteFiles listed).map .delete

/-- `DB::Open` in a directory without `CURRENT` and without logs. `listed` are the names in the
directory at its end. -/
def firstOpen (options : VersionSetOptions) (tables : Nat → List (Entry UserKey β))
    (listed : List Bytes) (disk : Disk Bytes UInt8) : List FileOp :=
  match (VersionSet.new : VersionSet β).recover options tables
      (disk.run (newDbOps options)).contents with
  | .error _ => newDbOps options
  | .ok versions =>
    newDbOps options ++ openedOps options listed versions (disk.run (newDbOps options))

/-! ### After a crash -/

/-- The manifest that `CURRENT` names holds a whole record. -/
def HoldsFirstRecord (directory : Directory) : Prop :=
  ∃ name contents record reader, readCurrent directory = .ok name ∧ directory name = some contents ∧
    (Log.Reader.new { remaining := contents } true 0).readRecord = (some record, reader)

/-- `DBImpl::Recover` succeeds: the version set is recovered, no table is missing whatever the
names in the directory are, and the logs hold nothing that could not be replayed. -/
structure Reopens (options : VersionSetOptions) (tables : Nat → List (Entry UserKey β))
    (directory : Directory) : Prop where
  versions : ∃ versions : VersionSet β,
    (VersionSet.new : VersionSet β).recover options tables directory = .ok versions ∧
      ∀ listed, ∃ logs, recoverListing versions.logNumber versions.prevLogNumber
        versions.current.liveFiles listed = .ok logs
  logs : ∀ number log, directory (logFileName number) = some log → log = []

end Open

/-! ### Whole sequences of calls -/

theorem newDbManifest_eq (options : VersionSetOptions) :
    newDbManifest options = manifestBytes [(newDbFirstEdit options : VersionEdit UserKey β)] :=
  Log.written_eq _

section Run

variable (disk : Disk Bytes UInt8)

theorem run_setCurrentFileOps (number : Nat) :
    disk.run (setCurrentFileOps number) =
      Function.update (Function.update disk (tempFileName number) none) currentFileName
        (some ⟨descriptorFileName number ++ [10], (descriptorFileName number ++ [10]).length⟩) := by
  simp only [setCurrentFileOps, tempFileOps, Disk.run, List.cons_append, List.nil_append,
    List.foldl_cons, List.foldl_nil, Disk.step, Function.update_self, Option.map_some,
    Function.update_idem]

theorem run_newManifestOps (options : VersionSetOptions) :
    disk.run (newManifestOps options) =
      Function.update disk (descriptorFileName 1) (some ⟨newDbManifest options, 0⟩) := by
  simp only [newManifestOps, Disk.run, List.foldl_cons, List.foldl_nil, Disk.step,
    Function.update_self, Option.map_some, Function.update_idem, List.nil_append]

theorem contents_update (name : Bytes) (file : Option (DiskFile UInt8)) :
    Disk.contents (Function.update disk name file) =
      Function.update disk.contents name (file.map DiskFile.contents) :=
  Function.comp_update (Option.map DiskFile.contents) disk name file

/-- The calls of `SetCurrentFile` do what the function does. -/
theorem contents_run_setCurrentFileOps (number : Nat) :
    (disk.run (setCurrentFileOps number)).contents =
      (setCurrentFile disk.contents number true true).2 := by
  have temp : currentFileName ≠ tempFileName number := (makeFileName_ne_currentFileName _ _).symm
  rw [run_setCurrentFileOps, contents_update, contents_update]
  exact Function.update_comm temp.symm _ _ _

/-- The calls of a first `LogAndApply` write a snapshot and the edit, and sync them. -/
theorem run_snapshotOps (options : VersionSetOptions) {versions : VersionSet β}
    (closed : versions.descriptorLog = none) (edit : VersionEdit UserKey β) :
    disk.run (versions.snapshotOps options edit) =
      Function.update disk (descriptorFileName versions.manifestFileNumber)
        (some ⟨manifestBytes [(versions.pointTo edit.compactPointers).snapshot options,
            versions.completeEdit edit],
          (manifestBytes [(versions.pointTo edit.compactPointers).snapshot options,
            versions.completeEdit edit]).length⟩) := by
  set pointed := versions.pointTo edit.compactPointers
  obtain ⟨_, snapshotReliable, snapshotWrote⟩ := Log.Writer.addRecord_of_outcomes
    (show (Log.Writer.new ⟨[], []⟩).dest.outcomes = [] from rfl)
    (pointed.snapshot options).encodeTo
  obtain ⟨_, _, wrote⟩ := Log.Writer.addRecord_of_outcomes snapshotReliable
    (versions.completeEdit edit).encodeTo
  have joined := snapshotWrote.append wrote
  rw [snapshotWrote.offset] at joined
  set opened := (Log.Writer.new ⟨[], []⟩).addRecord (pointed.snapshot options).encodeTo
  set added := opened.2.addRecord (versions.completeEdit edit).encodeTo
  have opens : (versions.pointTo (versions.completeEdit edit).compactPointers).openDescriptor
      options {} = opened := by
    rw [VersionSet.openDescriptor, VersionSet.pointTo]
    simp only [closed, if_true]
    rfl
  have whole : opened.2.dest.contents ++
      added.2.dest.contents.drop opened.2.dest.contents.length = added.2.dest.contents := by
    rw [wrote.contents, List.drop_left]
  have isManifest : added.2.dest.contents =
      manifestBytes [pointed.snapshot options, versions.completeEdit edit] := by
    rw [joined.contents, manifestBytes]
    simp only [List.map_cons, List.map_nil, Log.recordFragments, List.append_nil]
    rfl
  have adds : opened.2.addRecord (versions.completeEdit edit).record.encodeTo = added := rfl
  rw [isManifest] at whole
  simp only [VersionSet.snapshotOps, Disk.run, List.foldl_cons, List.foldl_nil, Disk.step, opens,
    adds, Function.update_self, Option.map_some, Function.update_idem, List.nil_append, whole,
    isManifest]

/-- The calls of a first `LogAndApply` do what the function does. -/
theorem contents_run_logAndApplyOps [LinearOrder UserKey] (options : VersionSetOptions)
    {versions : VersionSet β} (closed : versions.descriptorLog = none)
    (edit : VersionEdit UserKey β) :
    (disk.run (versions.logAndApplyOps options edit)).contents =
      (versions.logAndApply options {} disk.contents edit).2.2 := by
  obtain ⟨writer, contents, _, logs⟩ :=
    VersionSet.logAndApply_first closed options disk.contents edit
  rw [VersionSet.logAndApplyOps, Disk.run_append, contents_run_setCurrentFileOps,
    run_snapshotOps disk options closed, contents_update, logs, contents]
  rfl

end Run

/-! ### Recovery -/

section Recovery

theorem newDbFirstEdit_readable (options : VersionSetOptions)
    (comparator : options.comparator.length < 2 ^ 32) :
    (newDbFirstEdit options : VersionEdit UserKey β).Readable options := by
  refine ⟨⟨?_, ?_, nofun, ?_, ?_, nofun, nofun, nofun⟩, ?_⟩
  · rintro name ⟨⟩
    exact comparator
  · rintro number ⟨⟩
    decide
  · rintro number ⟨⟩
    decide
  · rintro sequence ⟨⟩
    decide
  · rintro name ⟨⟩
    rfl

/-- What `Recover` makes of the manifest of `NewDB`. -/
structure RecoveredNew (versions : VersionSet β) : Prop where
  nextFileNumber : versions.nextFileNumber = 3
  lastSequence : versions.lastSequence = 0
  logNumber : versions.logNumber = 0
  prevLogNumber : versions.prevLogNumber = 0
  files : ∀ level, versions.current.files level = []
  pointers : versions.compactPointer = fun _ => none
  descriptor : versions.descriptorLog = none ∧ versions.manifestFileNumber = 2 ∨
    (∃ writer, versions.descriptorLog = some writer) ∧ versions.manifestFileNumber = 1

theorem reuseManifest_cases (options : VersionSetOptions) (contents : Bytes) :
    reuseManifest options (descriptorFileName 1) contents = none ∨
      ∃ writer, reuseManifest options (descriptorFileName 1) contents = some (writer, 1) := by
  have parsed : parseFileName (descriptorFileName 1) = some (1, .kDescriptorFile) := by decide
  rw [reuseManifest]
  split
  · rw [parsed]
    simp only
    split
    · exact .inl rfl
    · exact .inr ⟨_, rfl⟩
  · exact .inl rfl

variable [LinearOrder UserKey]

/-- `Recover` when `CURRENT` names the manifest of `NewDB` and that is whole. -/
theorem recover_newDbManifest {options : VersionSetOptions}
    (comparator : options.comparator.length < 2 ^ 32) (tables : Nat → List (Entry UserKey β))
    {directory : Directory}
    (current : directory currentFileName = some (descriptorFileName 1 ++ [10]))
    (manifest : directory (descriptorFileName 1) = some (newDbManifest options)) :
    ∃ versions : VersionSet β,
      (VersionSet.new : VersionSet β).recover options tables directory = .ok versions ∧
        RecoveredNew versions := by
  have isReadable : ∀ edit ∈ [(newDbFirstEdit options : VersionEdit UserKey β)],
      edit.Readable options :=
    List.forall_mem_singleton.mpr (newDbFirstEdit_readable options comparator)
  have reads := recoverLoop_manifest tables isReadable
    { builder := Builder.new Version.empty, compactPointer := fun _ => none }
  rw [← newDbManifest_eq] at reads
  have distinct : ∀ level, ((addedAt [(newDbFirstEdit options : VersionEdit UserKey β)] level).map
      FileMetaData.number).Nodup := fun _ => List.nodup_nil
  refine ⟨_, (recover_of_current options tables VersionSet.new current manifest).trans
    (congrArg (fun result => result >>= RecoverState.finish options VersionSet.new
      (descriptorFileName 1) (newDbManifest options)) reads), rfl, rfl, rfl, rfl, ?_, rfl, ?_⟩
  · exact saveTo_replay tables distinct
  · rcases reuseManifest_cases options (newDbManifest options) with none' | ⟨writer, some'⟩
    · left
      simp only [none']
      exact ⟨rfl, rfl⟩
    · right
      simp only [some']
      exact ⟨⟨writer, rfl⟩, rfl⟩

/-- `Recover` when `CURRENT` names the manifest of `NewDB` and its end is lost. -/
theorem recover_newDbManifest_cut {options : VersionSetOptions}
    (tables : Nat → List (Entry UserKey β)) {directory : Directory} {kept : Nat}
    (current : directory currentFileName = some (descriptorFileName 1 ++ [10]))
    (manifest : directory (descriptorFileName 1) = some ((newDbManifest options).take kept))
    (cut : kept < (newDbManifest options).length) :
    (VersionSet.new : VersionSet β).recover options tables directory = .error .noNextFile := by
  have isLayout : newDbManifest options = Log.layout 0 (Log.fragments
      (newDbFirstEdit options : VersionEdit UserKey Unit).encodeTo 0) := by
    rw [newDbManifest, Log.written_eq, Log.recordFragments, Log.recordFragments, List.append_nil]
  rw [isLayout] at manifest cut
  have none' : ∀ edit ∈ ([] : List (VersionEdit UserKey β)), edit.Readable options :=
    List.forall_mem_nil _
  have cutRecord : kept < (Log.layout (manifestOffset ([] : List (VersionEdit UserKey β)))
      (Log.fragments (newDbFirstEdit options : VersionEdit UserKey Unit).encodeTo
        (manifestOffset ([] : List (VersionEdit UserKey β))))).length := cut
  have reads := recoverLoop_manifest_cut tables none' cutRecord rfl
    { builder := Builder.new Version.empty, compactPointer := fun _ => none }
  exact (recover_of_current options tables VersionSet.new current manifest).trans
    (congrArg (fun result => result >>= RecoverState.finish options VersionSet.new
      (descriptorFileName 1) _) reads)

end Recovery

/-! ### The states between the calls -/

/-- No log holds anything. -/
def LogsEmpty (disk : Disk Bytes UInt8) : Prop :=
  ∀ number file, disk (logFileName number) = some file → file.contents = []

theorem tempFileName_ne_logFileName (number other : Nat) :
    tempFileName number ≠ logFileName other := by
  intro same
  have last := congrArg List.getLast? same
  rw [tempFileName, logFileName, makeFileName, makeFileName,
    List.getLast?_append_of_ne_nil _ (by decide : ascii ['.', 'd', 'b', 't', 'm', 'p'] ≠ []),
    List.getLast?_append_of_ne_nil _ (by decide : ascii ['.', 'l', 'o', 'g'] ≠ [])] at last
  exact absurd last (by decide)

/-- A call that leaves `CURRENT` alone, and the logs empty. -/
structure Harmless (op : FileOp) : Prop where
  current : currentFileName ∉ op.names
  logs : ∀ disk : Disk Bytes UInt8, LogsEmpty disk → LogsEmpty (disk.step op)

theorem Harmless.of_names {op : FileOp} (current : currentFileName ∉ op.names)
    (logs : ∀ number, logFileName number ∉ op.names) : Harmless op := by
  refine ⟨current, fun disk empty number file isFile => ?_⟩
  rw [Disk.step_of_not_mem (logs number)] at isFile
  exact empty number file isFile

theorem Harmless.create (number : Nat) : Harmless (.create (logFileName number)) := by
  refine ⟨fun member => ?_, fun disk empty other file isFile => ?_⟩
  · exact makeFileName_ne_currentFileName _ _ (List.mem_singleton.mp member).symm
  · rw [Disk.step] at isFile
    by_cases same : logFileName other = logFileName number
    · rw [same, Function.update_self] at isFile
      cases isFile
      rfl
    · rw [Function.update_of_ne same] at isFile
      exact empty other file isFile

theorem Harmless.delete {name : Bytes} (notCurrent : name ≠ currentFileName) :
    Harmless (.delete name) := by
  refine ⟨fun member => notCurrent (List.mem_singleton.mp member).symm,
    fun disk empty other file isFile => ?_⟩
  rw [Disk.step] at isFile
  by_cases same : logFileName other = name
  · rw [same, Function.update_self] at isFile
    cases isFile
  · rw [Function.update_of_ne same] at isFile
    exact empty other file isFile

theorem tempFileOps_harmless (number : Nat) : ∀ op ∈ tempFileOps number, Harmless op := by
  have notCurrent : currentFileName ∉ [tempFileName number] := fun member =>
    makeFileName_ne_currentFileName _ _ (List.mem_singleton.mp member).symm
  have notLog : ∀ other, logFileName other ∉ [tempFileName number] := fun other member =>
    tempFileName_ne_logFileName number other (List.mem_singleton.mp member).symm
  rw [tempFileOps, List.forall_mem_cons, List.forall_mem_cons, List.forall_mem_singleton]
  exact ⟨.of_names notCurrent notLog, .of_names notCurrent notLog, .of_names notCurrent notLog⟩

/-- Calls on a manifest are harmless. -/
theorem Harmless.manifest {op : FileOp} {number : Nat}
    (isName : op.names = [descriptorFileName number]) : Harmless op := by
  refine .of_names (fun member => ?_) fun other member => ?_
  · rw [isName] at member
    exact descriptorFileName_ne_currentFileName _ (List.mem_singleton.mp member).symm
  · rw [isName] at member
    exact makeFileName_ne_descriptorFileName _ _ _ (List.mem_singleton.mp member)

/-- The name of a manifest and the end of the line, synced. -/
def currentFile (number : Nat) : DiskFile UInt8 :=
  ⟨descriptorFileName number ++ [10], (descriptorFileName number ++ [10]).length⟩

/-- `CURRENT` names the manifest of `NewDB`, which was not synced. -/
structure Created (options : VersionSetOptions) (disk : Disk Bytes UInt8) : Prop where
  current : disk currentFileName = some (currentFile 1)
  manifest : disk (descriptorFileName 1) = some ⟨newDbManifest options, 0⟩
  logs : LogsEmpty disk

theorem Created.step {options : VersionSetOptions} {disk : Disk Bytes UInt8} {op : FileOp}
    (created : Created options disk) (harmless : Harmless op)
    (other : descriptorFileName 1 ∉ op.names) : Created options (disk.step op) :=
  ⟨(Disk.step_of_not_mem harmless.current).trans created.current,
    (Disk.step_of_not_mem other).trans created.manifest, harmless.logs disk created.logs⟩

section States

variable {options : VersionSetOptions} {disk : Disk Bytes UInt8}

theorem run_newDbOps (empty : LogsEmpty disk) : Created options (disk.run (newDbOps options)) := by
  have notTemp : ∀ number, descriptorFileName 1 ≠ tempFileName number := fun number =>
    (makeFileName_ne_descriptorFileName _ _ _).symm
  rw [newDbOps, Disk.run_append, run_newManifestOps, run_setCurrentFileOps]
  refine ⟨Function.update_self _ _ _, ?_, fun number file isFile => ?_⟩
  · rw [Function.update_of_ne (descriptorFileName_ne_currentFileName 1),
      Function.update_of_ne (notTemp 1), Function.update_self]
  · have notCurrent : logFileName number ≠ currentFileName := makeFileName_ne_currentFileName _ _
    have notManifest : logFileName number ≠ descriptorFileName 1 :=
      makeFileName_ne_descriptorFileName _ _ _
    rw [Function.update_of_ne notCurrent,
      Function.update_of_ne (tempFileName_ne_logFileName 1 number).symm,
      Function.update_of_ne notManifest] at isFile
    exact empty number file isFile

/-- `SetCurrentFile` changes `CURRENT` with its last call. -/
theorem run_take_setCurrentFileOps (disk : Disk Bytes UInt8) (ops : List FileOp)
    (number count : Nat) :
    (∃ count', disk.run ((ops ++ setCurrentFileOps number).take count) =
        disk.run ((ops ++ tempFileOps number).take count')) ∨
      disk.run ((ops ++ setCurrentFileOps number).take count) =
        disk.run (ops ++ setCurrentFileOps number) := by
  rw [setCurrentFileOps, ← List.append_assoc]
  rcases Disk.run_take_append disk (ops ++ tempFileOps number)
    [.rename (tempFileName number) currentFileName] count with ⟨count', same⟩ | ⟨count', same⟩
  · exact .inl ⟨count', same⟩
  · cases count' with
    | zero =>
      refine .inl ⟨(ops ++ tempFileOps number).length, ?_⟩
      rw [same, List.take_length]
      rfl
    | succ count' =>
      right
      rw [same, List.take_succ_cons, List.take_nil, ← Disk.run_append]

/-- Before `CURRENT` is renamed into place there is none. -/
theorem run_take_newDbOps (noCurrent : disk currentFileName = none) (count : Nat) :
    disk.run ((newDbOps options).take count) currentFileName = none ∨
      disk.run ((newDbOps options).take count) = disk.run (newDbOps options) := by
  have harmless : ∀ op ∈ newManifestOps options ++ tempFileOps 1, Harmless op := by
    refine List.forall_mem_append.mpr ⟨?_, tempFileOps_harmless 1⟩
    rw [newManifestOps, List.forall_mem_cons, List.forall_mem_singleton]
    exact ⟨.manifest rfl, .manifest rfl⟩
  rw [newDbOps]
  refine (run_take_setCurrentFileOps disk _ 1 count).imp_left ?_
  rintro ⟨count', same⟩
  rw [same]
  exact @Disk.run_invariant _ _ _ _ (fun disk => disk currentFileName = none) _ noCurrent
    (fun op member disk none' => (Disk.step_of_not_mem (harmless op member).current).trans none') _

theorem Created.run {ops : List FileOp} (created : Created options disk)
    (harmless : ∀ op ∈ ops, Harmless op) (other : ∀ op ∈ ops, descriptorFileName 1 ∉ op.names)
    (count : Nat) : Created options (disk.run (ops.take count)) :=
  Disk.run_invariant created
    (fun op member _ created => created.step (harmless op member) (other op member)) count

/-- A log that survives an empty log is empty. -/
theorem LogsEmpty.survives (empty : LogsEmpty disk) {after : Directory}
    (survives : disk.Survives after) (number : Nat) (log : Bytes)
    (isLog : after (logFileName number) = some log) : log = [] := by
  cases isFile : disk (logFileName number) with
  | none =>
    rw [survives.absent _ isFile] at isLog
    cases isLog
  | some file =>
    obtain ⟨kept, _, isAfter⟩ := survives.kept _ file isFile
    rw [isAfter, empty number file isFile, List.take_nil] at isLog
    exact (Option.some.inj isLog).symm

/-- A recovered version without files misses none. -/
theorem recoverListing_of_none {versions : VersionSet β}
    (files : ∀ level, versions.current.files level = []) (listed : List Bytes) :
    ∃ logs, recoverListing versions.logNumber versions.prevLogNumber versions.current.liveFiles
      listed = .ok logs := by
  have noLive : versions.current.liveFiles = ∅ := by
    rw [Version.liveFiles, List.flatMap_eq_nil_iff.mpr fun level _ => by rw [files]; rfl]
    rfl
  rw [noLive]
  cases result : recoverListing versions.logNumber versions.prevLogNumber ∅ listed with
  | ok logs => exact ⟨logs, rfl⟩
  | error corruption =>
    obtain ⟨number, impossible, _⟩ := (recoverListing_fails_iff _ _ _ _).mp ⟨corruption, result⟩
    cases impossible

theorem holdsFirstRecord_of_manifest {directory : Directory} {number : Nat}
    {edit : VersionEdit UserKey β} {logged : List (VersionEdit UserKey β)}
    (current : directory currentFileName = some (descriptorFileName number ++ [10]))
    (manifest : directory (descriptorFileName number) = some (manifestBytes (edit :: logged))) :
    HoldsFirstRecord directory := by
  have position := Log.Reader.new_at (manifestBytes (edit :: logged)) true
  have isBytes : manifestBytes (edit :: logged) =
      Log.layout 0 (Log.fragments edit.encodeTo 0) ++ Log.layout _ _ := Log.layout_append 0 _ _
  nth_rewrite 2 [isBytes] at position
  obtain ⟨reader, reads, -⟩ := position.readRecord_carries (Log.fragments_carry edit.encodeTo 0)
    (Log.fragments_fit edit.encodeTo 0)
  exact ⟨_, _, _, reader, readCurrent_descriptorFileName current, manifest, reads⟩

variable [LinearOrder UserKey]

/-- `CURRENT` names the manifest of the first `LogAndApply`, which was synced. -/
structure Saved (β : Type) (options : VersionSetOptions) (disk : Disk Bytes UInt8) : Prop where
  current : disk currentFileName = some (currentFile 2)
  manifest : ∃ (logged : List (VersionEdit UserKey β)) (versions : VersionSet β),
    disk (descriptorFileName 2) = some ⟨manifestBytes logged, (manifestBytes logged).length⟩ ∧
      versions.manifestFileNumber = 2 ∧ versions.Recorded options logged disk.contents ∧
      ∀ level, versions.current.files level = []
  logs : LogsEmpty disk

theorem Saved.step {op : FileOp}
    (saved : Saved β options disk) (harmless : Harmless op)
    (other : descriptorFileName 2 ∉ op.names) : Saved β options (disk.step op) := by
  obtain ⟨logged, versions, manifest, isNumber, recorded, files⟩ := saved.manifest
  have current := (Disk.step_of_not_mem harmless.current).trans saved.current
  have manifest' := (Disk.step_of_not_mem other).trans manifest
  refine ⟨current, ⟨logged, versions, manifest', isNumber, { recorded with
    current := ?_, manifest := ?_ }, files⟩, harmless.logs disk saved.logs⟩
  · rw [Disk.contents, current, isNumber]
    rfl
  · rw [isNumber, Disk.contents, manifest']
    rfl

theorem Saved.run {ops : List FileOp} (saved : Saved β options disk)
    (harmless : ∀ op ∈ ops, Harmless op) (other : ∀ op ∈ ops, descriptorFileName 2 ∉ op.names)
    (count : Nat) : Saved β options (disk.run (ops.take count)) :=
  Disk.run_invariant saved
    (fun op member _ saved => saved.step (harmless op member) (other op member)) count

omit [LinearOrder UserKey] in
theorem not_mem_obsoleteFiles {versions : VersionSet β} {name : Bytes} {number : Nat}
    {type : FileType} (parsed : parseFileName name = some (number, type))
    (keeps : versions.keeps number type = true) (listed : List Bytes) :
    name ∉ versions.obsoleteFiles listed := by
  intro member
  have obsolete := (List.mem_filter.mp member).2
  simp only [parsed, keeps, Bool.not_true, Bool.false_eq_true] at obsolete

omit [LinearOrder UserKey] in
theorem deleteOps_harmless (versions : VersionSet β) (listed : List Bytes) {number : Nat}
    (parsed : parseFileName (descriptorFileName number) = some (number, .kDescriptorFile))
    (isNumber : versions.manifestFileNumber = number) :
    (∀ op ∈ ((versions.obsoleteFiles listed).map .delete : List FileOp), Harmless op) ∧
      ∀ op ∈ ((versions.obsoleteFiles listed).map .delete : List FileOp),
        descriptorFileName number ∉ op.names := by
  have parsedCurrent : parseFileName currentFileName = some (0, .kCurrentFile) := by decide
  have keepsManifest : versions.keeps number .kDescriptorFile = true :=
    decide_eq_true isNumber.le
  constructor
  · intro op member
    obtain ⟨name, obsolete, rfl⟩ := List.mem_map.mp member
    refine .delete fun isCurrent => ?_
    exact not_mem_obsoleteFiles parsedCurrent rfl listed (isCurrent ▸ obsolete)
  · intro op member isManifest
    obtain ⟨name, obsolete, rfl⟩ := List.mem_map.mp member
    rw [← List.mem_singleton.mp isManifest] at obsolete
    exact not_mem_obsoleteFiles parsed keepsManifest listed obsolete

omit [LinearOrder UserKey] in
theorem snapshotOps_names {versions : VersionSet β} {edit : VersionEdit UserKey β} {op : FileOp}
    (member : op ∈ versions.snapshotOps options edit) :
    op.names = [descriptorFileName versions.manifestFileNumber] := by
  simp only [VersionSet.snapshotOps, List.mem_cons, List.not_mem_nil, or_false] at member
  rcases member with rfl | rfl | rfl | rfl <;> rfl

omit [LinearOrder UserKey] in
/-- Up to the rename of its own `CURRENT` `Open` leaves the manifest of `NewDB` alone. -/
theorem savingOps_harmless (options : VersionSetOptions) {versions : VersionSet β}
    (isNumber : versions.manifestFileNumber = 2)
    (number : Nat) (edit : VersionEdit UserKey β) :
    (∀ op ∈ [.create (logFileName number)] ++ versions.snapshotOps options edit ++ tempFileOps 2,
        Harmless op) ∧
      ∀ op ∈ [.create (logFileName number)] ++ versions.snapshotOps options edit ++ tempFileOps 2,
        descriptorFileName 1 ∉ op.names := by
  have notTemp : descriptorFileName 1 ∉ [tempFileName 2] := fun member =>
    makeFileName_ne_descriptorFileName _ _ _ (List.mem_singleton.mp member).symm
  constructor
  · refine List.forall_mem_append.mpr ⟨List.forall_mem_append.mpr
      ⟨List.forall_mem_singleton.mpr (.create number), fun op member => ?_⟩, tempFileOps_harmless 2⟩
    exact .manifest (snapshotOps_names member)
  · refine List.forall_mem_append.mpr ⟨List.forall_mem_append.mpr
      ⟨List.forall_mem_singleton.mpr fun member => ?_, fun op member => ?_⟩, ?_⟩
    · exact makeFileName_ne_descriptorFileName _ _ _ (List.mem_singleton.mp member).symm
    · rw [snapshotOps_names member, isNumber]
      decide
    · rw [tempFileOps, List.forall_mem_cons, List.forall_mem_cons, List.forall_mem_singleton]
      exact ⟨notTemp, notTemp, notTemp⟩

/-- The first `LogAndApply` of `Open` installs a manifest that holds its edit. -/
theorem run_savingOps {versions : VersionSet β} (recovered : RecoveredNew versions)
    (comparator : options.comparator.length < 2 ^ 32) (closed : versions.descriptorLog = none)
    (isNumber : versions.manifestFileNumber = 2) (empty : LogsEmpty disk) :
    Saved β options (disk.run (versions.newFileNumber.2.logAndApplyOps options
      { logNumber := some versions.newFileNumber.1, prevLogNumber := some 0 })) := by
  obtain ⟨numbered, isNumbered⟩ : ∃ numbered, numbered = versions.newFileNumber.2 := ⟨_, rfl⟩
  have isNext : numbered.nextFileNumber = 4 := by
    rw [isNumbered]
    exact congrArg Nat.succ recovered.nextFileNumber
  have isLog : versions.newFileNumber.1 = 3 := recovered.nextFileNumber
  have isManifest : numbered.manifestFileNumber = 2 := isNumbered ▸ isNumber
  have isClosed : numbered.descriptorLog = none := isNumbered ▸ closed
  have noFiles : ∀ level, numbered.current.files level = [] := isNumbered ▸ recovered.files
  have fresh : numbered.Fresh options := by
    refine ⟨isClosed, comparator, ⟨fun level => ?_, fun level => ?_, fun level _ => noFiles level⟩,
      fun level file member => ?_, fun level key isKey => ?_, ?_, ?_⟩
    · rw [noFiles]
      exact List.Pairwise.nil
    · rw [noFiles]
      exact List.nodup_nil
    · rw [noFiles] at member
      cases member
    · rw [isNumbered, VersionSet.newFileNumber, recovered.pointers] at isKey
      cases isKey
    · rw [isNext, isNumbered, VersionSet.newFileNumber, recovered.logNumber]
      decide
    · rw [isNext, isNumbered, VersionSet.newFileNumber, recovered.prevLogNumber]
      decide
  rw [← isNumbered, isLog]
  set edit : VersionEdit UserKey β := { logNumber := some 3, prevLogNumber := some 0 } with isEdit
  have readable : (numbered.completeEdit edit).Readable options := by
    refine ⟨⟨nofun, ?_, ?_, ?_, ?_, nofun, nofun, nofun⟩, nofun⟩
    · rintro number ⟨⟩
      exact (by decide : 3 < 2 ^ 64)
    · rintro number ⟨⟩
      exact (by decide : 0 < 2 ^ 64)
    · rintro number isOther
      rw [← Option.some.inj isOther, isNext]
      decide
    · rintro sequence isOther
      rw [← Option.some.inj isOther, isNumbered, VersionSet.newFileNumber, recovered.lastSequence]
      decide
  obtain ⟨writer, _, _, logs⟩ :=
    VersionSet.logAndApply_first isClosed options disk.contents edit
  have once : ∀ level, ((numbered.current.files level ++ edit.newFilesAt level).map
      FileMetaData.number).Nodup := by
    intro level
    rw [noFiles]
    exact List.nodup_nil
  have recorded := fresh.logAndApply readable once logs
  have isContents := contents_run_logAndApplyOps disk options isClosed edit
  rw [logs] at isContents
  have stillNone : ∀ level, (numbered.current.applyEdit (numbered.completeEdit edit)).files level =
      [] := by
    refine fun level => List.eq_nil_iff_forall_not_mem.mpr fun file member => ?_
    have none' : (((numbered.completeEdit edit).newFilesAt level).map
        FileMetaData.number).Nodup := List.nodup_nil
    rcases (mem_applyEdit_files none').mp member with ⟨old, _⟩ | ⟨new, impossible, _⟩
    · rw [noFiles] at old
      cases old
    · cases impossible
  rw [← show _ = _ from isContents] at recorded
  rw [VersionSet.logAndApplyOps, Disk.run_append, run_snapshotOps disk options isClosed,
    run_setCurrentFileOps] at recorded ⊢
  refine ⟨?_, ⟨_, (numbered.pointTo edit.compactPointers).install (numbered.completeEdit edit)
    writer, ?_, isManifest, recorded, stillNone⟩, fun number file isFile => ?_⟩
  · rw [isManifest]
    exact Function.update_self _ _ _
  · have notTemp : descriptorFileName 2 ≠ tempFileName 2 :=
      (makeFileName_ne_descriptorFileName _ _ _).symm
    rw [isManifest, Function.update_of_ne (descriptorFileName_ne_currentFileName 2),
      Function.update_of_ne notTemp, Function.update_self]
  · have notCurrent : logFileName number ≠ currentFileName := makeFileName_ne_currentFileName _ _
    have notManifest : logFileName number ≠ descriptorFileName numbered.manifestFileNumber :=
      makeFileName_ne_descriptorFileName _ _ _
    rw [Function.update_of_ne notCurrent,
      Function.update_of_ne (tempFileName_ne_logFileName _ number).symm,
      Function.update_of_ne notManifest] at isFile
    exact empty number file isFile

/-- Behind `NewDB` a crash finds its manifest as it was, or the one of `LogAndApply`. -/
theorem run_take_openedOps {versions : VersionSet β} (recovered : RecoveredNew versions)
    (comparator : options.comparator.length < 2 ^ 32) (created : Created options disk)
    (listed : List Bytes) (count : Nat) :
    Created options (disk.run ((openedOps options listed versions disk).take count)) ∨
      Saved β options (disk.run ((openedOps options listed versions disk).take count)) := by
  have parsedFirst : parseFileName (descriptorFileName 1) = some (1, .kDescriptorFile) := by decide
  have parsedSecond : parseFileName (descriptorFileName 2) = some (2, .kDescriptorFile) := by decide
  rcases recovered.descriptor with ⟨closed, isNumber⟩ | ⟨⟨writer, isOpen⟩, isNumber⟩
  · have isClosed : versions.newFileNumber.2.descriptorLog = none := closed
    have isManifest : versions.newFileNumber.2.manifestFileNumber = 2 := isNumber
    have saves := run_savingOps recovered comparator closed isNumber
      ((Harmless.create versions.newFileNumber.1).logs disk created.logs)
    have harmless := savingOps_harmless options isManifest versions.newFileNumber.1
      { logNumber := some versions.newFileNumber.1, prevLogNumber := some 0 }
    set edit : VersionEdit UserKey β :=
      { logNumber := some versions.newFileNumber.1, prevLogNumber := some 0 } with isEdit
    set createLog : FileOp := .create (logFileName versions.newFileNumber.1) with isCreate
    obtain ⟨writer, _, _, logs⟩ := VersionSet.logAndApply_first isClosed options
      (disk.run [createLog]).contents edit
    set saved := (versions.newFileNumber.2.pointTo edit.compactPointers).install
      (versions.newFileNumber.2.completeEdit edit) writer with isSaved
    have isOps : openedOps options listed versions disk =
        (([createLog] ++ versions.newFileNumber.2.snapshotOps options edit) ++
          setCurrentFileOps 2) ++ (saved.obsoleteFiles listed).map .delete := by
      rw [openedOps]
      simp only [isClosed, ← isEdit, ← isCreate, logs, VersionSet.logAndApplyOps, isManifest,
        List.append_assoc]
    have whole : Saved β options (disk.run (([createLog] ++
        versions.newFileNumber.2.snapshotOps options edit) ++ setCurrentFileOps 2)) := by
      rw [VersionSet.logAndApplyOps, isManifest] at saves
      rw [List.append_assoc, Disk.run_append]
      exact saves
    rw [isOps]
    rcases Disk.run_take_append disk (([createLog] ++
      versions.newFileNumber.2.snapshotOps options edit) ++ setCurrentFileOps 2)
        ((saved.obsoleteFiles listed).map .delete) count with ⟨count', same⟩ | ⟨count', same⟩
    · rw [same]
      rcases run_take_setCurrentFileOps disk ([createLog] ++
        versions.newFileNumber.2.snapshotOps options edit) 2 count' with ⟨count'', same'⟩ | same'
      · rw [same']
        exact .inl (created.run harmless.1 harmless.2 count'')
      · rw [same']
        exact .inr whole
    · have deletes := deleteOps_harmless saved listed parsedSecond isManifest
      rw [same]
      exact .inr (whole.run deletes.1 deletes.2 count')
  · have isLog : versions.newFileNumber.2.descriptorLog = some writer := isOpen
    have isOps : openedOps options listed versions disk =
        [.create (logFileName versions.newFileNumber.1)] ++
          (versions.newFileNumber.2.obsoleteFiles listed).map .delete := by
      rw [openedOps]
      simp only [isLog]
    have deletes := deleteOps_harmless versions.newFileNumber.2 listed parsedFirst isNumber
    rw [isOps]
    refine .inl (created.run (List.forall_mem_append.mpr
      ⟨List.forall_mem_singleton.mpr (.create _), deletes.1⟩) (List.forall_mem_append.mpr
        ⟨List.forall_mem_singleton.mpr fun member => ?_, deletes.2⟩) count)
    exact makeFileName_ne_descriptorFileName _ _ _ (List.mem_singleton.mp member).symm

theorem firstOpen_of_recover {tables : Nat → List (Entry UserKey β)} (listed : List Bytes)
    {versions : VersionSet β}
    (recovers : (VersionSet.new : VersionSet β).recover options tables
      (disk.run (newDbOps options)).contents = .ok versions) :
    firstOpen options tables listed disk =
      newDbOps options ++ openedOps options listed versions (disk.run (newDbOps options)) := by
  unfold firstOpen
  rw [recovers]

/-- What a crash finds during the first `Open`. -/
theorem run_take_firstOpen (tables : Nat → List (Entry UserKey β))
    (comparator : options.comparator.length < 2 ^ 32) (noCurrent : disk currentFileName = none)
    (empty : LogsEmpty disk) (listed : List Bytes) (count : Nat) :
    disk.run ((firstOpen options tables listed disk).take count) currentFileName = none ∨
      Created options (disk.run ((firstOpen options tables listed disk).take count)) ∨
        Saved β options (disk.run ((firstOpen options tables listed disk).take count)) := by
  have created : Created options (disk.run (newDbOps options)) := run_newDbOps empty
  obtain ⟨versions, recovers, recovered⟩ := recover_newDbManifest comparator tables
    (show (disk.run (newDbOps options)).contents currentFileName = _ by
      rw [Disk.contents, created.current]
      rfl)
    (show (disk.run (newDbOps options)).contents (descriptorFileName 1) = _ by
      rw [Disk.contents, created.manifest]
      rfl)
  have isOps := firstOpen_of_recover listed recovers
  rw [isOps]
  rcases Disk.run_take_append disk (newDbOps options)
    (openedOps options listed versions (disk.run (newDbOps options))) count with
      ⟨count', same⟩ | ⟨count', same⟩
  · rw [same]
    refine (run_take_newDbOps noCurrent count').imp_right fun isWhole => .inl ?_
    rw [isWhole]
    exact created
  · rw [same]
    exact .inr (run_take_openedOps recovered comparator created listed count')

/-! ### Crashes -/

/-- `CURRENT` names the manifest of `NewDB`, and a crash loses bytes of that one. -/
def LosesManifest (options : VersionSetOptions) (disk : Disk Bytes UInt8) (after : Directory) :
    Prop :=
  (∃ file, disk currentFileName = some file ∧ file.contents = descriptorFileName 1 ++ [10]) ∧
    ∃ contents, after (descriptorFileName 1) = some contents ∧
      contents.length < (newDbManifest options).length

/-- While `CURRENT` names the manifest of `NewDB`, the next `Open` succeeds if the crash keeps all
of that manifest. -/
theorem Created.reopens_iff (created : Created options disk)
    (comparator : options.comparator.length < 2 ^ 32) (tables : Nat → List (Entry UserKey β))
    {after : Directory} (survives : disk.Survives after) :
    HoldsFirstRecord after ∧ Reopens options tables after ↔ ¬ LosesManifest options disk after := by
  have current : after currentFileName = some (descriptorFileName 1 ++ [10]) :=
    survives.of_synced created.current
  obtain ⟨kept, -, manifest⟩ := survives.kept _ _ created.manifest
  have loses : LosesManifest options disk after ↔ kept < (newDbManifest options).length := by
    rw [LosesManifest, and_iff_right ⟨_, created.current, rfl⟩, manifest]
    simp only [Option.some.injEq, exists_eq_left', List.length_take, min_lt_iff, lt_self_iff_false,
      or_false]
  rw [loses, not_lt]
  constructor
  · rintro ⟨-, ⟨versions, recovers, -⟩, -⟩
    by_contra cut
    rw [recover_newDbManifest_cut tables current manifest (not_le.mp cut)] at recovers
    cases recovers
  · intro whole
    rw [List.take_of_length_le whole] at manifest
    obtain ⟨versions, recovers, recovered⟩ :=
      recover_newDbManifest comparator tables current manifest
    rw [newDbManifest_eq] at manifest
    exact ⟨holdsFirstRecord_of_manifest (β := Unit) current manifest, ⟨versions, recovers,
      recoverListing_of_none recovered.files⟩, created.logs.survives survives⟩

/-- Once `CURRENT` names the manifest of `LogAndApply`, the next `Open` succeeds. -/
theorem Saved.reopens (saved : Saved β options disk) (tables : Nat → List (Entry UserKey β))
    {after : Directory} (survives : disk.Survives after) :
    HoldsFirstRecord after ∧ Reopens options tables after := by
  obtain ⟨logged, versions, isFile, isNumber, recorded, files⟩ := saved.manifest
  have current : after currentFileName = some (descriptorFileName 2 ++ [10]) :=
    survives.of_synced saved.current
  have manifest := survives.of_synced isFile
  have recordedAfter : versions.Recorded options logged after :=
    { recorded with
      current := isNumber ▸ current
      manifest := isNumber ▸ manifest }
  obtain ⟨recovered, front, edit, nextFile, lastSequence, recovers, isLogged, -, isFiles, -⟩ :=
    recordedAfter.recover rfl tables
  have noFiles : ∀ level, recovered.current.files level = [] := by
    intro level
    rw [isFiles, files]
    rfl
  obtain ⟨first, rest, isList⟩ : ∃ first rest, logged = first :: rest :=
    List.exists_cons_of_ne_nil (isLogged ▸ List.append_ne_nil_of_right_ne_nil _
      (List.cons_ne_nil _ _))
  rw [isList] at manifest
  exact ⟨holdsFirstRecord_of_manifest current manifest, ⟨recovered, recovers,
    recoverListing_of_none noFiles⟩, saved.logs.survives survives⟩

/-- After a crash during the first `Open` a `CURRENT` names a manifest with its first record whole,
and the next `Open` succeeds, exactly if the crash did not lose bytes of the manifest of `NewDB`
while `CURRENT` named it. -/
theorem crash_in_firstOpen_iff (options : VersionSetOptions)
    (comparator : options.comparator.length < 2 ^ 32) (tables : Nat → List (Entry UserKey β))
    {disk : Disk Bytes UInt8} (noCurrent : disk currentFileName = none)
    (noLogs : ∀ number, disk (logFileName number) = none) (listed : List Bytes) (count : Nat)
    {after : Directory}
    (survives : (disk.run ((firstOpen options tables listed disk).take count)).Survives after) :
    (after currentFileName ≠ none → HoldsFirstRecord after ∧ Reopens options tables after) ↔
      ¬ LosesManifest options (disk.run ((firstOpen options tables listed disk).take count))
        after := by
  have empty : LogsEmpty disk := fun number file isFile => by
    rw [noLogs] at isFile
    cases isFile
  rcases run_take_firstOpen tables comparator noCurrent empty listed count with
    none' | created | saved
  · refine iff_of_true (fun impossible => absurd (survives.absent _ none') impossible) ?_
    rintro ⟨⟨file, isFile, -⟩, -⟩
    rw [none'] at isFile
    cases isFile
  · have isThere : after currentFileName ≠ none := by
      rw [survives.of_synced created.current]
      exact Option.some_ne_none _
    rw [← created.reopens_iff comparator tables survives]
    exact ⟨fun reopens => reopens isThere, fun reopens _ => reopens⟩
  · refine iff_of_true (fun _ => saved.reopens tables survives) ?_
    rintro ⟨⟨file, isFile, isFirst⟩, -⟩
    rw [saved.current] at isFile
    rw [← Option.some.inj isFile] at isFirst
    exact absurd isFirst (by decide)

end States

theorem crash_in_firstOpen_small :
    ((Disk.run (fun _ => none) ((@firstOpen Nat bytewise ManifestRun.smallOptions (fun _ => []) []
          (fun _ => none)).take 6)).cut (fun _ => 0) currentFileName ≠ none →
        HoldsFirstRecord ((Disk.run (fun _ => none) ((@firstOpen Nat bytewise
          ManifestRun.smallOptions (fun _ => []) [] (fun _ => none)).take 6)).cut (fun _ => 0)) ∧
        @Reopens Nat bytewise ManifestRun.smallOptions (fun _ => []) ((Disk.run (fun _ => none)
          ((@firstOpen Nat bytewise ManifestRun.smallOptions (fun _ => []) []
            (fun _ => none)).take 6)).cut (fun _ => 0))) ↔
      ¬ LosesManifest ManifestRun.smallOptions (Disk.run (fun _ => none) ((@firstOpen Nat bytewise
        ManifestRun.smallOptions (fun _ => []) [] (fun _ => none)).take 6)) ((Disk.run
          (fun _ => none) ((@firstOpen Nat bytewise ManifestRun.smallOptions (fun _ => []) []
            (fun _ => none)).take 6)).cut (fun _ => 0)) :=
  @crash_in_firstOpen_iff Nat bytewise ManifestRun.smallOptions (by decide) (fun _ => [])
    (fun _ => none) rfl (fun _ => rfl) [] 6 _ (Disk.survives_cut _ _)

theorem run_take_length_newDbOps [LinearOrder UserKey] (options : VersionSetOptions)
    (tables : Nat → List (Entry UserKey β)) (listed : List Bytes) (disk : Disk Bytes UInt8) :
    disk.run ((firstOpen options tables listed disk).take (newDbOps options).length) =
      disk.run (newDbOps options) := by
  unfold firstOpen
  split
  · rw [List.take_length]
  · rw [List.take_left]

/-- A crash right behind `NewDB` that keeps nothing of its manifest. -/
theorem crash_loses_manifest :
    ¬ ∀ (options : VersionSetOptions) (tables : Nat → List (Entry UserKey Nat))
      (listed : List Bytes) (count : Nat) (after : Directory), options.comparator.length < 2 ^ 32 →
      (Disk.run (fun _ => none) ((@firstOpen Nat bytewise options tables listed
        (fun _ => none)).take count)).Survives after →
      after currentFileName ≠ none →
        HoldsFirstRecord after ∧ @Reopens Nat bytewise options tables after := by
  intro safe
  obtain ⟨options, comparator⟩ : ∃ options : VersionSetOptions,
      options.comparator.length < 2 ^ 32 := ⟨ManifestRun.smallOptions, by decide⟩
  have isRun := @run_take_length_newDbOps Nat bytewise options (fun _ => []) [] fun _ => none
  have created : Created options (Disk.run (fun _ => none) (newDbOps options)) :=
    run_newDbOps fun _ _ impossible => nomatch impossible
  have safeBehind := safe options (fun _ => []) [] (newDbOps options).length
  rw [isRun] at safeBehind
  generalize Disk.run (fun _ => none) (newDbOps options) = disk at created safeBehind
  have survives := disk.survives_cut fun _ => 0
  have reopens := safeBehind _ comparator survives (by
    rw [survives.of_synced created.current]
    exact Option.some_ne_none _)
  refine (@Created.reopens_iff Nat options disk bytewise created comparator _ _ survives).mp reopens
    ⟨⟨_, created.current, rfl⟩, [], ?_, ?_⟩
  · rw [Disk.cut, created.manifest]
    rfl
  · rw [newDbManifest_eq (β := Nat)]
    exact length_le_manifestBytes [newDbFirstEdit options]

end LevelDb
