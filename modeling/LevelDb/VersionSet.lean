/-
This file models how `VersionSet` keeps the manifest (`db/version_set`): `LogAndApply` with every
failure of the calls it makes, `WriteSnapshot`, and `Recover`, which reads the manifest that
`CURRENT` names and builds a version from its edits. The database directory is a map from names to
contents; the manifest is a log whose records are encoded edits.
-/

import LevelDb.EditReplay
import LevelDb.FileName
import LevelDb.LogRoundTrip
import LevelDb.VersionEditCodec

namespace LevelDb

variable {β : Type}

/-- The options of the version set, with whether the Env can append to an existing file.
`comparator` is the name of the user comparator. -/
structure VersionSetOptions where
  comparator : Bytes
  reuseLogs : Bool := false
  maxFileSize : Nat
  appendable : Bool := false

/-- `VersionSet`. The log writer holds the descriptor file; an empty compaction pointer is
`none`. -/
structure VersionSet (β : Type) where
  nextFileNumber : Nat
  manifestFileNumber : Nat
  lastSequence : Nat
  logNumber : Nat
  prevLogNumber : Nat
  descriptorLog : Option Log.Writer
  current : Version UserKey β
  compactPointer : Nat → Option (InternalKey UserKey)

namespace VersionSet

/-- The constructor. -/
def new : VersionSet β :=
  { nextFileNumber := 2
    manifestFileNumber := 0
    lastSequence := 0
    logNumber := 0
    prevLogNumber := 0
    descriptorLog := none
    current := Version.empty
    compactPointer := fun _ => none }

/-! ### File numbers -/

/-- `NewFileNumber`. -/
def newFileNumber (versions : VersionSet β) : Nat × VersionSet β :=
  (versions.nextFileNumber, { versions with nextFileNumber := versions.nextFileNumber + 1 })

/-- `ReuseFileNumber`. -/
def reuseFileNumber (versions : VersionSet β) (number : Nat) : VersionSet β :=
  if versions.nextFileNumber = number + 1 then { versions with nextFileNumber := number }
  else versions

/-- `MarkFileNumberUsed`. -/
def markFileNumberUsed (versions : VersionSet β) (number : Nat) : VersionSet β :=
  if versions.nextFileNumber ≤ number then { versions with nextFileNumber := number + 1 }
  else versions

/-! ### Writing the manifest -/

end VersionSet

/-- The compaction pointers after `Builder::Apply`. -/
def setPointers (pointers : Nat → Option (InternalKey UserKey))
    (updates : List (Nat × InternalKey UserKey)) : Nat → Option (InternalKey UserKey) :=
  updates.foldl (fun pointers update => Function.update pointers update.1 (some update.2)) pointers

/-- What the Env does to the calls that `LogAndApply` makes: whether a new manifest is created, the
outcomes of the appends to the manifest, whether it is synced, and whether the temporary file for
`CURRENT` is written and renamed. -/
structure ManifestFaults where
  created : Bool := true
  appends : List (Option Nat) := []
  synced : Bool := true
  tempWritten : Bool := true
  renamed : Bool := true

namespace VersionSet

/-- The edit of `WriteSnapshot`. -/
def snapshot (options : VersionSetOptions) (versions : VersionSet β) : VersionEdit UserKey β :=
  { comparator := some options.comparator
    compactPointers := (List.range Config.kNumLevels).flatMap fun level =>
      (versions.compactPointer level).toList.map fun key => (level, key)
    newFiles := (List.range Config.kNumLevels).flatMap fun level =>
      (versions.current.files level).map fun file => (level, file) }

/-- The fields that `LogAndApply` fills in. -/
def completeEdit (versions : VersionSet β) (edit : VersionEdit UserKey β) : VersionEdit UserKey β :=
  { edit with
    logNumber := some (edit.logNumber.getD versions.logNumber)
    prevLogNumber := some (edit.prevLogNumber.getD versions.prevLogNumber)
    nextFileNumber := some versions.nextFileNumber
    lastSequence := some versions.lastSequence }

/-- `Builder::Apply` sets the compaction pointers of the version set at once. -/
def pointTo (versions : VersionSet β) (updates : List (Nat × InternalKey UserKey)) : VersionSet β :=
  { versions with compactPointer := setPointers versions.compactPointer updates }

/-- The descriptor log of this call with the appends it will see; a new one starts with a
snapshot. Whether it can be written to, and its writer. -/
def openDescriptor (options : VersionSetOptions) (faults : ManifestFaults)
    (versions : VersionSet β) : Bool × Log.Writer :=
  match versions.descriptorLog with
  | some writer => (true, { writer with dest := { writer.dest with outcomes := faults.appends } })
  | none =>
    let writer := Log.Writer.new ⟨[], faults.appends⟩
    if faults.created then writer.addRecord (versions.snapshot options).record.encodeTo
    else (false, writer)

/-- The record of an edit is added to the descriptor log: whether that succeeded, and the writer. -/
def addToDescriptor (options : VersionSetOptions) (faults : ManifestFaults)
    (versions : VersionSet β) (edit : VersionEdit UserKey β) : Bool × Log.Writer :=
  let opened := versions.openDescriptor options faults
  if opened.1 then opened.2.addRecord edit.record.encodeTo else opened

/-- A new manifest that was written is installed in `CURRENT`. -/
def installManifest (faults : ManifestFaults) (versions : VersionSet β) (written : Bool)
    (directory : Directory) : Bool × Directory :=
  if written then
    setCurrentFile directory versions.manifestFileNumber faults.tempWritten faults.renamed
  else (false, directory)

variable [LinearOrder UserKey]

/-- The end of a successful `LogAndApply`. -/
def install (versions : VersionSet β) (edit : VersionEdit UserKey β) (writer : Log.Writer) :
    VersionSet β :=
  { versions with
    current := versions.current.applyEdit edit
    logNumber := edit.logNumber.getD versions.logNumber
    prevLogNumber := edit.prevLogNumber.getD versions.prevLogNumber
    descriptorLog := some writer }

/-- `LogAndApply`: whether it succeeded, the version set and the directory after it. -/
def logAndApply (options : VersionSetOptions) (faults : ManifestFaults) (versions : VersionSet β)
    (directory : Directory) (edit : VersionEdit UserKey β) : Bool × VersionSet β × Directory :=
  let edit := versions.completeEdit edit
  let pointed := versions.pointTo edit.compactPointers
  let added := pointed.addToDescriptor options faults edit
  let manifest := descriptorFileName versions.manifestFileNumber
  let written := Function.update directory manifest (some added.2.dest.contents)
  match versions.descriptorLog with
  | some _ =>
    if added.1 && faults.synced then (true, pointed.install edit added.2, written)
    else (false, { pointed with descriptorLog := some added.2 }, written)
  | none =>
    let current := versions.installManifest faults (added.1 && faults.synced) written
    if current.1 then (true, pointed.install edit added.2, current.2)
    else (false, pointed, Function.update current.2 manifest none)

end VersionSet

/-! ### Recovery -/

inductive RecoverError
  | currentUnreadable
  | currentWithoutNewline
  | manifestMissing
  | manifestCorrupt (reason : Log.DropReason)
  | editCorrupt (message : String)
  | otherComparator (name : Bytes)
  | noNextFile
  | noLogNumber
  | noLastSequence
  deriving DecidableEq, Repr

/-- The name of the manifest that `CURRENT` holds, without the end of the line. -/
def readCurrent (directory : Directory) : Except RecoverError Bytes :=
  match directory currentFileName with
  | none => .error .currentUnreadable
  | some current =>
    if current.getLast? = some 10 ∨ current.getLast? = some 13 then
      let resizeSize := if 2 ≤ current.length ∧ current[current.length - 2]? = some 13 then 2 else 1
      .ok (current.take (current.length - resizeSize))
    else .error .currentWithoutNewline

/-- The local variables of `Recover`; a number it has not met is `none`. -/
structure RecoverState (β : Type) where
  logNumber : Option Nat := none
  prevLogNumber : Option Nat := none
  nextFile : Option Nat := none
  lastSequence : Option Nat := none
  builder : Builder UserKey β
  compactPointer : Nat → Option (InternalKey UserKey)

section Recover

variable [LinearOrder UserKey]

/-- What one record of the manifest does. `tables` are the contents of the table files. -/
def RecoverState.apply (options : VersionSetOptions) (tables : Nat → List (Entry UserKey β))
    (state : RecoverState β) (record : Bytes) : Except RecoverError (RecoverState β) :=
  match ({} : EditRecord).decodeFrom record with
  | (some message, _) => .error (.editCorrupt message)
  | (none, stored) =>
    let edit := stored.toEdit tables
    match edit.comparator.filter (· ≠ options.comparator) with
    | some name => .error (.otherComparator name)
    | none => .ok
      { logNumber := edit.logNumber.or state.logNumber
        prevLogNumber := edit.prevLogNumber.or state.prevLogNumber
        nextFile := edit.nextFileNumber.or state.nextFile
        lastSequence := edit.lastSequence.or state.lastSequence
        builder := state.builder.apply edit
        compactPointer := setPointers state.compactPointer edit.compactPointers }

/-- The loop of `Recover` over the records of the manifest. The reporter keeps what the reader
drops, and the loop ends as soon as something was dropped. -/
def recoverLoop (options : VersionSetOptions) (tables : Nat → List (Entry UserKey β)) :
    Nat → Log.Reader → RecoverState β → Except RecoverError (RecoverState β)
  | 0, _, state => .ok state
  | calls + 1, reader, state =>
    match reader.readRecord with
    | (record, reader) =>
      match reader.reports with
      | (_, reason) :: _ => .error (.manifestCorrupt reason)
      | [] =>
        match record with
        | none => .ok state
        | some record => do
          let state ← state.apply options tables record
          recoverLoop options tables calls reader state

/-- `ReuseManifest`: the writer that goes on with the manifest, and its number. -/
def reuseManifest (options : VersionSetOptions) (name contents : Bytes) :
    Option (Log.Writer × Nat) :=
  if options.reuseLogs then
    match parseFileName name with
    | some (number, .kDescriptorFile) =>
      if options.maxFileSize ≤ contents.length ∨ !options.appendable then none
      else some (Log.Writer.resume ⟨contents, []⟩ contents.length, number)
    | _ => none
  else none

/-- The end of `Recover`. The numbers it marks as used are overwritten by the next file number of
the manifest. -/
def RecoverState.finish (options : VersionSetOptions) (versions : VersionSet β) (name contents : Bytes)
    (state : RecoverState β) : Except RecoverError (VersionSet β) :=
  match state.nextFile, state.logNumber, state.lastSequence with
  | none, _, _ => .error .noNextFile
  | some _, none, _ => .error .noLogNumber
  | some _, some _, none => .error .noLastSequence
  | some nextFile, some logNumber, some lastSequence =>
    let reused := reuseManifest options name contents
    .ok
      { versions with
        current := finalize state.builder.saveTo
        compactPointer := state.compactPointer
        manifestFileNumber := (reused.map Prod.snd).getD nextFile
        nextFileNumber := (nextFile + 1) % 2 ^ 64
        lastSequence := lastSequence
        logNumber := logNumber
        prevLogNumber := state.prevLogNumber.getD 0
        descriptorLog := reused.map Prod.fst }

/-- `Recover`. Reading a file does not fail. -/
def VersionSet.recover (options : VersionSetOptions) (tables : Nat → List (Entry UserKey β))
    (versions : VersionSet β) (directory : Directory) : Except RecoverError (VersionSet β) := do
  let name ← readCurrent directory
  match directory name with
  | none => .error .manifestMissing
  | some contents =>
    let state ← recoverLoop options tables (contents.length + 1)
      (Log.Reader.new { remaining := contents } true 0)
      { builder := Builder.new versions.current, compactPointer := versions.compactPointer }
    state.finish options versions name contents

end Recover

end LevelDb
