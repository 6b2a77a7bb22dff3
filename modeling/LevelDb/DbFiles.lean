/-
This file models the files of a database as the Env keeps them: logs, tables and manifests by their
numbers, and the manifest that `CURRENT` names. Every file remembers how much of it the last
successful `Sync` covered. Creating, deleting and renaming a file takes effect at once.

Contents are modelled above the byte level. A log is a list of batches and a manifest a list of
edits; what is read of a file that was cut somewhere in its bytes are the records before the cut.
-/

import LevelDb.SchedulerTables
import LevelDb.Lib.Shelf

namespace LevelDb

variable {α β : Type}

/-! ### Contents -/

/-- A log file, and how many of its records are synced. -/
structure LogFile (α β : Type) where
  records : List (WriteBatch α β)
  synced : Nat

def LogFile.new : LogFile α β := ⟨[], 0⟩

def LogFile.append (log : LogFile α β) (batch : WriteBatch α β) : LogFile α β :=
  { log with records := log.records ++ [batch] }

def LogFile.sync (log : LogFile α β) : LogFile α β := { log with synced := log.records.length }

/-- A table file, and whether it is synced. -/
structure TableFile (α β : Type) where
  entries : List (Entry α β)
  synced : Bool

/-- A record of a manifest. The entries that the compaction behind the edit dropped are not stored:
they are kept as a history. -/
structure ManifestRecord (α β : Type) where
  edit : VersionEdit α β
  dropped : List (Entry α β)

/-- A manifest, and how many of its records are synced. -/
structure ManifestFile (α β : Type) where
  records : List (ManifestRecord α β)
  synced : Nat

def ManifestFile.append (manifest : ManifestFile α β) (record : ManifestRecord α β) :
    ManifestFile α β :=
  { manifest with records := manifest.records ++ [record] }

def ManifestFile.sync (manifest : ManifestFile α β) : ManifestFile α β :=
  { manifest with synced := manifest.records.length }

def ManifestFile.edits (manifest : ManifestFile α β) : List (VersionEdit α β) :=
  manifest.records.map ManifestRecord.edit

/-- The files of the directory. -/
structure Files (α β : Type) where
  logs : Lib.Shelf (LogFile α β)
  tables : Lib.Shelf (TableFile α β)
  manifests : Lib.Shelf (ManifestFile α β)
  current : Nat

/-- The manifest that `CURRENT` names. -/
def Files.manifest (files : Files α β) : ManifestFile α β := files.manifests.file files.current

/-! ### Crashes -/

/-- The elements at the positions that are kept. -/
def keepAt {γ : Type} (keeps : Nat → Bool) (list : List γ) : List γ :=
  (list.zipIdx.filter fun pair => keeps pair.2).map Prod.fst

/-- What is still read of the files after a crash: the records of every log, of every manifest the
first ones, and of every table that is not synced the first entries. -/
structure Loss where
  records : Nat → Nat → Bool
  edits : Nat → Nat
  entries : Nat → Nat

def LogFile.cut (keeps : Nat → Bool) (log : LogFile α β) : LogFile α β :=
  { log with records := keepAt keeps log.records }

def TableFile.cut (kept : Nat) (table : TableFile α β) : TableFile α β :=
  if table.synced then table else { table with entries := table.entries.take kept }

def ManifestFile.cut (kept : Nat) (manifest : ManifestFile α β) : ManifestFile α β :=
  { manifest with records := manifest.records.take kept }

/-- The files after a crash. -/
def Files.crash (loss : Loss) (files : Files α β) : Files α β :=
  { files with
    logs := files.logs.map fun number => LogFile.cut (loss.records number)
    tables := files.tables.map fun number => TableFile.cut (loss.entries number)
    manifests := files.manifests.map fun number => ManifestFile.cut (loss.edits number) }

/-- The crash keeps of every file a part that goes at least up to its last `Sync`, and what it
keeps is read. A log that was cut in the middle of a record and was then appended to can be read in
another way. -/
def Loss.KeepsSynced (loss : Loss) (files : Files α β) : Prop :=
  (∀ number ∈ files.logs.numbers, ∃ kept, (files.logs.file number).synced ≤ kept ∧
    ∀ index, loss.records number index = decide (index < kept)) ∧
    ∀ number ∈ files.manifests.numbers, (files.manifests.file number).synced ≤ loss.edits number

/-! ### Reading a manifest -/

/-- What `VersionSet::Recover` makes of a manifest. -/
structure Descriptor (α β : Type) where
  logNumber : Nat
  prevLogNumber : Nat
  nextFile : Nat
  lastSequence : Nat
  version : Version α β
  compactPointer : Nat → Option (InternalKey α)

/-- The last value that the edits set. -/
def lastSet (field : VersionEdit α β → Option Nat) (edits : List (VersionEdit α β)) : Option Nat :=
  edits.foldl (fun found edit => (field edit).or found) none

/-- The compaction pointers after a list of edits. -/
def pointersOf (edits : List (VersionEdit α β)) : Nat → Option (InternalKey α) :=
  edits.foldl (fun pointers edit => edit.compactPointers.foldl
    (fun pointers update => Function.update pointers update.1 (some update.2)) pointers) fun _ => none

variable [LinearOrder α]

/-- The version that one builder makes of all edits. -/
def versionOf (edits : List (VersionEdit α β)) : Version α β :=
  finalize (edits.foldl Builder.apply (Builder.new Version.empty)).saveTo

def Descriptor.read (edits : List (VersionEdit α β)) : Option (Descriptor α β) :=
  match lastSet VersionEdit.nextFileNumber edits, lastSet VersionEdit.logNumber edits,
      lastSet VersionEdit.lastSequence edits with
  | some nextFile, some logNumber, some lastSequence =>
    some
      { logNumber
        prevLogNumber := (lastSet VersionEdit.prevLogNumber edits).getD 0
        nextFile
        lastSequence
        version := versionOf edits
        compactPointer := pointersOf edits }
  | _, _, _ => none

end LevelDb
