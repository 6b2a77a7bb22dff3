/-
This file models the steps of `DBImpl` that change the memtables, the snapshots or the current
version: writes, snapshots, the memtable switch, `CompactMemTable` with `WriteLevel0Table`,
the charging of seeks, and `BackgroundCompaction` with its trivial moves, automatic and manual
compactions. Every step runs to its end before the next one starts.

The log and manifest files, which these steps also write, play no part here.
-/

import LevelDb.CompactionWork
import LevelDb.MemTable
import LevelDb.Lib.Run

namespace LevelDb

variable {α β : Type} [LinearOrder α]

/-! ### Flushing a memtable -/

/-- `BuildTable`: the table of a sorted list of entries. There is no table when the list is
empty. -/
def buildTable (options : Options α β) (number : Nat) :
    List (Entry α β) → Option (FileMetaData α β)
  | [] => none
  | first :: rest =>
    some
      { number
        fileSize := options.finishedFileSize (first :: rest)
        allowedSeeks := 2 ^ 30
        smallest := first.key
        largest := ((first :: rest).getLast (List.cons_ne_nil _ _)).key
        entries := first :: rest }

/-- The level a new table is placed at. Recovery passes no base version and always places its
tables at level 0. -/
def outputLevel (options : Options α β) (base : Option (Version α β)) (file : FileMetaData α β) :
    Nat :=
  match base with
  | none => 0
  | some version =>
    version.pickLevelForMemTableOutput options file.smallest.userKey file.largest.userKey

/-- `WriteLevel0Table` with the file number it took: the table of the memtable joins the
edit. -/
def writeLevel0Table (options : Options α β) (base : Option (Version α β)) (number : Nat)
    (mem : List (Entry α β)) (edit : VersionEdit α β) : VersionEdit α β :=
  match buildTable options number mem with
  | none => edit
  | some file => edit.addFile (outputLevel options base file) file

/-! ### The state and its steps -/

/-- The state the steps read and change. -/
structure Db (α β : Type) where
  mem : List (Entry α β)
  imm : Option (List (Entry α β))
  lastSequence : Nat
  snapshots : List Nat
  version : Version α β
  compactPointer : Nat → Option (InternalKey α)
  nextFileNumber : Nat

/-- A new database once it is open: the first numbers went to the manifest and the log. -/
def Db.empty : Db α β :=
  { mem := []
    imm := none
    lastSequence := 0
    snapshots := []
    version := Version.empty
    compactPointer := fun _ => none
    nextFileNumber := 4 }

/-- `LogAndApply`. -/
def Db.logAndApply (db : Db α β) (edit : VersionEdit α β) : Db α β :=
  { db with
    version := db.version.applyEdit edit
    compactPointer := edit.compactPointers.foldl
      (fun pointers update => Function.update pointers update.1 (some update.2))
      db.compactPointer }

/-- `Write` of one batch. Its sequence numbers have to fit their 56 bits, as
`PackSequenceAndType` asserts. -/
def Db.write [Inhabited β] (db : Db α β) (ops : List (WriteOp α β)) : Option (Db α β) :=
  if db.lastSequence + ops.length ≤ kMaxSequenceNumber then
    some { db with
      mem := insertInto db.mem (batchEntries (db.lastSequence + 1) ops)
      lastSequence := db.lastSequence + ops.length }
  else none

/-- `GetSnapshot`. -/
def Db.getSnapshot (db : Db α β) : Db α β :=
  { db with snapshots := db.snapshots ++ [db.lastSequence] }

/-- `ReleaseSnapshot` of the snapshot at an index of the list. -/
def Db.releaseSnapshot (db : Db α β) (index : Nat) : Db α β :=
  { db with snapshots := db.snapshots.eraseIdx index }

/-- The memtable switch of `MakeRoomForWrite`: the new log takes a file number. -/
def Db.switchMemTable (db : Db α β) : Option (Db α β) :=
  if db.imm.isNone then
    some { db with mem := [], imm := some db.mem, nextFileNumber := db.nextFileNumber + 1 }
  else none

/-- `CompactMemTable`. -/
def Db.compactMemTable (options : Options α β) (db : Db α β) : Option (Db α β) :=
  db.imm.map fun imm =>
    { db.logAndApply (writeLevel0Table options (some db.version) db.nextFileNumber imm {}) with
      imm := none
      nextFileNumber := db.nextFileNumber + 1 }

/-- `UpdateStats` when a file ran out of allowed seeks. A charged file was followed by another
one in the same read, so it is not at the last level. -/
def Db.chargeSeek (db : Db α β) (level index : Nat) : Option (Db α β) :=
  if level + 1 < Config.kNumLevels ∧ db.version.fileToCompact.isNone then
    (db.version.files level)[index]?.map fun file =>
      { db with version := { db.version with fileToCompact := some (file, level) } }
  else none

/-- The edit of a trivial move: the one input file goes to the next level. -/
def Compaction.moveEdit (compaction : Compaction α β) : VersionEdit α β :=
  match compaction.inputs0.head? with
  | none => compaction.edit
  | some file =>
    (compaction.edit.deleteFile compaction.level file.number).addFile (compaction.level + 1) file

/-- `DoCompactionWork` with the installation of its results. -/
def Db.doCompaction (options : Options α β) (db : Db α β) (compaction : Compaction α β) :
    Db α β :=
  let result := doCompactionWork options compaction (oldestSnapshot db.snapshots db.lastSequence)
    db.nextFileNumber
  { db.logAndApply (installEdit compaction result.1) with nextFileNumber := result.2 }

@[simp] theorem Db.logAndApply_mem (db : Db α β) (edit : VersionEdit α β) :
    (db.logAndApply edit).mem = db.mem := by cases db; rfl

@[simp] theorem Db.logAndApply_imm (db : Db α β) (edit : VersionEdit α β) :
    (db.logAndApply edit).imm = db.imm := by cases db; rfl

@[simp] theorem Db.doCompaction_mem (options : Options α β) (db : Db α β)
    (compaction : Compaction α β) : (db.doCompaction options compaction).mem = db.mem := by
  cases db; rfl

@[simp] theorem Db.doCompaction_imm (options : Options α β) (db : Db α β)
    (compaction : Compaction α β) : (db.doCompaction options compaction).imm = db.imm := by
  cases db; rfl

@[simp] theorem Db.logAndApply_lastSequence (db : Db α β) (edit : VersionEdit α β) :
    (db.logAndApply edit).lastSequence = db.lastSequence := by cases db; rfl

@[simp] theorem Db.doCompaction_lastSequence (options : Options α β) (db : Db α β)
    (compaction : Compaction α β) :
    (db.doCompaction options compaction).lastSequence = db.lastSequence := by cases db; rfl

/-- The steps of a run. -/
inductive Action (α β : Type)
  | write (ops : List (WriteOp α β))
  | getSnapshot
  | releaseSnapshot (index : Nat)
  | switchMemTable
  | compactMemTable
  | chargeSeek (level index : Nat)
  | backgroundCompaction
  | manualCompaction (level : Nat) (first last : Option (InternalKey α))

/-- The compaction a step chooses. A manual compaction is never asked of the last level. -/
def Db.chosen (options : Options α β) (db : Db α β) : Action α β → Option (Compaction α β)
  | .backgroundCompaction => pickCompaction options db.version db.compactPointer
  | .manualCompaction level first last =>
    if level + 1 < Config.kNumLevels then compactRange options db.version level first last
    else none
  | _ => none

/-- One step; `none` when it cannot be taken. Only automatic compactions are trivial moves. -/
def Db.step [Inhabited β] (options : Options α β) (db : Db α β) : Action α β → Option (Db α β)
  | .write ops => db.write ops
  | .getSnapshot => some db.getSnapshot
  | .releaseSnapshot index => some (db.releaseSnapshot index)
  | .switchMemTable => db.switchMemTable
  | .compactMemTable => db.compactMemTable options
  | .chargeSeek level index => db.chargeSeek level index
  | .backgroundCompaction =>
    (db.chosen options .backgroundCompaction).map fun compaction =>
      if compaction.isTrivialMove options then db.logAndApply compaction.moveEdit
      else db.doCompaction options compaction
  | .manualCompaction level first last =>
    (db.chosen options (.manualCompaction level first last)).map fun compaction =>
      db.doCompaction options compaction

end LevelDb
