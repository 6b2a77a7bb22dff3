/-
This file models an open table (`table/table`): `Open`, which reads the footer, the index block and
the filter, the iterators over single blocks and over the whole table, and `InternalGet`. Here the
options have no block cache.

A comparator is named by its address, and what is found there is given by a function. An iterator
over a block that met a fault of the model stays in it.
-/

import LevelDb.Sst.FilterBlock
import LevelDb.Sst.TableFormat
import LevelDb.TwoLevelIterator

namespace LevelDb.Sst

open Lib

/-! ### Options -/

/-- A `Comparator`. -/
structure Comparator where
  compare : Bytes → Bytes → Ordering
  findShortestSeparator : Bytes → Bytes → Bytes
  findShortSuccessor : Bytes → Bytes

/-- The fields of `Options` that tables and their builders read. -/
structure Options where
  comparator : Nat
  paranoidChecks : Bool
  blockSize : Nat
  blockRestartInterval : Nat
  compressors : Compressors
  filterPolicy : Option FilterPolicy

/-- The fields of `ReadOptions` that tables read. -/
structure ReadOptions where
  verifyChecksums : Bool
  fillCache : Bool
  deriving DecidableEq, Repr

/-! ### Iterators over blocks -/

/-- An iterator that `Block::NewIterator` returned. -/
inductive BlockCursor
  | error (message : String)
  | empty
  | over (source : Source) (it : Iter)
  deriving DecidableEq, Repr

namespace BlockCursor

/-- The iterator before its first call. -/
def start : BlockIterator → BlockCursor
  | .error message => .error message
  | .empty => .empty
  | .over source => .over source (.new source)

/-- `key` and `value`, if the iterator is valid. -/
def entry : BlockCursor → Option (Bytes × Bytes)
  | .over source it => it.entry source
  | _ => none

/-- `status`. -/
def status : BlockCursor → Option String
  | .error message => some message
  | .empty => none
  | .over _ it => it.status

variable (compare : Bytes → Bytes → Ordering)

/-- One call. `Next` and `Prev` assert that the iterator is valid, which one without entries never
is. -/
def call (cursor : BlockCursor) (request : CursorCall Bytes) :
    Option (Except Fault BlockCursor) :=
  match cursor with
  | .over source it => (it.call source compare request).map fun result => result.map (.over source)
  | never =>
    match request with
    | .next => none
    | .prev => none
    | _ => some (.ok never)

/-- `Seek`. -/
def seek (cursor : BlockCursor) (target : Bytes) : Except Fault BlockCursor :=
  (cursor.call compare (.seek target)).getD (.ok cursor)

end BlockCursor

/-! ### Tables -/

/-- A `Table`. -/
structure Table where
  options : Options
  file : RandomAccessFile
  cacheId : Nat
  filter : Option FilterBlockReader
  metaindexHandle : BlockHandle
  indexBlock : Block

namespace Table

/-- The bytes of `"filter."`. -/
def filterPrefix : Bytes := [102, 105, 108, 116, 101, 114, 46]

/-- `ReadFilter`. -/
def readFilter (table : Table) (policy : FilterPolicy) (filterHandleValue : Bytes) :
    Except Fault Table :=
  match BlockHandle.decodeFrom filterHandleValue with
  | .error _ => .ok table
  | .ok (filterHandle, _) => do
    match ← readBlock table.file table.options.compressors table.options.paranoidChecks
        filterHandle with
    | .error _ => return table
    | .ok block => return { table with filter := some (FilterBlockReader.new policy block.data) }

/-- `ReadMeta`. The metaindex block is in bytewise order. -/
def readMeta (table : Table) : Except Fault Table :=
  match table.options.filterPolicy with
  | none => .ok table
  | some policy => do
    match ← readBlock table.file table.options.compressors table.options.paranoidChecks
        table.metaindexHandle with
    | .error _ => return table
    | .ok contents =>
      let key := filterPrefix ++ policy.name
      let iter ← (BlockCursor.start (Block.new contents.data).newIterator).seek Ord.compare key
      match iter.entry with
      | none => return table
      | some (found, value) => if found = key then table.readFilter policy value else return table

/-- `Open`, with the ID that the block cache gave out. -/
def openFile (options : Options) (file : RandomAccessFile) (size cacheId : Nat) :
    Except Fault (Except String Table) := do
  match ← readFooter file size with
  | .error message => return .error message
  | .ok footer =>
    match ← readBlock file options.compressors options.paranoidChecks footer.indexHandle with
    | .error message => return .error message
    | .ok contents =>
      let table : Table :=
        ⟨options, file, cacheId, none, footer.metaindexHandle, Block.new contents.data⟩
      return .ok (← table.readMeta)

/-- `BlockReader` without a block cache. -/
def blockReader (table : Table) (options : ReadOptions) (indexValue : Bytes) :
    Except Fault BlockIterator :=
  match BlockHandle.decodeFrom indexValue with
  | .error message => .ok (.error message)
  | .ok (handle, _) => do
    match ← readBlock table.file table.options.compressors options.verifyChecksums handle with
    | .error message => return .error message
    | .ok contents => return (Block.new contents.data).newIterator

variable (comparators : Nat → Comparator)

/-- `InternalGet`: the status, and the entry that the saver is called with. -/
def internalGet (table : Table) (options : ReadOptions) (key : Bytes) :
    Except Fault (Option String × Option (Bytes × Bytes)) := do
  let compare := (comparators table.options.comparator).compare
  let iiter ← (BlockCursor.start table.indexBlock.newIterator).seek compare key
  match iiter.entry with
  | none => return (iiter.status, none)
  | some (_, handleValue) =>
    let notFound := match table.filter, BlockHandle.decodeFrom handleValue with
      | some filter, .ok (handle, _) => !filter.keyMayMatch handle.offset key
      | _, _ => false
    if notFound then return (iiter.status, none)
    else
      let blockIter ← (BlockCursor.start (← table.blockReader options handleValue)).seek compare key
      return (blockIter.status.or iiter.status, blockIter.entry)

/-- What is wrong with an iterator. -/
inductive Failure
  | fault (fault : Fault)
  | error (message : String)
  deriving DecidableEq, Repr

/-- The calls of an iterator over a block that may have met a fault. -/
def cursorIterator (compare : Bytes → Bytes → Ordering) :
    Iterator (Except Fault BlockCursor) Bytes Bytes where
  call state request := state.bind fun cursor => (cursor.call compare request).getD (.ok cursor)
  current state := state.toOption.bind BlockCursor.entry

/-- Its status. -/
def cursorStatus : Except Fault BlockCursor → Option Failure
  | .error fault => some (.fault fault)
  | .ok cursor => cursor.status.map .error

/-- What the iterator over the whole table is made of. -/
def levels (table : Table) (options : ReadOptions) :
    Levels (Except Fault BlockCursor) (Except Fault BlockCursor) Bytes Bytes Failure where
  index := cursorIterator (comparators table.options.comparator).compare
  indexStatus := cursorStatus
  data := cursorIterator (comparators table.options.comparator).compare
  dataStatus := cursorStatus
  blockFunction handle :=
    match table.blockReader options handle with
    | .error fault => .error (.fault fault)
    | .ok (.error message) => .error (.error message)
    | .ok iterator => .ok (.ok (.start iterator))

/-- `NewIterator`. -/
def newIterator (table : Table) :
    TwoLevelIterator (Except Fault BlockCursor) (Except Fault BlockCursor) Failure :=
  .new (.ok (.start table.indexBlock.newIterator))

/-! ### What is opened -/

theorem readFilter_eq {table result : Table} {policy : FilterPolicy} {value : Bytes}
    (isRead : table.readFilter policy value = .ok result) :
    ∃ filter, result = { table with filter := filter } := by
  rw [readFilter] at isRead
  split at isRead
  · cases isRead
    exact ⟨_, rfl⟩
  · next filterHandle _ _ =>
    generalize readBlock table.file table.options.compressors table.options.paranoidChecks
      filterHandle = outcome at isRead
    rcases outcome with fault | message | block
    · cases isRead
    · cases isRead
      exact ⟨_, rfl⟩
    · cases isRead
      exact ⟨_, rfl⟩

/-- `ReadMeta` sets nothing but the filter. -/
theorem readMeta_eq {table result : Table} (isRead : table.readMeta = .ok result) :
    ∃ filter, result = { table with filter := filter } := by
  rw [readMeta] at isRead
  split at isRead
  · cases isRead
    exact ⟨_, rfl⟩
  · next policy _ =>
    generalize readBlock table.file table.options.compressors table.options.paranoidChecks
      table.metaindexHandle = outcome at isRead
    rcases outcome with fault | message | contents
    · cases isRead
    · cases isRead
      exact ⟨_, rfl⟩
    · simp only [bind, Except.bind] at isRead
      split at isRead
      · cases isRead
      · split at isRead
        · cases isRead
          exact ⟨_, rfl⟩
        · split at isRead
          · exact readFilter_eq isRead
          · cases isRead
            exact ⟨_, rfl⟩

/-- A table that was opened has its options, its file and its ID. -/
theorem openFile_eq {options : Options} {file : RandomAccessFile} {size cacheId : Nat}
    {table : Table} (opened : openFile options file size cacheId = .ok (.ok table)) :
    table.options = options ∧ table.file = file ∧ table.cacheId = cacheId := by
  rw [openFile] at opened
  generalize readFooter file size = footer at opened
  rcases footer with fault | message | footer
  · cases opened
  · cases opened
  · simp only [bind, Except.bind] at opened
    generalize readBlock file options.compressors options.paranoidChecks footer.indexHandle =
      outcome at opened
    rcases outcome with fault | message | contents
    · cases opened
    · cases opened
    · dsimp only at opened
      split at opened
      · cases opened
      · next result isResult =>
        cases opened
        obtain ⟨filter, rfl⟩ := readMeta_eq isResult
        exact ⟨rfl, rfl, rfl⟩

end Table

end LevelDb.Sst
