/-
This file models the builder of a table file (`table/table_builder`): it cuts the entries into data
blocks, adds the entry of a block to the index when the first key behind the block is known, and
ends the file with the filter block, the metaindex block, the index block and the footer.

The options of the index block differ from those of the builder in the restart interval, which is 1.
Asserts on the order of the calls are preconditions of the calls; those inside of `BlockBuilder` are
compiled out. The contents of the finished blocks are recorded.
-/

import LevelDb.Sst.Table

namespace LevelDb.Sst

/-! ### The file -/

/-- A `WritableFile`: what was written, and the outcomes of the calls to come. A call fails with an
error and may still write some bytes; it succeeds when there is no outcome left. -/
structure WritableFile where
  contents : Bytes
  outcomes : List (Option (String × Nat))
  deriving DecidableEq, Repr

namespace WritableFile

/-- `Append`. -/
def append (file : WritableFile) (data : Bytes) : Option String × WritableFile :=
  match file.outcomes with
  | [] => (none, ⟨file.contents ++ data, []⟩)
  | none :: rest => (none, ⟨file.contents ++ data, rest⟩)
  | some (message, written) :: rest => (some message, ⟨file.contents ++ data.take written, rest⟩)

/-- `Flush`. -/
def flush (file : WritableFile) : Option String × WritableFile :=
  match file.outcomes with
  | [] => (none, file)
  | none :: rest => (none, ⟨file.contents, rest⟩)
  | some (message, _) :: rest => (some message, ⟨file.contents, rest⟩)

end WritableFile

/-! ### The builder -/

/-- `TableBuilder::Rep`. -/
structure TableBuilder where
  options : Options
  file : WritableFile
  offset : Nat
  status : Option String
  dataBlock : BlockBuilder
  indexBlock : BlockBuilder
  lastKey : Bytes
  numEntries : Nat
  filterBlock : Option FilterBlockBuilder
  pendingIndexEntry : Bool
  pendingHandle : BlockHandle
  finished : List Bytes

namespace TableBuilder

/-- The constructor. -/
def new (options : Options) (file : WritableFile) : TableBuilder where
  options := options
  file := file
  offset := 0
  status := none
  dataBlock := .new
  indexBlock := .new
  lastKey := []
  numEntries := 0
  filterBlock := options.filterPolicy.map fun policy => (FilterBlockBuilder.new policy).startBlock 0
  pendingIndexEntry := false
  pendingHandle := ⟨0, 0⟩
  finished := []

/-- `ChangeOptions`: the status and the builder. -/
def changeOptions (builder : TableBuilder) (options : Options) : Option String × TableBuilder :=
  if options.comparator ≠ builder.options.comparator then
    (some "changing comparator while building table", builder)
  else (none, { builder with options := options })

/-- `WriteRawBlock`: the handle and the builder. -/
def writeRawBlock (builder : TableBuilder) (contents : Bytes) (compressor : Option Compressor) :
    BlockHandle × TableBuilder :=
  let handle : BlockHandle := ⟨builder.offset, contents.length⟩
  let (status, file) := builder.file.append contents
  if status = none then
    let (status, file) := file.append (trailer contents compressor)
    if status = none then
      (handle, { builder with
        file := file
        status := none
        offset := (builder.offset + (contents.length + kBlockTrailerSize)) % 2 ^ 64 })
    else (handle, { builder with file := file, status := status })
  else (handle, { builder with file := file, status := status })

/-- `WriteBlock` of a block with some contents. -/
def writeBlock (builder : TableBuilder) (raw : Bytes) : BlockHandle × TableBuilder :=
  let chosen := chooseContents (builder.options.compressors 0) raw
  { builder with finished := builder.finished ++ [raw] }.writeRawBlock chosen.1 chosen.2

/-- `Flush`. -/
def flush (builder : TableBuilder) : TableBuilder :=
  if builder.status ≠ none then builder
  else if builder.dataBlock.buffer = [] then builder
  else
    let (handle, written) := builder.writeBlock builder.dataBlock.finish
    let written := { written with dataBlock := .new, pendingHandle := handle }
    let flushed :=
      if written.status = none then
        let (status, file) := written.file.flush
        { written with pendingIndexEntry := true, status := status, file := file }
      else written
    { flushed with
      filterBlock := flushed.filterBlock.map fun filter => filter.startBlock flushed.offset }

variable (comparators : Nat → Comparator)

/-- The index entry of the last block, when the key behind it is known. -/
def addIndexEntry (builder : TableBuilder) (shorten : Bytes → Bytes) : TableBuilder :=
  if builder.pendingIndexEntry then
    { builder with
      lastKey := shorten builder.lastKey
      indexBlock := builder.indexBlock.add 1 (shorten builder.lastKey)
        builder.pendingHandle.encodeTo
      pendingIndexEntry := false }
  else builder

/-- `Add`, up to the check of the size of the block. -/
def addEntry (builder : TableBuilder) (key value : Bytes) : TableBuilder :=
  let indexed := builder.addIndexEntry fun lastKey =>
    (comparators builder.options.comparator).findShortestSeparator lastKey key
  { indexed with
    filterBlock := indexed.filterBlock.map fun filter => filter.addKey key
    lastKey := key
    numEntries := indexed.numEntries + 1
    dataBlock := indexed.dataBlock.add indexed.options.blockRestartInterval key value }

/-- `Add`. -/
def add (builder : TableBuilder) (key value : Bytes) : TableBuilder :=
  if builder.status ≠ none then builder
  else
    let added := builder.addEntry comparators key value
    if added.dataBlock.currentSizeEstimate ≥ added.options.blockSize then added.flush else added

/-- The part of `Finish` that writes the filter block. -/
def finishFilter (builder : TableBuilder) : BlockHandle × TableBuilder :=
  match builder.status, builder.filterBlock with
  | none, some filter =>
    { builder with finished := builder.finished ++ [filter.finish] }.writeRawBlock filter.finish none
  | _, _ => (⟨0, 0⟩, builder)

/-- The contents of the metaindex block. It is a fault to name a filter policy that is null. -/
def metaindexContents (builder : TableBuilder) (filterHandle : BlockHandle) : Except Fault Bytes :=
  match builder.filterBlock, builder.options.filterPolicy with
  | none, _ => .ok BlockBuilder.new.finish
  | some _, none => .error .outside
  | some _, some policy =>
    .ok (BlockBuilder.new.add builder.options.blockRestartInterval
      (Table.filterPrefix ++ policy.name) filterHandle.encodeTo).finish

/-- The part of `Finish` that writes the metaindex block. -/
def finishMetaindex (builder : TableBuilder) (filterHandle : BlockHandle) :
    Except Fault (BlockHandle × TableBuilder) :=
  if builder.status = none then
    (builder.metaindexContents filterHandle).map fun raw => builder.writeBlock raw
  else .ok (⟨0, 0⟩, builder)

/-- The part of `Finish` that writes the index block. -/
def finishIndex (builder : TableBuilder) : BlockHandle × TableBuilder :=
  if builder.status = none then
    let indexed := builder.addIndexEntry
      (comparators builder.options.comparator).findShortSuccessor
    indexed.writeBlock indexed.indexBlock.finish
  else (⟨0, 0⟩, builder)

/-- The part of `Finish` that writes the footer. -/
def finishFooter (builder : TableBuilder) (footer : Footer) : TableBuilder :=
  if builder.status = none then
    let (status, file) := builder.file.append footer.encodeTo
    if status = none then
      { builder with
        file := file
        status := none
        offset := (builder.offset + footer.encodeTo.length) % 2 ^ 64 }
    else { builder with file := file, status := status }
  else builder

/-- `Finish`; its status is that of the builder. -/
def finish (builder : TableBuilder) : Except Fault TableBuilder := do
  let (filterHandle, filtered) := builder.flush.finishFilter
  let (metaindexHandle, described) ← filtered.finishMetaindex filterHandle
  let (indexHandle, indexed) := described.finishIndex comparators
  return indexed.finishFooter ⟨metaindexHandle, indexHandle⟩

/-! ### Calls -/

/-- A call before `Finish`. -/
inductive Call
  | add (key value : Bytes)
  | flush
  | changeOptions (options : Options)

/-- One call. The keys that are added increase, and options that are refused end the run. -/
def step (builder : TableBuilder) : Call → Option TableBuilder
  | .add key value =>
    if builder.status = none ∧ builder.numEntries > 0 ∧
        (comparators builder.options.comparator).compare key builder.lastKey ≠ .gt then none
    else some (builder.add comparators key value)
  | .flush => some builder.flush
  | .changeOptions options =>
    match builder.changeOptions options with
    | (none, changed) => some changed
    | (some _, _) => none

/-- The pairs that the calls add. -/
def added : List Call → List (Bytes × Bytes)
  | [] => []
  | .add key value :: rest => (key, value) :: added rest
  | _ :: rest => added rest

end TableBuilder

end LevelDb.Sst
