/-
This file proves what the file of a finished table gives back when it is opened: the iterator over
the table is a cursor over the pairs that were added, and `InternalGet` finds the first pair that is
not less than a key in the block that the index points to, unless the filter turns the key away.
-/

import LevelDb.Sst.BlockCursors

namespace LevelDb.Sst

open Lib

/-! ### Blocks -/

namespace DataBlock

variable {compressors : Compressors} {contents : Bytes} {block : DataBlock}

/-- A block in the file is read and opened. -/
theorem InFile.opens (inFile : block.InFile (Compressor.Registered compressors) contents)
    (smallFile : contents.length < 2 ^ 64) (small : block.raw.length < 2 ^ 32)
    {file : RandomAccessFile} (returns : file.Returns contents) :
    ∃ source, (Block.new block.raw).newIterator = .over source ∧ Laid source block.pieces ∧
      ∀ verifyChecksums, ∃ read,
        readBlock file compressors verifyChecksums block.handle = .ok (.ok read) ∧
          read.data = block.raw := by
  obtain ⟨builder, holds, isRaw⟩ := inFile.finished
  obtain ⟨source, opened, laid⟩ := holds.finish_laid (isRaw ▸ small)
  exact ⟨source, isRaw ▸ opened, laid, fun verifyChecksums =>
    inFile.stored.readBlock smallFile returns verifyChecksums⟩

theorem InFile.decodeFrom (inFile : block.InFile (Compressor.Registered compressors) contents)
    (smallFile : contents.length < 2 ^ 64) :
    BlockHandle.decodeFrom block.handle.encodeTo = .ok (block.handle, []) := by
  have decoded := inFile.stored.decodeFrom smallFile []
  rwa [List.append_nil] at decoded

end DataBlock

/-! ### Iterating -/

/-- An iterator over a table is a cursor over some pairs whose status stays OK. -/
structure Table.Iterates (comparators : Nat → Comparator) (table : Table)
    (readOptions : ReadOptions) (rounds : Nat) (entries : List (Bytes × Bytes)) : Prop where
  shows : ∀ calls,
    trace (TwoLevelIterator.step (table.levels comparators readOptions) rounds)
        (TwoLevelIterator.entry (table.levels comparators readOptions)) table.newIterator calls =
      trace (listCall (comparators table.options.comparator).compare entries) (entryAt entries)
        none calls
  status : ∀ it, Reachable (TwoLevelIterator.step (table.levels comparators readOptions) rounds)
    (fun _ _ => True) table.newIterator it →
      it.getStatus (table.levels comparators readOptions) = none

/-! ### Opening -/

/-- The blocks that are read through cursors. -/
def TableFile.cursorBlocks (parts : TableFile) : List DataBlock :=
  parts.index :: parts.metaindex :: parts.blocks.map Prod.snd

theorem TableFile.forall_cursorBlocks {parts : TableFile} {holds : DataBlock → Prop} :
    (∀ block ∈ parts.cursorBlocks, holds block) ↔
      holds parts.index ∧ holds parts.metaindex ∧ ∀ entry ∈ parts.blocks, holds entry.2 := by
  rw [cursorBlocks, List.forall_mem_cons, List.forall_mem_cons, List.forall_mem_map]

/-- The filters of the filter block have their places as 32 bit numbers. -/
def TableFile.SmallFilter (parts : TableFile) : Prop :=
  ∀ part ∈ parts.filter, part.builder.finishKeys.result.length < 2 ^ 32

/-- A finished table in a file that returns what was written. The blocks that are read through
cursors are smaller than 4 GB, and the compressors that were used are registered in the options for
reading. -/
structure TableFile.ReadIn (parts : TableFile) (comparator : Comparator) (compressors : Compressors)
    (policy : Option FilterPolicy) (entries : List (Bytes × Bytes)) (final : TableBuilder)
    (file : RandomAccessFile) : Prop where
  sound : comparator.Sound
  holds : parts.Holds comparator.compare (Compressor.Registered compressors) policy entries final
  smallFile : final.file.contents.length < 2 ^ 64
  smallBlocks : ∀ block ∈ parts.cursorBlocks, block.raw.length < 2 ^ 32
  returns : file.Returns final.file.contents

namespace TableFile

variable {parts : TableFile} {comparator : Comparator} {policy : Option FilterPolicy}
  {entries : List (Bytes × Bytes)} {final : TableBuilder} {file : RandomAccessFile}
  {options : Options}

/-- The block that the index points to for a key. -/
def blockOf (parts : TableFile) (compare : Bytes → Bytes → Ordering) (key : Bytes) :
    Option DataBlock :=
  (parts.blocks.find? fun entry => compare entry.1 key ≠ .lt).map Prod.snd

/-- The entries of the block behind a handle. -/
def bindingsAt (parts : TableFile) (handle : Bytes) : List (Bytes × Bytes) :=
  ((parts.blocks.find? fun entry => entry.2.handle.encodeTo = handle).map fun entry =>
    entry.2.bindings).getD []

/-- The filter of a table that is opened: that of the policy in the options, if the metaindex block
has its name. -/
def openedFilter (parts : TableFile) (written reading : Option FilterPolicy) :
    Option FilterBlockReader :=
  match parts.filter, written, reading with
  | some part, some written, some reading =>
    if written.name = reading.name then some (.new reading part.builder.finish) else none
  | _, _, _ => none

theorem openedFilter_none (parts : TableFile) (written : Option FilterPolicy) :
    parts.openedFilter written none = none := by
  unfold openedFilter
  cases parts.filter with
  | none => rfl
  | some part => cases written <;> rfl

/-- The table that is opened. -/
def opened (parts : TableFile) (written : Option FilterPolicy) (options : Options)
    (file : RandomAccessFile) (cacheId : Nat) : Table :=
  ⟨options, file, cacheId, parts.openedFilter written options.filterPolicy,
    parts.metaindex.handle, Block.new parts.index.raw⟩

/-- What the iterators are over. -/
def contents (parts : TableFile) (compare : Bytes → Bytes → Ordering) :
    TwoLevelIterator.Contents (Except Fault BlockCursor) (Except Fault BlockCursor) Bytes Bytes
    where
  isOverIndex := IsOver compare
  isOverData := IsOver compare
  index := parts.index.bindings
  lists := parts.bindingsAt

namespace ReadIn

theorem opens (readIn : parts.ReadIn comparator options.compressors policy entries final file)
    {block : DataBlock}
    (inFile : block.InFile (Compressor.Registered options.compressors) final.file.contents)
    (member : block ∈ parts.cursorBlocks) :
    ∃ source, (Block.new block.raw).newIterator = .over source ∧ Laid source block.pieces ∧
      ∀ verifyChecksums, ∃ read,
        readBlock file options.compressors verifyChecksums block.handle = .ok (.ok read) ∧
          read.data = block.raw :=
  inFile.opens readIn.smallFile (readIn.smallBlocks _ member) readIn.returns

theorem mem_cursorBlocks {entry : Bytes × DataBlock} (member : entry ∈ parts.blocks) :
    entry.2 ∈ parts.cursorBlocks :=
  List.mem_cons_of_mem _ (List.mem_cons_of_mem _ (List.mem_map_of_mem member))

/-- The index block is opened. -/
theorem opens_index
    (readIn : parts.ReadIn comparator options.compressors policy entries final file) :
    ∃ source, (Block.new parts.index.raw).newIterator = .over source ∧
      Laid source parts.index.pieces ∧
      ∀ verifyChecksums, ∃ read,
        readBlock file options.compressors verifyChecksums parts.index.handle = .ok (.ok read) ∧
          read.data = parts.index.raw :=
  readIn.opens readIn.holds.index.1 List.mem_cons_self

/-- `ReadFilter` reads the filter block. -/
theorem readFilter_eq
    (readIn : parts.ReadIn comparator options.compressors policy entries final file)
    {part : FilterPart} (isPart : part ∈ parts.filter) (cacheId : Nat) (handle : BlockHandle)
    (index : Block) (reading : FilterPolicy) :
    (Table.mk options file cacheId none handle index).readFilter reading part.handle.encodeTo =
      .ok ⟨options, file, cacheId, some (.new reading part.builder.finish), handle, index⟩ := by
  have stored := (readIn.holds.filter part isPart).stored
  have decoded := stored.decodeFrom readIn.smallFile []
  rw [List.append_nil] at decoded
  have registered : Stored (Compressor.Registered options.compressors) final.file.contents
      part.handle part.builder.finish := stored.mono fun _ impossible => impossible.elim
  obtain ⟨read, isRead, data⟩ :=
    registered.readBlock readIn.smallFile readIn.returns options.paranoidChecks
  rw [Table.readFilter, decoded]
  dsimp only
  rw [isRead]
  dsimp only [bind, Except.bind]
  rw [data]
  rfl

theorem metaindex_increasing
    (readIn : parts.ReadIn comparator options.compressors policy entries final file) :
    parts.metaindex.bindings.Pairwise fun first second => Ord.compare first.1 second.1 = .lt := by
  rw [readIn.holds.metaindexBindings]
  split
  · exact List.pairwise_singleton _ _
  · exact List.Pairwise.nil

/-- `ReadMeta` finds the filter block when the metaindex block has the name of the policy. -/
theorem readMeta_eq
    (readIn : parts.ReadIn comparator options.compressors policy entries final file)
    (cacheId : Nat) (index : Block) :
    (Table.mk options file cacheId none parts.metaindex.handle index).readMeta =
      .ok ⟨options, file, cacheId,
        parts.openedFilter final.options.filterPolicy options.filterPolicy,
        parts.metaindex.handle, index⟩ := by
  have bindings := readIn.holds.metaindexBindings
  rw [Table.readMeta]
  dsimp only
  cases isReading : options.filterPolicy with
  | none => rw [openedFilter_none]
  | some reading =>
    obtain ⟨source, opened, laid, reads⟩ := readIn.opens readIn.holds.metaindex.1
      (List.mem_cons_of_mem _ List.mem_cons_self)
    obtain ⟨read, isRead, data⟩ := reads options.paranoidChecks
    obtain ⟨cursor, sought, -, found⟩ := BlockCursor.seek_start laid readIn.metaindex_increasing
      (Table.filterPrefix ++ reading.name)
    dsimp only
    rw [isRead]
    dsimp only [bind, Except.bind]
    rw [data, opened, sought]
    dsimp only
    rw [found, show parts.metaindex.pieces.map Piece.binding = _ from bindings]
    unfold openedFilter
    cases isPart : parts.filter with
    | none => rfl
    | some part =>
      cases isWritten : final.options.filterPolicy with
      | none => rfl
      | some written =>
        dsimp only
        by_cases same : written.name = reading.name
        · have notLess : Ord.compare (Table.filterPrefix ++ written.name)
              (Table.filterPrefix ++ reading.name) ≠ .lt := by
            have equal : Ord.compare (Table.filterPrefix ++ reading.name)
                (Table.filterPrefix ++ reading.name) = .eq := Std.ReflCmp.compare_self
            rw [same, equal]
            decide
          rw [if_pos same, List.find?_singleton, if_pos (decide_eq_true notLess)]
          dsimp only
          rw [if_pos (by rw [same])]
          exact readIn.readFilter_eq isPart cacheId _ index reading
        · have different : Table.filterPrefix ++ written.name ≠
              Table.filterPrefix ++ reading.name := fun equal =>
            same (List.append_cancel_left equal)
          rw [if_neg same, List.find?_singleton]
          split
          · rfl
          · next isFound =>
            obtain ⟨-, isSame⟩ := Option.ite_none_right_eq_some.mp isFound
            obtain ⟨rfl, rfl⟩ := Prod.mk.inj (Option.some.inj isSame)
            rw [if_neg different]
            rfl

/-- The footer and the index block are read. -/
theorem openFile_eq
    (readIn : parts.ReadIn comparator options.compressors policy entries final file)
    (cacheId : Nat) : Table.openFile options file final.file.contents.length cacheId =
      .ok (.ok (parts.opened final.options.filterPolicy options file cacheId)) := by
  obtain ⟨front, isContents⟩ := readIn.holds.footer
  have metaStored := readIn.holds.metaindex.1.stored
  have indexStored := readIn.holds.index.1.stored
  have footer : readFooter file final.file.contents.length =
      .ok (.ok ⟨parts.metaindex.handle, parts.index.handle⟩) := by
    rw [isContents]
    exact readFooter_append (isContents ▸ readIn.returns)
      ⟨metaStored.offset_lt readIn.smallFile, metaStored.size_lt readIn.smallFile⟩
      ⟨indexStored.offset_lt readIn.smallFile, indexStored.size_lt readIn.smallFile⟩
  obtain ⟨-, -, -, reads⟩ := readIn.opens_index
  obtain ⟨read, isRead, data⟩ := reads options.paranoidChecks
  have described := readIn.readMeta_eq cacheId (Block.new parts.index.raw)
  rw [Table.openFile, footer]
  dsimp only [bind, Except.bind]
  rw [isRead]
  dsimp only
  rw [data, described]
  rfl

/-! ### The iterator over the table -/

/-- The block behind a handle of the index is read. -/
theorem blockReader_eq
    (readIn : parts.ReadIn comparator options.compressors policy entries final file)
    {entry : Bytes × DataBlock} (member : entry ∈ parts.blocks) :
    ∃ source, Laid source entry.2.pieces ∧ ∀ (table : Table) (readOptions : ReadOptions),
      table.file = file → table.options = options →
        table.blockReader readOptions entry.2.handle.encodeTo = .ok (.over source) := by
  have written := (readIn.holds.blocks entry member).1
  obtain ⟨source, opened, laid, reads⟩ := readIn.opens written.toInFile (mem_cursorBlocks member)
  refine ⟨source, laid, fun table readOptions isFile isOptions => ?_⟩
  obtain ⟨read, isRead, data⟩ := reads readOptions.verifyChecksums
  rw [Table.blockReader, written.toInFile.decodeFrom readIn.smallFile]
  dsimp only
  rw [isFile, isOptions, isRead]
  dsimp only [bind, Except.bind]
  rw [data, opened]
  rfl

/-- Blocks with the same handle have the same entries. -/
theorem bindingsAt_eq
    (readIn : parts.ReadIn comparator options.compressors policy entries final file)
    {entry : Bytes × DataBlock} (member : entry ∈ parts.blocks) :
    parts.bindingsAt entry.2.handle.encodeTo = entry.2.bindings := by
  rw [bindingsAt]
  cases found : parts.blocks.find? fun other =>
      other.2.handle.encodeTo = entry.2.handle.encodeTo with
  | none =>
    exact absurd (decide_eq_true rfl) (List.find?_eq_none.mp found entry member)
  | some other =>
    have met := List.find?_some found
    have sameHandle : other.2.handle.encodeTo = entry.2.handle.encodeTo := of_decide_eq_true met
    obtain ⟨source, laid, reads⟩ := readIn.blockReader_eq member
    obtain ⟨source', laid', reads'⟩ := readIn.blockReader_eq (List.mem_of_find?_eq_some found)
    obtain ⟨table, isFile, isOptions⟩ : ∃ table : Table, table.file = file ∧
        table.options = options := ⟨parts.opened none options file 0, rfl, rfl⟩
    have first := reads table ⟨false, false⟩ isFile isOptions
    have second := reads' table ⟨false, false⟩ isFile isOptions
    rw [sameHandle, first] at second
    obtain rfl := BlockIterator.over.inj (Except.ok.inj second)
    show other.2.pieces.map Piece.binding = entry.2.pieces.map Piece.binding
    rw [laid.pieces_eq laid']

theorem mem_blocks_of_index
    (readIn : parts.ReadIn comparator options.compressors policy entries final file)
    {entry : Bytes × Bytes} (member : entry ∈ parts.index.bindings) :
    ∃ block ∈ parts.blocks, entry = (block.1, block.2.handle.encodeTo) := by
  rw [readIn.holds.indexBindings] at member
  obtain ⟨block, inBlocks, rfl⟩ := List.mem_map.mp member
  exact ⟨block, inBlocks, rfl⟩

theorem increasing_block
    (readIn : parts.ReadIn comparator options.compressors policy entries final file)
    {entry : Bytes × DataBlock} (member : entry ∈ parts.blocks) :
    entry.2.bindings.Pairwise fun first second => comparator.compare first.1 second.1 = .lt := by
  have increasing := readIn.holds.increasing
  rw [readIn.holds.entries_eq] at increasing
  exact (List.pairwise_flatMap.mp increasing).1 entry member

/-- The separators increase. -/
theorem increasing_index
    (readIn : parts.ReadIn comparator options.compressors policy entries final file) :
    parts.index.bindings.Pairwise fun first second =>
      comparator.compare first.1 second.1 = .lt := by
  have := readIn.sound.trans
  rw [readIn.holds.indexBindings, List.pairwise_map]
  refine readIn.holds.divided.behind.imp_of_mem fun {first second} _ secondIn behind => ?_
  obtain ⟨piece, rest, isPieces⟩ :=
    List.exists_cons_of_ne_nil (readIn.holds.blocks second secondIn).1.nonempty
  have inBlock : piece.binding ∈ second.2.bindings := by
    rw [DataBlock.bindings, isPieces]
    exact List.mem_cons_self
  exact Std.TransCmp.lt_of_lt_of_isLE (behind piece.binding inBlock)
    (readIn.holds.divided.atMost second secondIn piece.binding inBlock)

/-- There are no more blocks than entries. -/
theorem length_index_le
    (readIn : parts.ReadIn comparator options.compressors policy entries final file) :
    parts.index.bindings.length ≤ entries.length := by
  rw [readIn.holds.indexBindings, List.length_map, readIn.holds.entries_eq, List.length_flatMap]
  refine (List.length_map _).symm.trans_le
    (List.length_le_sum_of_one_le _ fun length isLength => ?_)
  obtain ⟨entry, member, rfl⟩ := List.mem_map.mp isLength
  rw [DataBlock.bindings, List.length_map]
  exact List.length_pos_of_ne_nil (readIn.holds.blocks entry member).1.nonempty

theorem blockFunction_eq
    (readIn : parts.ReadIn comparator options.compressors policy entries final file)
    {entry : Bytes × DataBlock} (member : entry ∈ parts.blocks) {table : Table}
    (isFile : table.file = file) (isOptions : table.options = options)
    (comparators : Nat → Comparator) (readOptions : ReadOptions) :
    ∃ data, (table.levels comparators readOptions).blockFunction entry.2.handle.encodeTo =
      .ok data ∧ IsOver comparator.compare data entry.2.bindings := by
  obtain ⟨source, laid, reads⟩ := readIn.blockReader_eq member
  refine ⟨.ok (.start (.over source)), ?_, IsOver.start laid (readIn.increasing_block member)⟩
  rw [Table.levels]
  dsimp only
  rw [reads table readOptions isFile isOptions]

/-- The index and the blocks are cursors. -/
theorem reads
    (readIn : parts.ReadIn comparator options.compressors policy entries final file)
    {table : Table} (isFile : table.file = file) (isOptions : table.options = options)
    {comparators : Nat → Comparator} (isComparator : comparators options.comparator = comparator)
    (readOptions : ReadOptions) :
    @TwoLevelIterator.Reads _ _ _ _ _ readIn.sound.order
      (table.levels comparators readOptions) (contents parts comparator.compare) := by
  let order := readIn.sound.order
  have isCompare : (comparators table.options.comparator).compare = comparator.compare := by
    rw [isOptions, isComparator]
  have cursor := cursorIterator_isCursor readIn.sound
  have readable : ∀ entry ∈ parts.blocks, TwoLevelIterator.readable
      (table.levels comparators readOptions) parts.bindingsAt entry.2.handle.encodeTo =
        entry.2.bindings := by
    intro entry member
    obtain ⟨data, isData, -⟩ :=
      readIn.blockFunction_eq member isFile isOptions comparators readOptions
    rw [TwoLevelIterator.readable, isData]
    exact readIn.bindingsAt_eq member
  refine @TwoLevelIterator.Reads.mk _ _ _ _ _ order _ _ ?_ ?_ ?_ ?_
  · rw [Table.levels, isCompare]
    exact cursor
  · rw [Table.levels, isCompare]
    exact cursor
  · intro entry member data isData
    obtain ⟨block, inBlocks, rfl⟩ := readIn.mem_blocks_of_index member
    obtain ⟨data', isData', isOver⟩ :=
      readIn.blockFunction_eq inBlocks isFile isOptions comparators readOptions
    obtain rfl := Except.ok.inj (isData.symm.trans isData')
    show IsOver comparator.compare data (parts.bindingsAt block.2.handle.encodeTo)
    rw [readIn.bindingsAt_eq inBlocks]
    exact isOver
  · refine @Separated.mk _ _ _ order _ _ readIn.increasing_index ?_ ?_ ?_
    · intro entry member
      obtain ⟨block, inBlocks, rfl⟩ := readIn.mem_blocks_of_index member
      rw [contents, readable block inBlocks]
      exact readIn.increasing_block inBlocks
    · intro entry member
      obtain ⟨block, inBlocks, rfl⟩ := readIn.mem_blocks_of_index member
      rw [contents, readable block inBlocks]
      exact readIn.holds.divided.atMost block inBlocks
    · refine List.Pairwise.isChain ?_
      show parts.index.bindings.Pairwise _
      rw [readIn.holds.indexBindings, List.pairwise_map]
      refine readIn.holds.divided.behind.imp_of_mem fun {first second} _ secondIn behind => ?_
      dsimp only [contents]
      rw [readable second secondIn]
      exact behind

/-- The blocks that are read have all of the entries. -/
theorem joined_eq
    (readIn : parts.ReadIn comparator options.compressors policy entries final file)
    {table : Table} (isFile : table.file = file) (isOptions : table.options = options)
    (comparators : Nat → Comparator) (readOptions : ReadOptions) :
    joined parts.index.bindings (TwoLevelIterator.readable
      (table.levels comparators readOptions) parts.bindingsAt) = entries := by
  rw [joined, readIn.holds.indexBindings, List.flatMap_map, readIn.holds.entries_eq]
  refine List.flatMap_congr fun entry member => ?_
  obtain ⟨data, isData, -⟩ :=
    readIn.blockFunction_eq member isFile isOptions comparators readOptions
  rw [TwoLevelIterator.readable, isData]
  exact readIn.bindingsAt_eq member

/-- The iterator over the index stands on no entry at first. -/
theorem isOver_newIterator
    (readIn : parts.ReadIn comparator options.compressors policy entries final file) :
    IsOver comparator.compare (.ok (.start (Block.new parts.index.raw).newIterator))
      parts.index.bindings := by
  obtain ⟨source, opened, laid, -⟩ := readIn.opens_index
  rw [opened]
  exact IsOver.start laid readIn.increasing_index

/-- The iterator over the table is a cursor over the pairs that were added. -/
theorem iterates
    (readIn : parts.ReadIn comparator options.compressors policy entries final file)
    {comparators : Nat → Comparator} (isComparator : comparators options.comparator = comparator)
    (written : Option FilterPolicy) (cacheId : Nat) (readOptions : ReadOptions) {rounds : Nat}
    (enough : entries.length < rounds) :
    (parts.opened written options file cacheId).Iterates comparators readOptions rounds
      entries := by
  have := readIn.sound.trans
  let order := readIn.sound.order
  generalize isTable : parts.opened written options file cacheId = table
  have isFile : table.file = file := isTable ▸ rfl
  have isOptions : table.options = options := isTable ▸ rfl
  have isIndex : table.indexBlock = Block.new parts.index.raw := isTable ▸ rfl
  have isCompare : (comparators table.options.comparator).compare = comparator.compare := by
    rw [isOptions, isComparator]
  have overIndex : IsOver comparator.compare (.ok (.start table.indexBlock.newIterator))
      parts.index.bindings := isIndex ▸ readIn.isOver_newIterator
  refine ⟨fun calls => ?_, fun it reachable => ?_⟩
  · have followed := (@TwoLevelIterator.is_cursor_over_joined _ _ _ _ _ order _ _
      (readIn.reads isFile isOptions isComparator readOptions) _ overIndex _
      (readIn.length_index_le.trans_lt enough)).1 calls
    have isJoined : joined (parts.contents comparator.compare).index (TwoLevelIterator.readable
        (table.levels comparators readOptions) (parts.contents comparator.compare).lists) =
          entries := readIn.joined_eq isFile isOptions comparators readOptions
    refine followed.trans ?_
    rw [isJoined, isCompare]
    refine @trace_eq _ _ _ _ _ _ _ _ (fun current position => current = entryAt entries position ∧
      ∀ index ∈ position, index < entries.length) ?_ ?_ _ _
        ⟨rfl, fun _ impossible => absurd impossible (Option.not_mem_none _)⟩ calls
    · rintro current position ⟨rfl, -⟩
      rfl
    · rintro current position request ⟨rfl, inside⟩
      rw [cursorStep_entryAt readIn.sound readIn.holds.increasing inside]
      cases answered : listCall comparator.compare entries position request with
      | none => exact .none
      | some next => exact .some ⟨rfl, listCall_lt inside answered⟩
  · refine @TwoLevelIterator.getStatus_of_opens _ _ _ _ _ _
      (fun state => IsOver comparator.compare state parts.index.bindings)
      (fun state => ∃ entries, IsOver comparator.compare state entries) ⟨?_, ?_, ?_, ?_, ?_⟩ _
      overIndex _ _ reachable
    · intro state call isOver
      rw [Table.levels, isCompare]
      exact isOver.call call
    · exact fun state isOver => isOver.status
    · rintro state call ⟨entries, isOver⟩
      rw [Table.levels, isCompare]
      exact ⟨entries, isOver.call call⟩
    · exact fun state ⟨_, isOver⟩ => isOver.status
    · intro state isOver entry current
      have inIndex : entry ∈ parts.index.bindings :=
        (cursorIterator_isCursor readIn.sound).mem state _ isOver entry (by
          rw [Table.levels, isCompare] at current
          exact current)
      obtain ⟨block, inBlocks, rfl⟩ := readIn.mem_blocks_of_index inIndex
      obtain ⟨data, isData, isOverData⟩ :=
        readIn.blockFunction_eq inBlocks isFile isOptions comparators readOptions
      exact ⟨data, isData, _, isOverData⟩

/-! ### Getting -/

/-- `InternalGet` looks in the first block whose separator is not less than the key. -/
theorem internalGet_eq
    (readIn : parts.ReadIn comparator options.compressors policy entries final file)
    {table : Table} (isFile : table.file = file) (isOptions : table.options = options)
    (isIndex : table.indexBlock = Block.new parts.index.raw)
    {comparators : Nat → Comparator} (isComparator : comparators options.comparator = comparator)
    (readOptions : ReadOptions) (key : Bytes) :
    table.internalGet comparators readOptions key =
      .ok (none, (parts.blockOf comparator.compare key).bind fun block =>
        if table.filter.any fun filter => !filter.keyMayMatch block.handle.offset key then none
        else block.bindings.find? fun binding => comparator.compare binding.1 key ≠ .lt) := by
  have := readIn.sound.trans
  obtain ⟨source, opened, laid, -⟩ := readIn.opens_index
  obtain ⟨iiter, sought, iiterOk, found⟩ :=
    BlockCursor.seek_start laid readIn.increasing_index key
  have isFound : iiter.entry = (parts.blocks.find? fun entry =>
      comparator.compare entry.1 key ≠ .lt).map fun entry =>
        (entry.1, entry.2.handle.encodeTo) := by
    rw [found]
    show parts.index.bindings.find? _ = _
    rw [readIn.holds.indexBindings, List.find?_map]
    rfl
  unfold Table.internalGet
  rw [isOptions, isComparator, isIndex, opened]
  dsimp only [bind, Except.bind]
  rw [sought]
  dsimp only
  rw [isFound, blockOf]
  cases first : parts.blocks.find? fun entry => comparator.compare entry.1 key ≠ .lt with
  | none =>
    rw [iiterOk]
    rfl
  | some entry =>
    have member := List.mem_of_find?_eq_some first
    have decoded :=
      (readIn.holds.blocks entry member).1.toInFile.decodeFrom readIn.smallFile
    obtain ⟨blockSource, blockLaid, reads⟩ := readIn.blockReader_eq member
    obtain ⟨cursor, soughtBlock, cursorOk, foundBlock⟩ :=
      BlockCursor.seek_start blockLaid (readIn.increasing_block member) key
    dsimp only [Option.map_some, Option.bind_some]
    rw [decoded, reads table readOptions isFile isOptions]
    cases isFilter : table.filter with
    | none =>
      dsimp only
      rw [soughtBlock]
      dsimp only
      rw [cursorOk, iiterOk, foundBlock]
      rfl
    | some filter =>
      dsimp only [Option.any_some]
      split
      · rw [iiterOk]
        rfl
      · rw [soughtBlock]
        dsimp only
        rw [cursorOk, iiterOk, foundBlock]
        rfl

end ReadIn

end TableFile

end LevelDb.Sst
