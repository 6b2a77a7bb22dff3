/-
This file models `InternalFilterPolicy`, which gives the user keys to the filter policy of the user,
and proves that filters never hide data: a lookup in a table that is opened with its filter finds
the entry that a lookup without the filter finds. There is one filter for each 2 KB of the file, so
it may cover several blocks, and the index may point to a block without the key.
-/

import LevelDb.Sst.TableRoundTrip

namespace LevelDb.Sst

/-! ### Internal keys in filters -/

/-- `InternalFilterPolicy`. The source asserts that a key has a tag behind the user key. -/
def internalFilterPolicy (userPolicy : FilterPolicy) : FilterPolicy where
  name := userPolicy.name
  createFilter keys := userPolicy.createFilter
    (keys.map fun key => (extractUserKey key).getD key)
  keyMayMatch key filter := userPolicy.keyMayMatch ((extractUserKey key).getD key) filter

/-- A policy matches every key that is like one of the keys that the filter was made of. -/
def FilterPolicy.NoFalseNegatives (policy : FilterPolicy) (alike : Bytes → Bytes → Prop) : Prop :=
  ∀ keys, ∀ key ∈ keys, ∀ other, alike key other →
    policy.keyMayMatch other (policy.createFilter keys) = true

/-- The filter of a slot matches the internal keys with the user keys that it was made of. -/
theorem keyMayMatch_internal {userPolicy : FilterPolicy} {alike : Bytes → Bytes → Prop}
    (noFalseNegatives : userPolicy.NoFalseNegatives alike) {keys : List Bytes}
    (few : keys.length < 2 ^ 31) {inFilter key found sought : Bytes} (member : inFilter ∈ keys)
    (isFound : extractUserKey inFilter = some found) (isSought : extractUserKey key = some sought)
    (same : alike found sought) :
    (internalFilterPolicy userPolicy).keyMayMatch key
      (slotFilter (internalFilterPolicy userPolicy) keys) = true := by
  rw [slotFilter_of_few (List.ne_nil_of_mem member) few]
  show userPolicy.keyMayMatch ((extractUserKey key).getD key) _ = true
  rw [isSought]
  refine noFalseNegatives _ found (List.mem_map.mpr ⟨inFilter, member, ?_⟩) sought same
  rw [isFound]
  rfl

/-! ### Lookups -/

namespace TableFile.ReadIn

variable {parts : TableFile} {comparator : Comparator} {userPolicy : FilterPolicy}
  {entries : List (Bytes × Bytes)} {final : TableBuilder} {file : RandomAccessFile}
  {options : Options}

/-- A lookup without a filter finds a binding of the block that the index points to. -/
theorem exists_block_of_found
    (readIn : parts.ReadIn comparator options.compressors (some (internalFilterPolicy userPolicy))
      entries final file) {table : Table} (isFile : table.file = file)
    (isOptions : table.options = options)
    (isIndex : table.indexBlock = Block.new parts.index.raw) (noFilter : table.filter = none)
    {comparators : Nat → Comparator} (isComparator : comparators options.comparator = comparator)
    {readOptions : ReadOptions} {key : Bytes} {binding : Bytes × Bytes}
    (finds : table.internalGet comparators readOptions key = .ok (none, some binding)) :
    ∃ entry ∈ parts.blocks, binding ∈ entry.2.bindings ∧
      parts.blockOf comparator.compare key = some entry.2 ∧
      (entry.2.bindings.find? fun other => comparator.compare other.1 key ≠ .lt) =
        some binding := by
  rw [readIn.internalGet_eq isFile isOptions isIndex isComparator, noFilter] at finds
  have found := (Prod.mk.inj (Except.ok.inj finds)).2
  obtain ⟨block, isBlock, found⟩ := Option.bind_eq_some_iff.mp found
  have found : (block.bindings.find? fun other => comparator.compare other.1 key ≠ .lt) =
      some binding := found
  obtain ⟨entry, isEntry, rfl⟩ := Option.map_eq_some_iff.mp isBlock
  exact ⟨entry, List.mem_of_find?_eq_some isEntry, List.mem_of_find?_eq_some found, isBlock, found⟩

end TableFile.ReadIn

/-- A table that is opened with the filter policy that it was built with finds every entry for the
user key of a lookup that it finds when it is opened without filters. User keys may be alike in
any sense in which the policy of the user has no false negatives. -/
theorem internalGet_filtered {comparators : Nat → Comparator} {build : TableBuild}
    {options : Options} {file : RandomAccessFile} (readBy : build.ReadBy comparators options file)
    {userPolicy : FilterPolicy}
    (built : build.options.filterPolicy = some (internalFilterPolicy userPolicy))
    (reading : options.filterPolicy = some (internalFilterPolicy userPolicy))
    {alike : Bytes → Bytes → Prop} (noFalseNegatives : userPolicy.NoFalseNegatives alike)
    (few : ∀ filter ∈ build.final.filterBlock, ∀ keys ∈ filter.finishKeys.made,
      keys.length < 2 ^ 31) (cacheId : Nat) :
    ∃ filtered plain,
      Table.openFile options file build.contents.length cacheId = .ok (.ok filtered) ∧
      Table.openFile { options with filterPolicy := none } file build.contents.length cacheId =
        .ok (.ok plain) ∧
      (build.final.options.filterPolicy = options.filterPolicy → filtered.filter.isSome) ∧
      ∀ readOptions key binding found sought,
        extractUserKey binding.1 = some found → extractUserKey key = some sought →
        alike found sought →
        plain.internalGet comparators readOptions key = .ok (none, some binding) →
        filtered.internalGet comparators readOptions key = .ok (none, some binding) := by
  obtain ⟨parts, readIn, smallFilter⟩ := readBy.exists_parts
  rw [built] at readIn
  have opens := readIn.openFile_eq cacheId
  have plainIn : parts.ReadIn (comparators options.comparator)
    { options with filterPolicy := none }.compressors (some (internalFilterPolicy userPolicy))
    build.entries build.final file := readIn
  have opensPlain := plainIn.openFile_eq cacheId
  refine ⟨_, _, opens, opensPlain, fun samePolicy => ?_, ?_⟩
  · show (parts.openedFilter build.final.options.filterPolicy options.filterPolicy).isSome
    cases isPart : parts.filter with
    | none => exact absurd (readIn.holds.noFilter isPart) (Option.some_ne_none _)
    | some part =>
      unfold TableFile.openedFilter
      rw [isPart, samePolicy, reading]
      dsimp only
      rw [if_pos rfl]
      rfl
  · intro readOptions key binding found sought isFound isSought same finds
    obtain ⟨entry, isEntry, inBlock, isBlock, isFirst⟩ := plainIn.exists_block_of_found rfl rfl rfl
      (parts.openedFilter_none _) rfl finds
    have kept : (parts.openedFilter build.final.options.filterPolicy options.filterPolicy).any
        (fun filter => !filter.keyMayMatch entry.2.handle.offset key) = false := by
      unfold TableFile.openedFilter
      rw [reading]
      split
      · next part written reader isPart _ isReader =>
        obtain rfl := Option.some.inj isReader
        split
        · obtain ⟨keys, made, isKey, reads⟩ :=
            readIn.keyMayMatch_eq smallFilter isPart (internalFilterPolicy userPolicy) isEntry
              inBlock
          have hasFilter := readIn.holds.filter part isPart
          rw [Option.any_some, reads, ← Option.some.inj hasFilter.policy_eq,
            keyMayMatch_internal noFalseNegatives (few _ hasFilter.filterBlock keys made) isKey
              isFound isSought same]
          rfl
        · rfl
      · rfl
    rw [readIn.internalGet_eq rfl rfl rfl rfl, isBlock, Option.bind_some]
    show Except.ok (none, if (parts.openedFilter build.final.options.filterPolicy
      options.filterPolicy).any (fun filter => !filter.keyMayMatch entry.2.handle.offset key) = true
      then none else _) = _
    rw [kept, isFirst]
    rfl

namespace FilteredKeys

def comparators : Nat → Comparator := fun _ =>
  InternalKeyComparator.toComparator bytewiseComparator

theorem sound : (comparators 0).Sound :=
  InternalKeyComparator.toComparator_sound bytewiseComparator_sound
    BytewiseComparator.findShortestSeparator_self

/-- Every pair fills a block. -/
def options : Options := ⟨0, false, 1, 16, fun _ => none, some (internalFilterPolicy headPolicy)⟩

def internalKey (byte : UInt8) (sequence : Nat) : Bytes :=
  [byte] ++ encodeFixed64 (packSequenceAndType sequence .kTypeValue)

/-- Two versions of a key and another key. -/
def calls : List TableBuilder.Call :=
  [.add (internalKey 5 9) [7], .add (internalKey 5 4) [8], .add (internalKey 6 5) [9]]

def build : TableBuild := .ofCalls comparators options calls

def file : RandomAccessFile := .ofBytes build.contents

theorem runs : TableBuild.Runs comparators options calls := by decide +kernel

theorem readBy : build.ReadBy comparators options file := by
  refine runs.readBy sound rfl nofun fun call member => ?_
  simp only [calls, List.mem_cons, List.not_mem_nil, or_false] at member
  rcases member with rfl | rfl | rfl
  all_goals trivial

theorem few : ∀ filter ∈ build.final.filterBlock, ∀ keys ∈ filter.finishKeys.made,
    keys.length < 2 ^ 31 := by
  decide +kernel

theorem noFalseNegatives : headPolicy.NoFalseNegatives Eq := by
  rintro keys key member other rfl
  exact decide_eq_true (List.mem_map_of_mem member)

end FilteredKeys

theorem internalGet_filtered_three :
    ∃ filtered plain,
      Table.openFile FilteredKeys.options FilteredKeys.file FilteredKeys.build.contents.length 0 =
        .ok (.ok filtered) ∧
      Table.openFile { FilteredKeys.options with filterPolicy := none } FilteredKeys.file
        FilteredKeys.build.contents.length 0 = .ok (.ok plain) ∧
      (FilteredKeys.build.final.options.filterPolicy = FilteredKeys.options.filterPolicy →
        filtered.filter.isSome) ∧
      ∀ readOptions key binding found sought,
        extractUserKey binding.1 = some found → extractUserKey key = some sought → found = sought →
        plain.internalGet FilteredKeys.comparators readOptions key = .ok (none, some binding) →
        filtered.internalGet FilteredKeys.comparators readOptions key = .ok (none, some binding) :=
  internalGet_filtered FilteredKeys.readBy rfl rfl FilteredKeys.noFalseNegatives FilteredKeys.few 0

/-! ### Blocks with one pair -/

theorem length_encodeVarint32_le (v : Nat) : (encodeVarint32 v).length ≤ 5 := by
  rw [encodeVarint32]
  split_ifs
  all_goals simp only [List.length_cons, List.length_nil]; omega

theorem BlockBuilder.length_finish_pair {interval : Nat} (positive : 0 < interval)
    (key value : Bytes) :
    (BlockBuilder.new.add interval key value).finish.length ≤ key.length + value.length + 23 := by
  have added : (BlockBuilder.new.add interval key value).finish =
      (⟨entryBytes 0 key value, [0], 1, key⟩ : BlockBuilder).finish := by
    have room : BlockBuilder.new.counter < interval := positive
    rw [add, if_pos room]
    rfl
  have first := length_encodeVarint32_le (0 % 2 ^ 32)
  have second := length_encodeVarint32_le ((key.length - 0) % 2 ^ 32)
  have third := length_encodeVarint32_le (value.length % 2 ^ 32)
  rw [added, length_finish, entryBytes]
  simp only [List.length_append, List.drop_zero, List.length_singleton]
  omega

namespace TableBuilder

variable {builder final : TableBuilder} {comparators : Nat → Comparator}

theorem length_writtenBlock_none (raw : Bytes) :
    (writtenBlock none raw).length = raw.length + kBlockTrailerSize := length_rawBlock _ _

theorem metaindexContents_some {filter : FilterBlockBuilder}
    (isFilter : builder.filterBlock = some filter) {policy : FilterPolicy}
    (isPolicy : builder.options.filterPolicy = some policy) (filterHandle : BlockHandle) :
    builder.metaindexContents filterHandle = .ok (BlockBuilder.new.add
      builder.options.blockRestartInterval (Table.filterPrefix ++ policy.name)
        filterHandle.encodeTo).finish := by
  rw [metaindexContents, isFilter, isPolicy]

/-- One block that is not compressed is written behind the others. -/
structure Writes (before after : TableBuilder) (raw : Bytes) : Prop where
  length : after.file.contents.length =
    before.file.contents.length + (raw.length + kBlockTrailerSize)
  finished : after.finished = before.finished ++ [raw]
  options : after.options = before.options
  filterBlock : after.filterBlock = before.filterBlock
  indexBlock : after.indexBlock = before.indexBlock
  lastKey : after.lastKey = before.lastKey
  pending : after.pendingIndexEntry = before.pendingIndexEntry

theorem writeBlock_writes {raw : Bytes} {result : BlockHandle × TableBuilder}
    (isResult : builder.writeBlock raw = result) (succeeds : result.2.status = none)
    (noCompressor : builder.options.compressors 0 = none) : builder.Writes result.2 raw := by
  subst isResult
  obtain ⟨file, contents, result⟩ := writeBlock_ok succeeds
  rw [noCompressor] at contents
  rw [result]
  refine ⟨?_, rfl, rfl, rfl, rfl, rfl, rfl⟩
  show file.contents.length = _
  rw [contents, List.length_append, length_writtenBlock_none]

theorem finishFilter_writes {filter : FilterBlockBuilder}
    (isFilter : builder.filterBlock = some filter) {result : BlockHandle × TableBuilder}
    (isResult : builder.finishFilter = result) (succeeds : result.2.status = none) :
    builder.Writes result.2 filter.finish := by
  subst isResult
  have isOk := finishFilter_ok succeeds
  rw [finishFilter_of_filter isOk isFilter] at succeeds ⊢
  obtain ⟨file, contents, result⟩ := writeRawBlock_ok succeeds
  rw [result]
  refine ⟨?_, rfl, rfl, rfl, rfl, rfl, rfl⟩
  show file.contents.length = _
  rw [contents, List.length_append, length_rawBlock]

/-- `Flush` writes the block that is being built and starts the next one for the filters. -/
theorem flush_writes (succeeds : builder.flush.status = none)
    (noCompressor : builder.options.compressors 0 = none)
    (nonempty : builder.dataBlock.buffer ≠ []) (start : builder.offset = 0) :
    builder.flush.file.contents.length = builder.file.contents.length +
        (builder.dataBlock.finish.length + kBlockTrailerSize) ∧
      builder.flush.finished = builder.finished ++ [builder.dataBlock.finish] ∧
      builder.flush.options = builder.options ∧ builder.flush.indexBlock = builder.indexBlock ∧
      builder.flush.lastKey = builder.lastKey ∧ builder.flush.pendingIndexEntry = true ∧
      builder.flush.filterBlock = builder.filterBlock.map fun filter =>
        filter.startBlock ((builder.dataBlock.finish.length + kBlockTrailerSize) % 2 ^ 64) := by
  obtain ⟨-, ⟨empty, -⟩ | ⟨-, file, contents, flushed⟩⟩ := flush_ok succeeds
  · exact absurd empty nonempty
  · rw [noCompressor] at contents
    rw [noCompressor, start, length_writtenBlock_none, Nat.zero_add] at flushed
    rw [flushed]
    refine ⟨?_, rfl, rfl, rfl, rfl, rfl, rfl⟩
    show file.contents.length = _
    rw [contents, List.length_append, length_writtenBlock_none]

/-- What `Finish` writes behind the pairs of one block when there is a filter and no compressor. -/
theorem finish_block (isFinal : builder.finish comparators = .ok final)
    (succeeds : final.status = none) (noCompressor : builder.options.compressors 0 = none)
    (nonempty : builder.dataBlock.buffer ≠ []) {filter : FilterBlockBuilder}
    (isFilter : builder.filterBlock = some filter) {policy : FilterPolicy}
    (isPolicy : builder.options.filterPolicy = some policy) (start : builder.offset = 0) :
    ∃ (filterHandle dataHandle : BlockHandle) (atEnd : FilterBlockBuilder)
        (rawMeta rawIndex : Bytes),
      atEnd = filter.startBlock
        ((builder.dataBlock.finish.length + kBlockTrailerSize) % 2 ^ 64) ∧
      final.filterBlock = some atEnd ∧
      rawMeta = (BlockBuilder.new.add builder.options.blockRestartInterval
        (Table.filterPrefix ++ policy.name) filterHandle.encodeTo).finish ∧
      rawIndex = (builder.indexBlock.add 1
        ((comparators builder.options.comparator).findShortSuccessor builder.lastKey)
          dataHandle.encodeTo).finish ∧
      final.finished = builder.finished ++
        [builder.dataBlock.finish, atEnd.finish, rawMeta, rawIndex] ∧
      final.options = builder.options ∧
      final.file.contents.length = builder.file.contents.length +
        builder.dataBlock.finish.length + atEnd.finish.length + rawMeta.length + rawIndex.length +
          (4 * kBlockTrailerSize + Footer.kEncodedLength) := by
  obtain ⟨filtered, described, indexed, rawMeta, withEntry, flushOk, isFiltered, isMeta,
    isDescribed, isWithEntry, isIndexed, filteredOk, describedOk, indexedOk, contents, sameFinished,
    sameOptions, sameFilter⟩ := finish_ok isFinal succeeds
  obtain ⟨flushLength, flushFinished, flushOptions, flushIndex, flushKey, flushPending,
    flushFilter⟩ := flush_writes flushOk noCompressor nonempty start
  rw [isFilter, Option.map_some] at flushFilter
  have filterWrites := finishFilter_writes flushFilter isFiltered filteredOk
  have filteredOptions := filterWrites.options.trans flushOptions
  have metaWrites := writeBlock_writes isDescribed describedOk (filteredOptions ▸ noCompressor)
  have describedOptions := metaWrites.options.trans filteredOptions
  have isRaw := Except.ok.inj (isMeta.symm.trans (metaindexContents_some
    (filterWrites.filterBlock.trans flushFilter) (filteredOptions ▸ isPolicy) filtered.1))
  rw [addIndexEntry_of_pending (metaWrites.pending.trans (filterWrites.pending.trans flushPending))]
    at isWithEntry
  have withOptions : withEntry.options = builder.options := by
    rw [← isWithEntry]
    exact describedOptions
  have indexWrites := writeBlock_writes isIndexed indexedOk (withOptions ▸ noCompressor)
  refine ⟨filtered.1, described.2.pendingHandle, _, rawMeta, withEntry.indexBlock.finish, rfl,
    ?_, ?_, ?_, ?_, ?_, ?_⟩
  · rw [sameFilter, indexWrites.filterBlock, ← isWithEntry]
    exact metaWrites.filterBlock.trans (filterWrites.filterBlock.trans flushFilter)
  · rw [isRaw, filteredOptions]
  · rw [← isWithEntry]
    dsimp only
    rw [describedOptions, metaWrites.indexBlock, filterWrites.indexBlock, flushIndex,
      metaWrites.lastKey, filterWrites.lastKey, flushKey]
  · have withFinished : withEntry.finished = described.2.finished := by rw [← isWithEntry]
    rw [sameFinished, indexWrites.finished, withFinished, metaWrites.finished,
      filterWrites.finished, flushFinished]
    simp only [List.append_assoc, List.cons_append, List.nil_append]
  · rw [sameOptions, indexWrites.options, withOptions]
  · have withFile : withEntry.file = described.2.file := by rw [← isWithEntry]
    rw [contents, List.length_append, Footer.length_encodeTo, indexWrites.length, withFile,
      metaWrites.length, filterWrites.length, flushLength]
    ring

end TableBuilder

/-! ### A filter of 4 GB -/

namespace HiddenKey

open FilteredKeys (comparators sound)

def options (size : Nat) : Options :=
  ⟨0, false, 4096, 16, fun _ => none, some (internalFilterPolicy (paddedPolicy size))⟩

def key : Bytes := FilteredKeys.internalKey 97 1

def build (size : Nat) : TableBuild := .ofEntries comparators (options size) [(key, [])]

theorem succeeds (size : Nat) : (build size).Succeeds comparators :=
  TableBuild.succeeds_ofEntries sound (List.pairwise_singleton _ _)

/-- The builder behind the pair. -/
theorem last_eq (size : Nat) : (build size).last = { TableBuilder.new (options size) ⟨[], []⟩ with
    filterBlock := some (((FilterBlockBuilder.new (internalFilterPolicy (paddedPolicy
      size))).startBlock 0).addKey key)
    lastKey := key
    numEntries := 1
    dataBlock := BlockBuilder.new.add 16 key [] } := by
  have reached := (succeeds size).reached
  have taken : (TableBuilder.new (options size) ⟨[], []⟩).step comparators (.add key []) =
      some ((TableBuilder.new (options size) ⟨[], []⟩).add comparators key []) := by
    rw [TableBuilder.step]
    exact if_neg fun met => lt_irrefl 0 met.2.1
  have roomy : (BlockBuilder.new.add 16 key []).currentSizeEstimate < 4096 := by decide +kernel
  have run : [TableBuilder.Call.add key []].foldlM (TableBuilder.step comparators)
      (TableBuilder.new (options size) ⟨[], []⟩) = some (build size).last := reached
  rw [List.foldlM_cons, taken] at run
  rw [← Option.some.inj run, TableBuilder.add_roomy rfl rfl roomy]
  rfl

/-- The filter block that was finished: one filter, of zeros, for the first slot. -/
theorem final_eq (size : Nat) : ∃ (atEnd : FilterBlockBuilder) (rawData rawMeta rawIndex : Bytes),
    (build size).final.filterBlock = some atEnd ∧ atEnd.policy = paddedPolicy size ∧
      (atEnd.result = [] ∧ atEnd.filterOffsets = []) ∧ atEnd.keys ≠ [] ∧
      (build size).final.finished = [rawData, atEnd.finish, rawMeta, rawIndex] ∧
      (build size).final.options = options size ∧
      rawData.length < 100 ∧ rawMeta.length < 100 ∧ rawIndex.length < 100 ∧
      (build size).contents.length < size + 1000 := by
  have isFinal := (succeeds size).isFinal
  have dataLength : (BlockBuilder.new.add 16 key []).finish.length = 20 := by decide +kernel
  have keyLength : (((comparators 0).findShortSuccessor key)).length ≤ 9 := by decide +kernel
  have nonempty : (BlockBuilder.new.add 16 key []).buffer ≠ [] := by decide +kernel
  rw [last_eq] at isFinal
  obtain ⟨filterHandle, dataHandle, atEnd, rawMeta, rawIndex, isAtEnd, isFilter, isMeta, isIndex,
    finished, sameOptions, length⟩ := TableBuilder.finish_block isFinal (succeeds size).succeeds rfl
      nonempty rfl rfl rfl
  have isEnd : atEnd = ((FilterBlockBuilder.new (internalFilterPolicy (paddedPolicy
      size))).startBlock 0).addKey key := by
    rw [isAtEnd]
    show FilterBlockBuilder.startBlock _ (((BlockBuilder.new.add 16 key []).finish.length +
      kBlockTrailerSize) % 2 ^ 64) = _
    rw [dataLength]
    rfl
  have endLength : atEnd.finish.length = size + 9 := by
    have made : atEnd.finishKeys.result = List.replicate size 0 := by
      rw [isEnd]
      rfl
    have offsets : atEnd.finishKeys.filterOffsets = [0] := by
      rw [isEnd]
      rfl
    rw [FilterBlockBuilder.finish, List.length_append, FilterBlockBuilder.length_trailer, made,
      offsets, List.length_replicate]
    rfl
  have metaLength : rawMeta.length < 100 := by
    have handleLength := filterHandle.length_encodeTo_le
    have prefixLength : (Table.filterPrefix ++ (internalFilterPolicy (paddedPolicy
      size)).name).length = 7 := rfl
    have bound := BlockBuilder.length_finish_pair (show 0 < 16 by decide) (Table.filterPrefix ++
      (internalFilterPolicy (paddedPolicy size)).name) filterHandle.encodeTo
    rw [isMeta]
    exact bound.trans_lt (by omega)
  have indexLength : rawIndex.length < 100 := by
    have handleLength := dataHandle.length_encodeTo_le
    have bound := BlockBuilder.length_finish_pair (show 0 < 1 by decide)
      ((comparators 0).findShortSuccessor key) dataHandle.encodeTo
    rw [isIndex]
    exact bound.trans_lt (by omega)
  refine ⟨atEnd, (BlockBuilder.new.add 16 key []).finish, rawMeta, rawIndex, isFilter, ?_, ?_, ?_,
    finished, sameOptions, dataLength ▸ (by decide), metaLength, indexLength, ?_⟩
  · rw [isEnd]
    rfl
  · rw [isEnd]
    exact ⟨rfl, rfl⟩
  · rw [isEnd]
    exact List.cons_ne_nil _ _
  · have length : (build size).contents.length =
        0 + (BlockBuilder.new.add 16 key []).finish.length + atEnd.finish.length + rawMeta.length +
          rawIndex.length + (4 * 5 + 48) := length
    rw [length, dataLength, endLength]
    omega

/-- The parts of the file, of which only the filter block is large. -/
theorem exists_parts {size : Nat} (small : size < 2 ^ 60) :
    ∃ (parts : TableFile) (part : FilterPart),
      parts.ReadIn (comparators 0) (options size).compressors
        (some (internalFilterPolicy (paddedPolicy size))) [(key, [])] (build size).final
        (.ofBytes (build size).contents) ∧
      (build size).final.options = options size ∧ parts.filter = some part ∧
      part.builder.policy = paddedPolicy size ∧
      (part.builder.result = [] ∧ part.builder.filterOffsets = []) ∧ part.builder.keys ≠ [] := by
  obtain ⟨atEnd, rawData, rawMeta, rawIndex, isFilter, isPolicy, noFilters, hasKeys, isFinished,
    isOptions, dataLength, metaLength, indexLength, length⟩ := final_eq size
  have smallFile : (build size).contents.length < 2 ^ 64 := by omega
  obtain ⟨parts, holds⟩ := @TableBuild.Succeeds.exists_parts comparators (build size)
    (succeeds size) (comparators 0) sound rfl (Compressor.Registered (options size).compressors)
    (fun _ impossible => absurd impossible (Option.not_mem_none _)) (fun call member => by
      obtain rfl := List.mem_singleton.mp member
      trivial) smallFile
  obtain ⟨part, isPart, rfl⟩ := Option.map_eq_some_iff.mp (holds.filterBlock.symm.trans isFilter)
  have finished := holds.finished.symm.trans isFinished
  rw [isPart] at finished
  have finished : (parts.blocks.map Prod.snd).map DataBlock.raw ++
      [part.builder.finish, parts.metaindex.raw, parts.index.raw] =
        [rawData] ++ [part.builder.finish, rawMeta, rawIndex] := finished
  obtain ⟨sameData, sameRest⟩ := List.append_inj' finished rfl
  simp only [List.cons.injEq, true_and, and_true] at sameRest
  refine ⟨parts, part, ⟨sound, holds, smallFile, ?_, RandomAccessFile.returns_ofBytes _⟩, isOptions,
    isPart, isPolicy, noFilters, hasKeys⟩
  refine TableFile.forall_cursorBlocks.mpr ⟨?_, ?_, fun entry member => ?_⟩
  · rw [sameRest.2]
    omega
  · rw [sameRest.1]
    omega
  · have isRaw : entry.2.raw ∈ (parts.blocks.map Prod.snd).map DataBlock.raw :=
      List.mem_map_of_mem (List.mem_map_of_mem member)
    rw [sameData, List.mem_singleton] at isRaw
    rw [isRaw]
    omega

/-- The filter of the only slot turns the key away in the block that has it. -/
theorem finds_plain_only {size : Nat} (positive : 8 ≤ size) (multiple : size % 2 ^ 32 = 0)
    (small : size < 2 ^ 60) (cacheId : Nat) (readOptions : ReadOptions) :
    ∃ filtered plain,
      Table.openFile (options size) (.ofBytes (build size).contents) (build size).contents.length
        cacheId = .ok (.ok filtered) ∧
      Table.openFile { options size with filterPolicy := none } (.ofBytes (build size).contents)
        (build size).contents.length cacheId = .ok (.ok plain) ∧
      plain.internalGet comparators readOptions key = .ok (none, some (key, [])) ∧
      filtered.internalGet comparators readOptions key = .ok (none, none) := by
  obtain ⟨parts, part, readIn, isOptions, isPart, isPolicy, noFilters, hasKeys⟩ :=
    exists_parts small
  have plainIn : parts.ReadIn (comparators 0)
    { options size with filterPolicy := none }.compressors
    (some (internalFilterPolicy (paddedPolicy size))) [(key, [])] (build size).final
    (.ofBytes (build size).contents) := readIn
  obtain ⟨entry, isBlock, inBlock⟩ := readIn.exists_block (List.mem_singleton_self _)
  have firstSlot : entry.2.handle.offset < kFilterBase := by
    have hasFilter := readIn.holds.filter part isPart
    have isKey : key ∈ entry.2.pieces.map Piece.key := by
      obtain ⟨piece, isPiece, isBinding⟩ := List.mem_map.mp inBlock
      exact List.mem_map.mpr ⟨piece, isPiece, congrArg Prod.fst isBinding⟩
    have inSlot := (hasFilter.mem_slot_iff _ _).mpr ⟨entry, isBlock, rfl, isKey⟩
    have noSlots : part.slots = [] := by
      have offsets := hasFilter.holds.offsets
      rw [noFilters.2] at offsets
      exact List.range_eq_nil.mp (List.map_eq_nil_iff.mp offsets.symm) |>
        List.length_eq_zero_iff.mp
    rw [noSlots, FilterBlockBuilder.finalSlots_getD, FilterBlockBuilder.allSlots,
      List.nil_append, List.getElem?_singleton] at inSlot
    by_contra behind
    have later : entry.2.handle.offset / kFilterBase ≠ 0 :=
      (Nat.div_pos (Nat.not_lt.mp behind) (by decide)).ne'
    rw [if_neg later] at inSlot
    exact absurd inSlot List.not_mem_nil
  refine ⟨_, _, readIn.openFile_eq cacheId, plainIn.openFile_eq cacheId, ?_, ?_⟩
  · refine (plainIn.internalGet_added rfl cacheId readOptions isBlock inBlock).trans ?_
    rw [TableFile.openedFilter_none]
    rfl
  · refine (readIn.internalGet_added rfl cacheId readOptions isBlock inBlock).trans ?_
    have isOpened : parts.openedFilter (build size).final.options.filterPolicy
        (options size).filterPolicy = some (.new (paddedPolicy size) part.builder.finish) := by
      unfold TableFile.openedFilter
      rw [isPart, isOptions]
      exact if_pos rfl
    rw [isOpened, Option.any_some,
      keyMayMatch_paddedPolicy positive multiple isPolicy noFilters hasKeys firstSlot]
    rfl

end HiddenKey

/-- A filter of 4 GB hides the key that it was made of. -/
theorem internalGet_hides_key : ¬ ∀ (comparators : Nat → Comparator) (options : Options)
    (entries : List (Bytes × Bytes)) (userPolicy : FilterPolicy),
    (comparators options.comparator).Sound →
    options.filterPolicy = some (internalFilterPolicy userPolicy) →
    userPolicy.NoFalseNegatives Eq →
    (TableBuild.ofEntries comparators options entries).Succeeds comparators →
    ∀ filtered plain,
      Table.openFile options (.ofBytes (TableBuild.ofEntries comparators options entries).contents)
        (TableBuild.ofEntries comparators options entries).contents.length 0 =
          .ok (.ok filtered) →
      Table.openFile { options with filterPolicy := none }
        (.ofBytes (TableBuild.ofEntries comparators options entries).contents)
        (TableBuild.ofEntries comparators options entries).contents.length 0 = .ok (.ok plain) →
      ∀ readOptions key binding userKey, IsInternalKey key →
        extractUserKey binding.1 = some userKey → extractUserKey key = some userKey →
        plain.internalGet comparators readOptions key = .ok (none, some binding) →
        filtered.internalGet comparators readOptions key = .ok (none, some binding) := by
  intro always
  obtain ⟨filtered, plain, opens, opensPlain, found, hidden⟩ :=
    @HiddenKey.finds_plain_only (2 ^ 32) (by norm_num) (Nat.mod_self _) (by norm_num) 0 ⟨true, true⟩
  have isUserKey : extractUserKey HiddenKey.key = some [97] := by decide +kernel
  have shown := always FilteredKeys.comparators (HiddenKey.options (2 ^ 32)) [(HiddenKey.key, [])]
    (paddedPolicy (2 ^ 32)) FilteredKeys.sound rfl
    (fun _ _ _ _ _ => decide_eq_true List.length_replicate) (HiddenKey.succeeds _) filtered plain
    opens opensPlain ⟨true, true⟩ HiddenKey.key (HiddenKey.key, []) [97] (by decide +kernel)
    isUserKey isUserKey found
  rw [hidden] at shown
  cases shown

end LevelDb.Sst
