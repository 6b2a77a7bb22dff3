/-
This file says what is in a finished table file: the data blocks with the separators of the index
between them, the index block, the metaindex block that names the filter block after the policy of
the last options, the filter block of the policy of the first options, and the footer.
-/

import LevelDb.Sst.TableLayout

namespace LevelDb.Sst

namespace TableBuilder

/-! ### The steps of `Finish` -/

variable {builder : TableBuilder} {comparators : Nat → Comparator} {used : Compressor → Prop}

/-- What a `WriteBlock` that succeeds leaves in a file whose end is known. -/
theorem writeBlock_stored {raw : Bytes} {result : BlockHandle × TableBuilder}
    (isResult : builder.writeBlock raw = result) (succeeds : result.2.status = none)
    (isOffset : builder.offset = builder.file.contents.length)
    (isUsed : ∀ compressor ∈ builder.options.compressors 0, used compressor)
    (small : result.2.file.contents.length < 2 ^ 64) :
    ∃ (file : WritableFile) (more : Bytes), file.contents = builder.file.contents ++ more ∧
      Stored used file.contents result.1 raw ∧ result.1.offset = builder.offset ∧
      result.2 = { builder with
        file := file
        status := none
        offset := file.contents.length
        finished := builder.finished ++ [raw] } := by
  subst isResult
  obtain ⟨file, contents, result⟩ := writeBlock_ok succeeds
  rw [result] at small ⊢
  have length : builder.offset + (writtenBlock (builder.options.compressors 0) raw).length =
      file.contents.length := by
    rw [contents, List.length_append, isOffset]
  refine ⟨file, _, contents, ?_, rfl, ?_⟩
  · rw [contents, isOffset]
    exact stored_of_append isUsed
  · rw [length, Nat.mod_eq_of_lt small]

theorem finishFilter_none (isOk : builder.status = none) (noFilter : builder.filterBlock = none) :
    builder.finishFilter = (⟨0, 0⟩, builder) := by
  rw [finishFilter, isOk, noFilter]

theorem finishFilter_of_filter {filter : FilterBlockBuilder} (isOk : builder.status = none)
    (isFilter : builder.filterBlock = some filter) : builder.finishFilter = { builder with
      finished := builder.finished ++ [filter.finish] }.writeRawBlock filter.finish none := by
  rw [finishFilter]
  split
  · next other _ isOther => rw [Option.some.inj (isFilter.symm.trans isOther)]
  · next different => exact absurd isFilter (different filter isOk)

/-- The filter block is written without compression. -/
theorem finishFilter_some {filter : FilterBlockBuilder} (isOk : builder.status = none)
    (isFilter : builder.filterBlock = some filter)
    (succeeds : builder.finishFilter.2.status = none)
    (isOffset : builder.offset = builder.file.contents.length)
    (small : builder.finishFilter.2.file.contents.length < 2 ^ 64) :
    ∃ (file : WritableFile) (more : Bytes), file.contents = builder.file.contents ++ more ∧
      Stored (fun _ => False) file.contents builder.finishFilter.1 filter.finish ∧
      builder.finishFilter.2 = { builder with
        file := file
        status := none
        offset := file.contents.length
        finished := builder.finished ++ [filter.finish] } := by
  rw [finishFilter_of_filter isOk isFilter] at succeeds small ⊢
  obtain ⟨file, contents, result⟩ := writeRawBlock_ok succeeds
  rw [result] at small ⊢
  have length : builder.offset + (filter.finish.length + kBlockTrailerSize) =
      file.contents.length := by
    rw [contents, List.length_append, length_rawBlock, isOffset]
  refine ⟨file, _, contents, ?_, ?_⟩
  · rw [contents]
    dsimp only
    rw [isOffset]
    exact @stored_of_append _ none filter.finish _ nofun
  · dsimp only
    rw [length, Nat.mod_eq_of_lt small]

theorem finishFilter_ok (succeeds : builder.finishFilter.2.status = none) :
    builder.status = none := by
  by_contra notOk
  obtain ⟨message, isMessage⟩ := Option.ne_none_iff_exists'.mp notOk
  rw [finishFilter, isMessage] at succeeds
  rw [isMessage] at succeeds
  cases succeeds

theorem finishMetaindex_ok {filterHandle : BlockHandle} {result : BlockHandle × TableBuilder}
    (finished : builder.finishMetaindex filterHandle = .ok result)
    (succeeds : result.2.status = none) : builder.status = none ∧ ∃ raw,
      builder.metaindexContents filterHandle = .ok raw ∧ result = builder.writeBlock raw := by
  rw [finishMetaindex] at finished
  split at finished
  · next isOk =>
    refine ⟨isOk, ?_⟩
    cases isRaw : builder.metaindexContents filterHandle with
    | error fault =>
      rw [isRaw] at finished
      cases finished
    | ok raw =>
      rw [isRaw] at finished
      exact ⟨raw, rfl, (Except.ok.inj finished).symm⟩
  · next notOk =>
    obtain rfl := Except.ok.inj finished
    exact absurd succeeds notOk

/-- The metaindex block maps the name of the policy of the last options to the filter block. -/
theorem metaindexContents_ok {filterHandle : BlockHandle} {raw : Bytes}
    (isRaw : builder.metaindexContents filterHandle = .ok raw) :
    ∃ (block : BlockBuilder) (pieces : List Piece), block.Holds pieces ∧ raw = block.finish ∧
      ((builder.filterBlock = none ∧ pieces = []) ∨ ∃ policy,
        builder.filterBlock.isSome ∧ builder.options.filterPolicy = some policy ∧
          pieces.map Piece.binding = [(Table.filterPrefix ++ policy.name, filterHandle.encodeTo)]) := by
  rw [metaindexContents] at isRaw
  split at isRaw
  · next noFilter =>
    obtain rfl := Except.ok.inj isRaw
    exact ⟨.new, [], .new, rfl, .inl ⟨noFilter, rfl⟩⟩
  · cases isRaw
  · next filter policy isFilter isPolicy =>
    obtain rfl := Except.ok.inj isRaw
    obtain ⟨piece, isPiece, holds⟩ := BlockBuilder.Holds.new.add
      builder.options.blockRestartInterval (Table.filterPrefix ++ policy.name) filterHandle.encodeTo
    refine ⟨_, _, holds, rfl, .inr ⟨policy, by rw [isFilter]; rfl, isPolicy, ?_⟩⟩
    rw [List.nil_append, List.map_singleton, isPiece]

theorem finishIndex_ok (succeeds : (builder.finishIndex comparators).2.status = none) :
    builder.status = none ∧ builder.finishIndex comparators =
      (builder.addIndexEntry
        (comparators builder.options.comparator).findShortSuccessor).writeBlock
          (builder.addIndexEntry
            (comparators builder.options.comparator).findShortSuccessor).indexBlock.finish := by
  rw [finishIndex] at succeeds ⊢
  by_cases isOk : builder.status = none
  · rw [if_pos isOk]
    exact ⟨isOk, rfl⟩
  · rw [if_neg isOk] at succeeds
    exact absurd succeeds isOk

theorem finishFooter_ok {footer : Footer} (succeeds : (builder.finishFooter footer).status = none) :
    builder.status = none ∧
      (builder.finishFooter footer).file.contents = builder.file.contents ++ footer.encodeTo ∧
      (builder.finishFooter footer).finished = builder.finished ∧
      (builder.finishFooter footer).options = builder.options ∧
      (builder.finishFooter footer).filterBlock = builder.filterBlock := by
  rw [finishFooter] at succeeds ⊢
  by_cases isOk : builder.status = none
  · rw [if_pos isOk] at succeeds ⊢
    dsimp only at succeeds ⊢
    by_cases written : (builder.file.append footer.encodeTo).1 = none
    · rw [if_pos written]
      exact ⟨isOk, WritableFile.append_ok written, rfl, rfl, rfl⟩
    · rw [if_neg written] at succeeds
      exact absurd succeeds written
  · rw [if_neg isOk] at succeeds
    exact absurd succeeds isOk

end TableBuilder

/-! ### The parts of a file -/

/-- The filter block in a file, as a builder finished it. -/
structure FilterPart where
  builder : FilterBlockBuilder
  slots : List (List Bytes)
  handle : BlockHandle

/-- The blocks in the file of a table; there is a separator behind each data block. -/
structure TableFile where
  blocks : List (Bytes × DataBlock)
  filter : Option FilterPart
  metaindex : DataBlock
  index : DataBlock

namespace TableFile

/-- The keys of the blocks that start in a slot of the filter block. -/
def keysAt (table : TableFile) (slot : Nat) (key : Bytes) : Prop :=
  ∃ entry ∈ table.blocks, entry.2.handle.offset / kFilterBase = slot ∧
    key ∈ entry.2.pieces.map Piece.key

/-- The filter block is in the file, and each slot has the filter of its keys. -/
structure HasFilter (table : TableFile) (policy : Option FilterPolicy) (final : TableBuilder)
    (part : FilterPart) : Prop where
  policy_eq : policy = some part.builder.policy
  filterBlock : final.filterBlock = some part.builder
  holds : part.builder.Holds part.slots
  stored : Stored (fun _ => False) final.file.contents part.handle part.builder.finish
  finished : part.builder.finish ∈ final.finished
  mem_slot_iff : ∀ slot key,
    key ∈ ((part.builder.finalSlots part.slots)[slot]?).getD [] ↔ table.keysAt slot key

/-- What is in the file of a table that was built with a filter policy at the start and one at the
end. -/
structure Holds (compare : Bytes → Bytes → Ordering) (used : Compressor → Prop)
    (policy : Option FilterPolicy) (entries : List (Bytes × Bytes)) (final : TableBuilder)
    (table : TableFile) : Prop where
  entries_eq : entries = table.blocks.flatMap fun entry => entry.2.bindings
  increasing : entries.Pairwise fun first second => compare first.1 second.1 = .lt
  divided : Divided compare table.blocks []
  blocks : ∀ entry ∈ table.blocks,
    entry.2.Written used final.file.contents ∧ entry.2.raw ∈ final.finished
  noFilter : table.filter = none → policy = none
  filter : ∀ part ∈ table.filter, table.HasFilter policy final part
  metaindex : table.metaindex.InFile used final.file.contents ∧
    table.metaindex.raw ∈ final.finished
  metaindexBindings : table.metaindex.bindings = match table.filter, final.options.filterPolicy with
    | some part, some last => [(Table.filterPrefix ++ last.name, part.handle.encodeTo)]
    | _, _ => []
  index : table.index.InFile used final.file.contents ∧ table.index.raw ∈ final.finished
  indexBindings : table.index.bindings = table.blocks.map fun entry =>
    (entry.1, entry.2.handle.encodeTo)
  footer : ∃ front, final.file.contents =
    front ++ (Footer.mk table.metaindex.handle table.index.handle).encodeTo
  placed : Placed (table.blocks.map Prod.snd) table.metaindex.handle.offset
  filterBlock : final.filterBlock = table.filter.map FilterPart.builder
  finished : final.finished = (table.blocks.map Prod.snd).map DataBlock.raw ++
    ((table.filter.map fun part => part.builder.finish).toList ++
      [table.metaindex.raw, table.index.raw])

end TableFile

namespace TableBuilder

variable {compare : Bytes → Bytes → Ordering} {used : Compressor → Prop}
  {policy : Option FilterPolicy} {builder final : TableBuilder} {entries : List (Bytes × Bytes)}
  {closed : List (Bytes × DataBlock)} {pending : Option DataBlock}
  {comparators : Nat → Comparator}

/-- The slots that the filter block is finished with. -/
theorem Filtered.mem_finalSlots_iff {blocks : List DataBlock}
    (filtered : Filtered policy builder blocks []) {filter : FilterBlockBuilder}
    (isFilter : builder.filterBlock = some filter) :
    some filter.policy = policy ∧ ∃ slots, filter.Holds slots ∧ ∀ slot key,
      key ∈ ((filter.finalSlots slots)[slot]?).getD [] ↔
        ∃ block ∈ blocks, block.handle.offset / kFilterBase = slot ∧
          key ∈ block.pieces.map Piece.key := by
  obtain ⟨samePolicy, slots, holds, -, members⟩ := filtered.slots filter isFilter
  refine ⟨samePolicy, slots, holds, fun slot key => ?_⟩
  have same : ((filter.finalSlots slots)[slot]?).getD [] =
      ((filter.allSlots slots)[slot]?).getD [] := by
    rw [FilterBlockBuilder.finalSlots]
    split
    · next empty =>
      rw [FilterBlockBuilder.allSlots, empty]
      obtain inside | outside := Nat.lt_or_ge slot slots.length
      · rw [List.getElem?_append_left inside]
      · rw [List.getElem?_append_right outside, List.getElem?_eq_none outside,
          List.getElem?_singleton]
        split
        · rfl
        · rfl
    · rfl
  rw [same, members]
  exact or_iff_left fun last => List.not_mem_nil last.2

/-- The index entry of the last block. -/
theorem Inv.lastEntry (inv : Inv compare used policy builder entries closed pending [])
    (some' : closed = [] → pending = none → entries = []) {comparator : Comparator}
    (sound : comparator.Sound) (isCompare : comparator.compare = compare) :
    ∃ blocks pieces, (builder.addIndexEntry comparator.findShortSuccessor).indexBlock.Holds pieces ∧
      pieces.map Piece.binding = blocks.map (fun entry => (entry.1, entry.2.handle.encodeTo)) ∧
      entries = blocks.flatMap (fun entry => entry.2.bindings) ∧ Divided compare blocks [] ∧
      blocks.map Prod.snd = blocksOf closed pending := by
  have trans : Std.TransCmp compare := isCompare ▸ sound.trans
  cases pending with
  | none =>
    obtain ⟨pieces, holds, bindings⟩ := inv.index
    have noneClosed : closed = [] := by
      by_contra some''
      exact inv.hasCurrent rfl some'' rfl
    rw [addIndexEntry_of_not_pending inv.isPending]
    refine ⟨closed, pieces, holds, bindings, ?_, ?_, ?_⟩
    · rw [noneClosed, some' noneClosed rfl]
      rfl
    · rw [noneClosed]
      exact ⟨nofun, List.Pairwise.nil, nofun⟩
    · rw [blocksOf, Option.toList_none, List.append_nil]
  | some block =>
    rw [addIndexEntry_of_pending inv.isPending]
    obtain ⟨pieces, holds, bindings⟩ :=
      inv.index_add rfl (comparator.findShortSuccessor builder.lastKey)
    refine ⟨closed ++ [(comparator.findShortSuccessor builder.lastKey, block)], pieces, holds,
      bindings, ?_, ?_, ?_⟩
    · rw [inv.entries_eq, List.flatMap_append, List.flatMap_singleton]
      exact congrArg _ (List.append_nil _)
    · exact inv.divided_add rfl (isCompare ▸ sound.le_successor _) fun _ _ _ impossible =>
        absurd impossible List.not_mem_nil
    · rw [List.map_append, List.map_singleton, blocksOf, Option.toList_some]

/-! ### `Finish` -/

theorem writeBlock_grows {raw : Bytes} {result : BlockHandle × TableBuilder}
    (isResult : builder.writeBlock raw = result) (succeeds : result.2.status = none) :
    builder.file.contents <+: result.2.file.contents := by
  subst isResult
  obtain ⟨file, contents, result⟩ := writeBlock_ok succeeds
  rw [result]
  exact ⟨_, contents.symm⟩

theorem finishFilter_grows (succeeds : builder.finishFilter.2.status = none) :
    builder.file.contents <+: builder.finishFilter.2.file.contents := by
  have isOk := finishFilter_ok succeeds
  cases isFilter : builder.filterBlock with
  | none =>
    rw [finishFilter_none isOk isFilter]
  | some filter =>
    rw [finishFilter_of_filter isOk isFilter] at succeeds ⊢
    obtain ⟨file, contents, result⟩ := writeRawBlock_ok succeeds
    rw [result]
    exact ⟨_, contents.symm⟩

theorem addIndexEntry_eq (builder : TableBuilder) (shorten : Bytes → Bytes) :
    ∃ lastKey pendingIndexEntry, builder.addIndexEntry shorten = { builder with
      lastKey := lastKey
      indexBlock := (builder.addIndexEntry shorten).indexBlock
      pendingIndexEntry := pendingIndexEntry } := by
  rw [addIndexEntry]
  split
  · exact ⟨_, _, rfl⟩
  · exact ⟨_, _, rfl⟩

theorem addIndexEntry_indexBlock (builder : TableBuilder) (shorten : Bytes → Bytes) :
    (builder.addIndexEntry shorten).indexBlock =
      if builder.pendingIndexEntry then
        builder.indexBlock.add 1 (shorten builder.lastKey) builder.pendingHandle.encodeTo
      else builder.indexBlock := by
  rw [addIndexEntry]
  split
  · rfl
  · rfl

/-- The filter block of a table that was finished. -/
theorem Inv.finishFilter (inv : Inv compare used policy builder entries closed pending [])
    (succeeds : builder.finishFilter.2.status = none)
    (small : builder.finishFilter.2.file.contents.length < 2 ^ 64) :
    ∃ (file : WritableFile) (more : Bytes) (finished : List Bytes) (filter : Option FilterPart),
      file.contents = builder.file.contents ++ more ∧
      builder.finishFilter.2 = { builder with
        file := file
        status := none
        offset := file.contents.length
        finished := builder.finished ++ finished } ∧
      (filter = none → policy = none) ∧ builder.filterBlock = filter.map FilterPart.builder ∧
      finished = (filter.map fun part => part.builder.finish).toList ∧
      ∀ part ∈ filter, policy = some part.builder.policy ∧ part.builder.Holds part.slots ∧
        part.handle = builder.finishFilter.1 ∧
        Stored (fun _ => False) file.contents part.handle part.builder.finish ∧
        part.builder.finish ∈ finished ∧ ∀ slot key,
          key ∈ ((part.builder.finalSlots part.slots)[slot]?).getD [] ↔
            ∃ block ∈ blocksOf closed pending, block.handle.offset / kFilterBase = slot ∧
              key ∈ block.pieces.map Piece.key := by
  obtain isFilter | ⟨filter, isFilter⟩ := Option.eq_none_or_eq_some builder.filterBlock
  · have noPolicy : policy = none := by
      have same := inv.filtered.isSome_iff
      rw [isFilter] at same
      exact Option.isSome_eq_false_iff.mp same.symm |> Option.isNone_iff_eq_none.mp
    rw [finishFilter_none inv.status isFilter]
    refine ⟨builder.file, [], [], none, (List.append_nil _).symm, ?_, fun _ => noPolicy, isFilter,
      rfl, nofun⟩
    rw [List.append_nil, ← inv.status, ← inv.offset]
  · obtain ⟨samePolicy, slots, holds, members⟩ := inv.filtered.mem_finalSlots_iff isFilter
    obtain ⟨file, more, contents, stored, result⟩ :=
      finishFilter_some inv.status isFilter succeeds inv.offset small
    refine ⟨file, more, [filter.finish], some ⟨filter, slots, builder.finishFilter.1⟩, contents,
      result, nofun, isFilter, rfl, fun part isPart => ?_⟩
    obtain rfl := Option.some.inj isPart
    exact ⟨samePolicy.symm, holds, rfl, stored, List.mem_singleton_self _, members⟩

/-- A `Finish` that succeeds writes the filter block, the metaindex block, the index block and the
footer behind what a `Flush` leaves. -/
theorem finish_ok (isFinal : builder.finish comparators = .ok final) (succeeds : final.status = none) :
    ∃ (filtered described indexed : BlockHandle × TableBuilder) (rawMeta : Bytes)
      (withEntry : TableBuilder),
      builder.flush.status = none ∧ builder.flush.finishFilter = filtered ∧
      filtered.2.metaindexContents filtered.1 = .ok rawMeta ∧
      filtered.2.writeBlock rawMeta = described ∧
      described.2.addIndexEntry
        (comparators described.2.options.comparator).findShortSuccessor = withEntry ∧
      withEntry.writeBlock withEntry.indexBlock.finish = indexed ∧
      filtered.2.status = none ∧ described.2.status = none ∧ indexed.2.status = none ∧
      final.file.contents =
        indexed.2.file.contents ++ (Footer.mk described.1 indexed.1).encodeTo ∧
      final.finished = indexed.2.finished ∧ final.options = indexed.2.options ∧
      final.filterBlock = indexed.2.filterBlock := by
  obtain ⟨⟨filterHandle, filtered⟩, isFiltered⟩ : ∃ result, builder.flush.finishFilter = result :=
    ⟨_, rfl⟩
  rw [TableBuilder.finish, isFiltered] at isFinal
  dsimp only [bind, Except.bind] at isFinal
  cases isDescribed : filtered.finishMetaindex filterHandle with
  | error fault =>
    rw [isDescribed] at isFinal
    cases isFinal
  | ok result =>
    obtain ⟨metaindexHandle, described⟩ := result
    obtain ⟨⟨indexHandle, indexed⟩, isIndexed⟩ : ∃ result,
      described.finishIndex comparators = result := ⟨_, rfl⟩
    rw [isDescribed] at isFinal
    dsimp only at isFinal
    rw [isIndexed] at isFinal
    have isFinal := (Except.ok.inj isFinal).symm
    dsimp only at isFinal
    rw [isFinal] at succeeds
    obtain ⟨indexedOk, contents, sameFinished, sameOptions, sameFilter⟩ := finishFooter_ok succeeds
    rw [← isFinal] at contents sameFinished sameOptions sameFilter
    obtain ⟨describedOk, isWritten⟩ := finishIndex_ok (show (described.finishIndex
      comparators).2.status = none by rw [isIndexed]; exact indexedOk)
    obtain ⟨filteredOk, rawMeta, isMeta, isMetaWritten⟩ := finishMetaindex_ok isDescribed describedOk
    have flushOk := finishFilter_ok (show builder.flush.finishFilter.2.status = none by
      rw [isFiltered]; exact filteredOk)
    exact ⟨⟨filterHandle, filtered⟩, ⟨metaindexHandle, described⟩, ⟨indexHandle, indexed⟩, rawMeta, _,
      flushOk, isFiltered, isMeta, isMetaWritten.symm, rfl, isWritten.symm.trans isIndexed, filteredOk,
      describedOk, indexedOk, contents, sameFinished, sameOptions, sameFilter⟩

/-- What a `Finish` that succeeds leaves in the file. -/
theorem Inv.finish {current : List Piece}
    (inv : Inv compare used policy builder entries closed pending current)
    (sound : (comparators builder.options.comparator).Sound)
    (isCompare : (comparators builder.options.comparator).compare = compare)
    (isFinal : builder.finish comparators = .ok final) (succeeds : final.status = none)
    (small : final.file.contents.length < 2 ^ 64) :
    ∃ table : TableFile, table.Holds compare used policy entries final := by
  obtain ⟨filtered, described, indexed, rawMeta, withEntry, flushOk, isFiltered, isMeta, isDescribed,
    isWithEntry, isIndexed, filteredOk, describedOk, indexedOk, contents, sameFinished, sameOptions,
    sameFilter⟩ := finish_ok isFinal succeeds
  obtain ⟨lastKey, isPending, sameEntry⟩ := described.2.addIndexEntry_eq
    (comparators described.2.options.comparator).findShortSuccessor
  rw [isWithEntry] at sameEntry
  have sameFile : withEntry.file = described.2.file := by rw [sameEntry]
  have smallIndex : indexed.2.file.contents.length < 2 ^ 64 := by
    refine lt_of_le_of_lt ?_ small
    rw [contents, List.length_append]
    exact Nat.le_add_right _ _
  have smallMeta : described.2.file.contents.length < 2 ^ 64 :=
    sameFile ▸ (writeBlock_grows isIndexed indexedOk).length_le.trans_lt smallIndex
  have smallFilter : filtered.2.file.contents.length < 2 ^ 64 :=
    (writeBlock_grows isDescribed describedOk).length_le.trans_lt smallMeta
  subst isFiltered
  have smallFlush := (finishFilter_grows filteredOk).length_le.trans_lt smallFilter
  obtain ⟨pending', flushed, hasBlock⟩ := inv.flush flushOk smallFlush
  obtain ⟨filterFile, filterBytes, filterFinished, filter, filterContents, filterResult, noFilter,
    isFilter, isFinishedFilter, isPart⟩ := flushed.finishFilter filteredOk smallFilter
  obtain ⟨metaBlock, metaPieces, metaHolds, isRawMeta, metaBindings⟩ := metaindexContents_ok isMeta
  obtain ⟨metaFile, metaBytes, metaContents, metaStored, isMetaOffset, metaResult⟩ :=
    writeBlock_stored isDescribed describedOk (by rw [filterResult])
      (by rw [filterResult]; exact flushed.isUsed) smallMeta
  have describedOptions : described.2.options = builder.options := by
    rw [metaResult, filterResult]
    exact (flush_grows flushOk).2.2
  obtain ⟨indexFile, indexBytes, indexContents, indexStored, -, indexResult⟩ := writeBlock_stored
    isIndexed indexedOk (by rw [sameEntry, metaResult])
    (by rw [sameEntry, metaResult, filterResult]; exact flushed.isUsed) smallIndex
  obtain ⟨blocks, indexPieces, indexHolds, indexBindings, isEntries, divided, sameBlocks⟩ :=
    flushed.lastEntry hasBlock sound isCompare
  have isIndexBlock : withEntry.indexBlock = (builder.flush.addIndexEntry
      (comparators builder.options.comparator).findShortSuccessor).indexBlock := by
    rw [← isWithEntry, addIndexEntry_indexBlock, addIndexEntry_indexBlock, describedOptions,
      metaResult, filterResult]
  have allFinished : final.finished = builder.flush.finished ++
      (filterFinished ++ ([rawMeta] ++ [withEntry.indexBlock.finish])) := by
    rw [sameFinished, indexResult, sameEntry, metaResult, filterResult]
    simp only [List.append_assoc]
  have behindFlush : final.file.contents = builder.flush.file.contents ++ (filterBytes ++ (metaBytes ++
      (indexBytes ++ (Footer.mk described.1 indexed.1).encodeTo))) := by
    rw [contents, indexResult, indexContents, sameFile, metaResult, metaContents, filterResult,
      filterContents]
    simp only [List.append_assoc]
  have finalFilter : final.filterBlock = filter.map FilterPart.builder := by
    rw [sameFilter, indexResult, sameEntry, metaResult, filterResult]
    exact isFilter
  refine ⟨⟨blocks, filter, ⟨described.1, rawMeta, metaPieces⟩,
    ⟨indexed.1, withEntry.indexBlock.finish, indexPieces⟩⟩, ?_⟩
  exact {
    entries_eq := isEntries
    increasing := inv.increasing
    divided := divided
    blocks := by
      intro entry member
      have isBlock : entry.2 ∈ blocksOf closed pending' := by
        rw [← sameBlocks]
        exact List.mem_map_of_mem member
      obtain ⟨written, isFinished⟩ := flushed.written entry.2 isBlock
      rw [behindFlush, allFinished]
      exact ⟨written.append _, List.mem_append_left _ isFinished⟩
    noFilter := noFilter
    filter := by
      intro part member
      obtain ⟨isPolicy, holds, isHandle, stored, isFinished, members⟩ := isPart part member
      exact {
        policy_eq := isPolicy
        filterBlock := by
          rw [finalFilter, show filter = some part from member]
          rfl
        holds := holds
        stored := by
          rw [behindFlush, ← List.append_assoc, ← filterContents]
          exact stored.append _
        finished := by
          rw [allFinished]
          exact List.mem_append_right _ (List.mem_append_left _ isFinished)
        mem_slot_iff := by
          intro slot key
          rw [members, ← sameBlocks]
          refine ⟨?_, ?_⟩
          · rintro ⟨block, inBlocks, rest⟩
            obtain ⟨entry, member, rfl⟩ := List.mem_map.mp inBlocks
            exact ⟨entry, member, rest⟩
          · rintro ⟨entry, member, rest⟩
            exact ⟨entry.2, List.mem_map_of_mem member, rest⟩ }
    metaindex := by
      refine ⟨⟨?_, metaBlock, metaHolds, isRawMeta⟩, ?_⟩
      · rw [contents, indexResult, indexContents, sameFile, metaResult, List.append_assoc]
        exact metaStored.append _
      · rw [allFinished]
        simp only [List.mem_append, List.mem_singleton, true_or, or_true]
    metaindexBindings := by
      have lastPolicy : builder.flush.finishFilter.2.options.filterPolicy =
          final.options.filterPolicy := by
        rw [sameOptions, indexResult, sameEntry, metaResult]
      have withFilter : builder.flush.finishFilter.2.filterBlock = filter.map FilterPart.builder := by
        rw [filterResult]
        exact isFilter
      rw [lastPolicy, withFilter] at metaBindings
      rw [DataBlock.bindings]
      obtain ⟨nothing, rfl⟩ | ⟨last, isSome, isLast, bindings⟩ := metaBindings
      · rw [Option.map_eq_none_iff.mp nothing]
        rfl
      · rw [Option.isSome_map] at isSome
        obtain ⟨part, member⟩ := Option.isSome_iff_exists.mp isSome
        rw [bindings, isLast, member]
        dsimp only
        rw [(isPart part member).2.2.1]
    index := by
      refine ⟨⟨?_, _, isIndexBlock ▸ indexHolds, rfl⟩, ?_⟩
      · rw [contents, indexResult]
        exact indexStored.append _
      · rw [allFinished]
        simp only [List.mem_append, List.mem_singleton, or_true]
    indexBindings := indexBindings
    footer := ⟨_, contents⟩
    placed := by
      rw [sameBlocks, isMetaOffset, filterResult]
      dsimp only
      rw [filterContents, List.length_append, ← flushed.offset]
      exact flushed.placed.mono (Nat.le_add_right _ _)
    filterBlock := finalFilter
    finished := by
      rw [allFinished, flushed.finished, sameBlocks, isFinishedFilter]
      rfl }

end TableBuilder

end LevelDb.Sst
