/-
This file says what the builder of a table writes. Between any two calls the pairs that were added
are those of the data blocks in the file, of which the last one may wait for its index entry, and of
the data block that is being built. The separators of the index lie between the blocks, and every
key is in the filter slot of its block.
-/

import LevelDb.Sst.Compression
import LevelDb.Sst.FilterLayout
import LevelDb.Sst.TableBuilder

namespace LevelDb.Sst

/-! ### Writing -/

theorem WritableFile.append_ok {file : WritableFile} {data : Bytes}
    (succeeds : (file.append data).1 = none) :
    (file.append data).2.contents = file.contents ++ data := by
  rw [append] at succeeds ⊢
  split at succeeds
  · rfl
  · rfl
  · cases succeeds

theorem WritableFile.flush_contents (file : WritableFile) : file.flush.2.contents = file.contents := by
  rw [flush]
  split
  · rfl
  · rfl
  · rfl

/-- The bytes that `WriteBlock` writes for a block. -/
def writtenBlock (compressor : Option Compressor) (raw : Bytes) : Bytes :=
  rawBlock (chooseContents compressor raw).1 (chooseContents compressor raw).2

/-- A block is stored in a file at a handle, compressed by one of some compressors or by none. -/
structure Stored (used : Compressor → Prop) (contents : Bytes) (handle : BlockHandle)
    (raw : Bytes) : Prop where
  exists_compressor : ∃ compressor : Option Compressor, (∀ other ∈ compressor, used other) ∧
    handle.size = (chooseContents compressor raw).1.length ∧
    ∃ front behind, contents = front ++ (writtenBlock compressor raw ++ behind) ∧
      front.length = handle.offset

theorem Stored.append {used : Compressor → Prop} {contents raw : Bytes} {handle : BlockHandle}
    (stored : Stored used contents handle raw) (more : Bytes) :
    Stored used (contents ++ more) handle raw := by
  obtain ⟨compressor, isUsed, size, front, behind, rfl, offset⟩ := stored.exists_compressor
  exact ⟨compressor, isUsed, size, front, behind ++ more, by simp only [List.append_assoc], offset⟩

namespace TableBuilder

variable {builder : TableBuilder}

/-- What a `WriteRawBlock` that succeeds does. -/
theorem writeRawBlock_ok {contents : Bytes} {compressor : Option Compressor}
    (succeeds : (builder.writeRawBlock contents compressor).2.status = none) :
    ∃ file : WritableFile, file.contents = builder.file.contents ++ rawBlock contents compressor ∧
      builder.writeRawBlock contents compressor = (⟨builder.offset, contents.length⟩,
        { builder with
          file := file
          status := none
          offset := (builder.offset + (contents.length + kBlockTrailerSize)) % 2 ^ 64 }) := by
  rw [writeRawBlock] at succeeds ⊢
  dsimp only at succeeds ⊢
  by_cases first : (builder.file.append contents).1 = none
  · rw [if_pos first] at succeeds ⊢
    by_cases second : ((builder.file.append contents).2.append (trailer contents compressor)).1 = none
    · rw [if_pos second]
      refine ⟨_, ?_, rfl⟩
      rw [WritableFile.append_ok second, WritableFile.append_ok first, List.append_assoc]
      rfl
    · rw [if_neg second] at succeeds
      exact absurd succeeds second
  · rw [if_neg first] at succeeds
    exact absurd succeeds first

/-- What a `WriteBlock` that succeeds does. -/
theorem writeBlock_ok {raw : Bytes} (succeeds : (builder.writeBlock raw).2.status = none) :
    ∃ file : WritableFile, file.contents = builder.file.contents ++
        writtenBlock (builder.options.compressors 0) raw ∧
      builder.writeBlock raw =
        (⟨builder.offset, (chooseContents (builder.options.compressors 0) raw).1.length⟩,
        { builder with
          file := file
          status := none
          offset := (builder.offset +
            (writtenBlock (builder.options.compressors 0) raw).length) % 2 ^ 64
          finished := builder.finished ++ [raw] }) := by
  obtain ⟨file, contents, result⟩ := writeRawBlock_ok succeeds
  refine ⟨file, contents, ?_⟩
  rw [writeBlock, result, writtenBlock, length_rawBlock]

/-- The block that was just written is stored. -/
theorem stored_of_append {used : Compressor → Prop} {compressor : Option Compressor} {raw : Bytes}
    {contents : Bytes} (isUsed : ∀ other ∈ compressor, used other) :
    Stored used (contents ++ writtenBlock compressor raw)
      ⟨contents.length, (chooseContents compressor raw).1.length⟩ raw :=
  ⟨compressor, isUsed, rfl, contents, [], by rw [List.append_nil], rfl⟩

/-- What a `Flush` that succeeds does. -/
theorem flush_ok (succeeds : builder.flush.status = none) :
    builder.status = none ∧ (builder.dataBlock.buffer = [] ∧ builder.flush = builder ∨
      builder.dataBlock.buffer ≠ [] ∧ ∃ file : WritableFile,
        file.contents = builder.file.contents ++
          writtenBlock (builder.options.compressors 0) builder.dataBlock.finish ∧
        builder.flush = { builder with
          file := file
          status := none
          offset := (builder.offset + (writtenBlock (builder.options.compressors 0)
            builder.dataBlock.finish).length) % 2 ^ 64
          finished := builder.finished ++ [builder.dataBlock.finish]
          dataBlock := .new
          pendingIndexEntry := true
          pendingHandle := ⟨builder.offset, (chooseContents (builder.options.compressors 0)
            builder.dataBlock.finish).1.length⟩
          filterBlock := builder.filterBlock.map fun filter => filter.startBlock
            ((builder.offset + (writtenBlock (builder.options.compressors 0)
              builder.dataBlock.finish).length) % 2 ^ 64) }) := by
  rw [flush] at succeeds ⊢
  by_cases isOk : builder.status = none
  · refine ⟨isOk, ?_⟩
    rw [if_neg (not_not.mpr isOk)] at succeeds ⊢
    by_cases empty : builder.dataBlock.buffer = []
    · rw [if_pos empty]
      exact .inl ⟨empty, rfl⟩
    · rw [if_neg empty] at succeeds ⊢
      refine .inr ⟨empty, ?_⟩
      dsimp only at succeeds ⊢
      by_cases written : (builder.writeBlock builder.dataBlock.finish).2.status = none
      · obtain ⟨file, contents, result⟩ := writeBlock_ok written
        rw [if_pos written] at succeeds ⊢
        rw [result] at succeeds ⊢
        dsimp only at succeeds ⊢
        exact ⟨file.flush.2, (file.flush_contents).trans contents, by rw [succeeds]⟩
      · rw [if_neg written] at succeeds
        exact absurd succeeds written
  · rw [if_pos isOk] at succeeds
    exact absurd succeeds isOk

end TableBuilder

/-! ### The invariant -/

/-- What `comparator.h` says of a comparator: a total order, keys that compare equal are equal, and
the shortened keys lie where they have to. -/
structure Comparator.Sound (comparator : Comparator) : Prop where
  trans : Std.TransCmp comparator.compare
  eq_of_compare : ∀ first second, comparator.compare first second = .eq → first = second
  start_le : ∀ start limit, comparator.compare start limit = .lt →
    (comparator.compare start (comparator.findShortestSeparator start limit)).isLE
  lt_limit : ∀ start limit, comparator.compare start limit = .lt →
    comparator.compare (comparator.findShortestSeparator start limit) limit = .lt
  le_successor : ∀ key, (comparator.compare key (comparator.findShortSuccessor key)).isLE

/-- A block in the file, with the entries in it. -/
structure DataBlock where
  handle : BlockHandle
  raw : Bytes
  pieces : List Piece

namespace DataBlock

/-- The pairs in a block. -/
def bindings (block : DataBlock) : List (Bytes × Bytes) := block.pieces.map Piece.binding

/-- The block is in the file, as a block builder finished it. -/
structure InFile (used : Compressor → Prop) (contents : Bytes) (block : DataBlock) : Prop where
  stored : Stored used contents block.handle block.raw
  finished : ∃ builder : BlockBuilder, builder.Holds block.pieces ∧ block.raw = builder.finish

theorem InFile.append {used : Compressor → Prop} {contents : Bytes} {block : DataBlock}
    (inFile : block.InFile used contents) (more : Bytes) : block.InFile used (contents ++ more) :=
  ⟨inFile.stored.append more, inFile.finished⟩

/-- A block with entries is in the file. -/
structure Written (used : Compressor → Prop) (contents : Bytes) (block : DataBlock) : Prop
    extends InFile used contents block where
  nonempty : block.pieces ≠ []

theorem Written.append {used : Compressor → Prop} {contents : Bytes} {block : DataBlock}
    (written : block.Written used contents) (more : Bytes) : block.Written used (contents ++ more) :=
  ⟨written.toInFile.append more, written.nonempty⟩

end DataBlock

/-- The separator behind each block: no key of the block is greater, and every later key is. -/
structure Divided (compare : Bytes → Bytes → Ordering) (closed : List (Bytes × DataBlock))
    (later : List (Bytes × Bytes)) : Prop where
  atMost : ∀ entry ∈ closed, ∀ binding ∈ entry.2.bindings, (compare binding.1 entry.1).isLE
  behind : closed.Pairwise fun first second =>
    ∀ binding ∈ second.2.bindings, compare first.1 binding.1 = .lt
  laterBehind : ∀ entry ∈ closed, ∀ binding ∈ later, compare entry.1 binding.1 = .lt

/-- The pairs behind the blocks of the index. -/
def laterPairs (pending : Option DataBlock) (current : List Piece) : List (Bytes × Bytes) :=
  (pending.map DataBlock.bindings).getD [] ++ current.map Piece.binding

/-- The blocks in the file. -/
def blocksOf (closed : List (Bytes × DataBlock)) (pending : Option DataBlock) : List DataBlock :=
  closed.map Prod.snd ++ pending.toList

/-- Blocks are in the file one after the other, in front of an offset. -/
structure Placed (blocks : List DataBlock) (offset : Nat) : Prop where
  ascending : blocks.Pairwise fun first second => first.handle.offset ≤ second.handle.offset
  before : ∀ block ∈ blocks, block.handle.offset ≤ offset

theorem Placed.mono {blocks : List DataBlock} {offset more : Nat} (placed : Placed blocks offset)
    (atMost : offset ≤ more) : Placed blocks more :=
  ⟨placed.ascending, fun block member => (placed.before block member).trans atMost⟩

/-- A block is written at the end of the file. -/
theorem Placed.concat {blocks : List DataBlock} {offset : Nat} (placed : Placed blocks offset)
    {block : DataBlock} (isOffset : block.handle.offset = offset) :
    Placed (blocks ++ [block]) offset := by
  refine ⟨List.pairwise_append.mpr ⟨placed.ascending, List.pairwise_singleton _ _, ?_⟩, ?_⟩
  · intro other member last isLast
    rw [List.mem_singleton.mp isLast, isOffset]
    exact placed.before other member
  · intro other member
    rcases List.mem_append.mp member with isBefore | isLast
    · exact placed.before other isBefore
    · rw [List.mem_singleton.mp isLast, isOffset]

namespace TableBuilder

/-- Every key is in the filter slot of its block, and in no other. -/
structure Filtered (policy : Option FilterPolicy) (builder : TableBuilder)
    (blocks : List DataBlock) (current : List Piece) : Prop where
  isSome_iff : builder.filterBlock.isSome = policy.isSome
  slots : ∀ filter ∈ builder.filterBlock, some filter.policy = policy ∧ ∃ slots,
    filter.Holds slots ∧ slots.length = builder.offset / kFilterBase ∧
    ∀ index key, key ∈ ((filter.allSlots slots)[index]?).getD [] ↔
      (∃ block ∈ blocks, block.handle.offset / kFilterBase = index ∧
        key ∈ block.pieces.map Piece.key) ∨
      index = builder.offset / kFilterBase ∧ key ∈ current.map Piece.key

/-- What a builder has written and what it is building, for the pairs that were added. -/
structure Inv (compare : Bytes → Bytes → Ordering) (used : Compressor → Prop)
    (policy : Option FilterPolicy) (builder : TableBuilder) (entries : List (Bytes × Bytes))
    (closed : List (Bytes × DataBlock)) (pending : Option DataBlock) (current : List Piece) :
    Prop where
  status : builder.status = none
  offset : builder.offset = builder.file.contents.length
  isUsed : ∀ compressor ∈ builder.options.compressors 0, used compressor
  entries_eq : entries = closed.flatMap (fun entry => entry.2.bindings) ++ laterPairs pending current
  written : ∀ block ∈ blocksOf closed pending,
    block.Written used builder.file.contents ∧ block.raw ∈ builder.finished
  dataBlock : builder.dataBlock.Holds current
  index : ∃ pieces, builder.indexBlock.Holds pieces ∧
    pieces.map Piece.binding = closed.map fun entry => (entry.1, entry.2.handle.encodeTo)
  isPending : builder.pendingIndexEntry = pending.isSome
  waits : ∀ block ∈ pending, current = [] ∧ builder.pendingHandle = block.handle
  hasCurrent : pending = none → closed ≠ [] → current ≠ []
  lastKey : ∀ binding ∈ entries.getLast?, binding.1 = builder.lastKey
  count : builder.numEntries = entries.length
  increasing : entries.Pairwise fun first second => compare first.1 second.1 = .lt
  divided : Divided compare closed (laterPairs pending current)
  filtered : Filtered policy builder (blocksOf closed pending) current
  placed : Placed (blocksOf closed pending) builder.offset
  finished : builder.finished = (blocksOf closed pending).map DataBlock.raw

variable {compare : Bytes → Bytes → Ordering} {used : Compressor → Prop}
  {policy : Option FilterPolicy} {builder : TableBuilder} {entries : List (Bytes × Bytes)}
  {closed : List (Bytes × DataBlock)} {pending : Option DataBlock} {current : List Piece}

theorem layout_eq_nil_iff {pieces : List Piece} : layout pieces = [] ↔ pieces = [] := by
  refine ⟨fun empty => ?_, fun empty => by rw [empty, layout_nil]⟩
  cases pieces with
  | nil => rfl
  | cons piece rest =>
    have positive := length_encode_pos piece
    rw [layout_cons, List.append_eq_nil_iff] at empty
    rw [empty.1] at positive
    exact absurd positive (lt_irrefl 0)

/-! ### Starting -/

theorem filtered_new (options : Options) (file : WritableFile) :
    Filtered options.filterPolicy (new options file) [] [] := by
  have isFilter : (new options file).filterBlock =
      options.filterPolicy.map fun policy => FilterBlockBuilder.new policy := rfl
  refine ⟨?_, fun filter member => ?_⟩
  · rw [isFilter, Option.isSome_map]
  · rw [isFilter] at member
    obtain ⟨policy, isPolicy, rfl⟩ := Option.map_eq_some_iff.mp member
    refine ⟨isPolicy.symm, [], .new policy, (Nat.zero_div _).symm, fun index key => ?_⟩
    have nothing : (((FilterBlockBuilder.new policy).allSlots [])[index]?).getD [] = [] := by
      cases index with
      | zero => rfl
      | succ index => rfl
    rw [nothing]
    refine iff_of_false List.not_mem_nil ?_
    rintro (⟨block, impossible, -⟩ | ⟨-, impossible⟩)
    · exact List.not_mem_nil impossible
    · exact List.not_mem_nil impossible

theorem inv_new {options : Options} {outcomes : List (Option (String × Nat))}
    (isUsed : ∀ compressor ∈ options.compressors 0, used compressor) :
    Inv compare used options.filterPolicy (new options ⟨[], outcomes⟩) [] [] none [] where
  status := rfl
  offset := rfl
  isUsed := isUsed
  entries_eq := rfl
  written := nofun
  dataBlock := .new
  index := ⟨[], .new, rfl⟩
  isPending := rfl
  waits := nofun
  hasCurrent := fun _ some' => absurd rfl some'
  lastKey := nofun
  count := rfl
  increasing := List.Pairwise.nil
  divided := ⟨nofun, List.Pairwise.nil, nofun⟩
  filtered := filtered_new options _
  placed := ⟨List.Pairwise.nil, nofun⟩
  finished := rfl

/-! ### Filters -/

/-- A key enters the slot of the block that is being built. -/
theorem Filtered.addKey {blocks : List DataBlock} (filtered : Filtered policy builder blocks current)
    {builder' : TableBuilder} {key : Bytes} {piece : Piece} (isPiece : piece.key = key)
    (sameOffset : builder'.offset = builder.offset)
    (isFilter : builder'.filterBlock = builder.filterBlock.map fun filter => filter.addKey key) :
    Filtered policy builder' blocks (current ++ [piece]) := by
  refine ⟨?_, fun filter member => ?_⟩
  · rw [isFilter, Option.isSome_map]
    exact filtered.isSome_iff
  · rw [isFilter] at member
    obtain ⟨old, isOld, rfl⟩ := Option.map_eq_some_iff.mp member
    obtain ⟨samePolicy, slots, holds, length, members⟩ := filtered.slots old isOld
    refine ⟨samePolicy, slots, holds.addKey key, by rw [sameOffset]; exact length,
      fun index other => ?_⟩
    have before := members index other
    rw [FilterBlockBuilder.allSlots] at before ⊢
    rw [sameOffset, List.map_append, List.map_singleton, isPiece, List.mem_append,
      List.mem_singleton, and_or_left, ← or_assoc]
    obtain less | same | more := lt_trichotomy index slots.length
    · rw [List.getElem?_append_left less] at before ⊢
      rw [before]
      exact (or_iff_left fun isLast => less.ne (isLast.1.trans length.symm)).symm
    · have last : ∀ keys : List Bytes, ((slots ++ [keys])[index]?).getD [] = keys := by
        intro keys
        rw [same, List.getElem?_concat_length, Option.getD_some]
      rw [last] at before ⊢
      rw [FilterBlockBuilder.addKey, List.mem_append, List.mem_singleton, before]
      exact or_congr_right (and_iff_right (same.trans length)).symm
    · have outside : ∀ keys : List Bytes, (slots ++ [keys])[index]? = none := by
        intro keys
        rw [List.getElem?_eq_none_iff, List.length_append, List.length_singleton]
        exact more
      rw [outside] at before ⊢
      rw [before]
      exact (or_iff_left fun isLast => more.ne' (isLast.1.trans length.symm)).symm

/-- The block that was being built is written, and the slots up to that of the next one are
filled. -/
theorem Filtered.flush {blocks : List DataBlock} (filtered : Filtered policy builder blocks current)
    {builder' : TableBuilder} {block : DataBlock} (isOffset : block.handle.offset = builder.offset)
    (isPieces : block.pieces = current) (more : builder.offset ≤ builder'.offset)
    (isFilter : builder'.filterBlock =
      builder.filterBlock.map fun filter => filter.startBlock builder'.offset) :
    Filtered policy builder' (blocks ++ [block]) [] := by
  refine ⟨?_, fun filter member => ?_⟩
  · rw [isFilter, Option.isSome_map]
    exact filtered.isSome_iff
  · rw [isFilter] at member
    obtain ⟨old, isOld, rfl⟩ := Option.map_eq_some_iff.mp member
    obtain ⟨samePolicy, slots, holds, length, members⟩ := filtered.slots old isOld
    obtain ⟨slots', holds', isLength, ⟨count, all⟩, isPolicy⟩ := holds.startBlock builder'.offset
    refine ⟨by rw [isPolicy]; exact samePolicy, slots', holds', ?_, fun index key => ?_⟩
    · rw [isLength, length]
      exact max_eq_right (Nat.div_le_div_right more)
    · have same : (((old.startBlock builder'.offset).allSlots slots')[index]?).getD [] =
          ((old.allSlots slots)[index]?).getD [] := by
        rw [all]
        obtain inside | outside := Nat.lt_or_ge index (old.allSlots slots).length
        · rw [List.getElem?_append_left inside]
        · rw [List.getElem?_append_right outside, List.getElem?_eq_none outside,
            List.getElem?_replicate]
          split
          · rfl
          · rfl
      rw [same, members, isPieces.symm]
      constructor
      · rintro (⟨other, isOther, rest⟩ | ⟨isIndex, isKey⟩)
        · exact .inl ⟨other, List.mem_append_left _ isOther, rest⟩
        · exact .inl ⟨block, List.mem_append_right _ (List.mem_singleton_self _),
            (congrArg (· / kFilterBase) isOffset).trans isIndex.symm, isKey⟩
      · rintro (⟨other, isOther, rest⟩ | ⟨-, impossible⟩)
        · rcases List.mem_append.mp isOther with isBefore | isLast
          · exact .inl ⟨other, isBefore, rest⟩
          · obtain rfl := List.mem_singleton.mp isLast
            exact .inr ⟨rest.1.symm.trans (congrArg (· / kFilterBase) isOffset), rest.2⟩
        · exact absurd impossible List.not_mem_nil

/-! ### Flushing -/

/-- A `Flush` that succeeds writes the block that is being built, if it has entries. -/
theorem Inv.flush (inv : Inv compare used policy builder entries closed pending current)
    (succeeds : builder.flush.status = none)
    (small : builder.flush.file.contents.length < 2 ^ 64) :
    ∃ pending', Inv compare used policy builder.flush entries closed pending' [] ∧
      (closed = [] → pending' = none → entries = []) := by
  obtain ⟨-, ⟨empty, same⟩ | ⟨some', file, contents, result⟩⟩ := flush_ok succeeds
  · have noPieces : current = [] := layout_eq_nil_iff.mp (inv.dataBlock.buffer ▸ empty)
    obtain rfl := noPieces
    rw [same]
    refine ⟨pending, inv, fun noneClosed notPending => ?_⟩
    rw [inv.entries_eq, noneClosed, notPending]
    rfl
  · have hasPieces : current ≠ [] := fun noPieces => some' (by
      rw [inv.dataBlock.buffer, noPieces, layout_nil])
    have notPending : pending = none := by
      refine Option.eq_none_iff_forall_ne_some.mpr fun block isBlock => ?_
      exact hasPieces (inv.waits block isBlock).1
    subst notPending
    obtain ⟨raw, isRaw⟩ : ∃ raw, raw = builder.dataBlock.finish := ⟨_, rfl⟩
    rw [← isRaw] at contents result
    have length : file.contents.length = builder.offset +
        (writtenBlock (builder.options.compressors 0) raw).length := by
      rw [contents, List.length_append, inv.offset]
    have offset : (builder.offset + (writtenBlock (builder.options.compressors 0) raw).length) %
        2 ^ 64 = file.contents.length := by
      rw [← length]
      refine Nat.mod_eq_of_lt ?_
      rw [result] at small
      exact small
    rw [offset] at result
    obtain ⟨block, isBlock⟩ : ∃ block : DataBlock, block = ⟨⟨builder.offset,
      (chooseContents (builder.options.compressors 0) raw).1.length⟩, raw, current⟩ := ⟨_, rfl⟩
    have stored : Stored used file.contents block.handle block.raw := by
      rw [isBlock, contents, inv.offset]
      exact stored_of_append inv.isUsed
    refine ⟨some block, ?_, nofun⟩
    rw [result]
    exact {
      status := rfl
      offset := rfl
      isUsed := inv.isUsed
      entries_eq := by
        rw [inv.entries_eq, isBlock]
        exact congrArg _ (List.append_nil _).symm
      written := by
        intro other member
        rcases List.mem_append.mp member with isClosed | isLast
        · obtain ⟨written, finished⟩ := inv.written other (List.mem_append_left _ isClosed)
          exact ⟨contents ▸ written.append _, List.mem_append_left _ finished⟩
        · obtain rfl := Option.some.inj (Option.mem_toList.mp isLast)
          rw [isBlock] at stored ⊢
          exact ⟨⟨⟨stored, _, inv.dataBlock, isRaw⟩, hasPieces⟩,
            List.mem_append_right _ (List.mem_singleton_self _)⟩
      dataBlock := .new
      index := inv.index
      isPending := rfl
      waits := by
        intro other isOther
        obtain rfl := Option.some.inj isOther
        rw [isBlock]
        exact ⟨rfl, rfl⟩
      hasCurrent := nofun
      lastKey := inv.lastKey
      count := inv.count
      increasing := inv.increasing
      divided := by
        refine ⟨inv.divided.atMost, inv.divided.behind, fun entry member binding isLater => ?_⟩
        have same : laterPairs (some block) [] = laterPairs none current := by
          rw [isBlock]
          exact List.append_nil _
        exact inv.divided.laterBehind entry member binding (same ▸ isLater)
      filtered := by
        have written := @Filtered.flush policy builder current (blocksOf closed none) inv.filtered
          { builder with
            file := file
            offset := file.contents.length
            filterBlock := builder.filterBlock.map fun filter => filter.startBlock file.contents.length }
          block (by rw [isBlock]) (by rw [isBlock]) (by rw [length]; exact Nat.le_add_right _ _) rfl
        rw [blocksOf, Option.toList_none, List.append_nil] at written
        exact ⟨written.isSome_iff, written.slots⟩
      placed := by
        have placed := inv.placed
        rw [blocksOf, Option.toList_none, List.append_nil] at placed
        refine (@Placed.concat _ _ placed block (by rw [isBlock])).mono ?_
        dsimp only
        rw [length]
        exact Nat.le_add_right _ _
      finished := by
        have finished := inv.finished
        rw [blocksOf, Option.toList_none, List.append_nil] at finished
        rw [blocksOf, Option.toList_some, List.map_append, ← finished, isBlock]
        rfl }

/-! ### Adding -/

theorem Inv.mem_entries (inv : Inv compare used policy builder entries closed pending current)
    {binding : Bytes × Bytes} (isLater : binding ∈ laterPairs pending current) :
    binding ∈ entries := by
  rw [inv.entries_eq]
  exact List.mem_append_right _ isLater

/-- No key that was added is greater than the last one. -/
theorem Inv.le_lastKey (inv : Inv compare used policy builder entries closed pending current)
    [Std.TransCmp compare] {binding : Bytes × Bytes} (member : binding ∈ entries) :
    (compare binding.1 builder.lastKey).isLE := by
  have some' : entries ≠ [] := List.ne_nil_of_mem member
  have isLast := inv.lastKey _ (List.getLast?_eq_some_getLast some')
  have increasing := inv.increasing
  rw [← List.dropLast_append_getLast some'] at member increasing
  rw [← isLast]
  rcases List.mem_append.mp member with isBefore | isSame
  · have less := (List.pairwise_append.mp increasing).2.2 binding isBefore _
      (List.mem_singleton_self _)
    rw [less]
    rfl
  · have same : compare (entries.getLast some').1 (entries.getLast some').1 = .eq :=
      Std.ReflCmp.compare_self
    rw [List.mem_singleton.mp isSame, same]
    rfl

/-- A key behind the last one is behind everything. -/
theorem Inv.lt_key (inv : Inv compare used policy builder entries closed pending current)
    [Std.TransCmp compare] {key : Bytes}
    (after : 0 < builder.numEntries → compare builder.lastKey key = .lt)
    {binding : Bytes × Bytes} (member : binding ∈ entries) : compare binding.1 key = .lt :=
  Std.TransCmp.lt_of_isLE_of_lt (inv.le_lastKey member)
    (after (inv.count ▸ List.length_pos_of_mem member))

/-- The separators are below it as well. -/
theorem Inv.separator_lt (inv : Inv compare used policy builder entries closed pending current)
    [Std.TransCmp compare] {key : Bytes}
    (after : 0 < builder.numEntries → compare builder.lastKey key = .lt)
    {entry : Bytes × DataBlock} (member : entry ∈ closed) : compare entry.1 key = .lt := by
  obtain ⟨binding, isLater⟩ : ∃ binding, binding ∈ laterPairs pending current := by
    refine List.exists_mem_of_ne_nil _ fun empty => ?_
    rw [laterPairs, List.append_eq_nil_iff, List.map_eq_nil_iff] at empty
    cases pending with
    | none => exact inv.hasCurrent rfl (List.ne_nil_of_mem member) empty.2
    | some block =>
      have nonempty := (inv.written block (List.mem_append_right _ (List.mem_singleton_self _))).1.nonempty
      exact nonempty (List.map_eq_nil_iff.mp empty.1)
  exact Std.TransCmp.lt_trans (inv.divided.laterBehind entry member binding isLater)
    (inv.lt_key after (inv.mem_entries isLater))

theorem addIndexEntry_of_pending (isPending : builder.pendingIndexEntry = true)
    (shorten : Bytes → Bytes) : builder.addIndexEntry shorten = { builder with
      lastKey := shorten builder.lastKey
      indexBlock := builder.indexBlock.add 1 (shorten builder.lastKey)
        builder.pendingHandle.encodeTo
      pendingIndexEntry := false } := if_pos isPending

theorem addIndexEntry_of_not_pending (notPending : builder.pendingIndexEntry = false)
    (shorten : Bytes → Bytes) : builder.addIndexEntry shorten = builder :=
  if_neg (Bool.eq_false_iff.mp notPending)

/-- The last block gets its index entry. -/
theorem Inv.index_add (inv : Inv compare used policy builder entries closed pending current)
    {block : DataBlock} (isBlock : pending = some block) (separator : Bytes) :
    ∃ pieces, (builder.indexBlock.add 1 separator builder.pendingHandle.encodeTo).Holds pieces ∧
      pieces.map Piece.binding = (closed ++ [(separator, block)]).map fun entry =>
        (entry.1, entry.2.handle.encodeTo) := by
  obtain ⟨pieces, holds, bindings⟩ := inv.index
  obtain ⟨piece, isPiece, added⟩ := holds.add 1 separator builder.pendingHandle.encodeTo
  refine ⟨pieces ++ [piece], added, ?_⟩
  rw [List.map_append, List.map_append, List.map_singleton, List.map_singleton, bindings, isPiece,
    (inv.waits block isBlock).2]

/-- A separator that is not below the last key divides the last block from what is behind it. -/
theorem Inv.divided_add (inv : Inv compare used policy builder entries closed pending current)
    [Std.TransCmp compare] {block : DataBlock} (isBlock : pending = some block) {separator : Bytes}
    (atMost : (compare builder.lastKey separator).isLE) {later : List (Bytes × Bytes)}
    (behind : ∀ entry ∈ closed ++ [(separator, block)], ∀ binding ∈ later,
      compare entry.1 binding.1 = .lt) : Divided compare (closed ++ [(separator, block)]) later := by
  have isLater : ∀ binding ∈ block.bindings, binding ∈ laterPairs pending current := by
    intro binding member
    rw [isBlock]
    exact List.mem_append_left _ member
  refine ⟨fun entry member binding inBlock => ?_, ?_, behind⟩
  · rcases List.mem_append.mp member with isOld | isNew
    · exact inv.divided.atMost entry isOld binding inBlock
    · obtain rfl := List.mem_singleton.mp isNew
      exact Std.TransCmp.isLE_trans (inv.le_lastKey (inv.mem_entries (isLater binding inBlock))) atMost
  · refine List.pairwise_append.mpr ⟨inv.divided.behind, List.pairwise_singleton _ _,
      fun entry member last isLast binding inBlock => ?_⟩
    rw [List.mem_singleton.mp isLast] at inBlock
    exact inv.divided.laterBehind entry member binding (isLater binding inBlock)

variable {comparators : Nat → Comparator} {key value : Bytes}

/-- The state after `Add`, up to the check of the size. -/
theorem Inv.addEntry (inv : Inv compare used policy builder entries closed pending current)
    (sound : (comparators builder.options.comparator).Sound)
    (isCompare : (comparators builder.options.comparator).compare = compare)
    (after : 0 < builder.numEntries → compare builder.lastKey key = .lt) :
    ∃ closed' current', Inv compare used policy (builder.addEntry comparators key value)
      (entries ++ [(key, value)]) closed' none current' := by
  have trans : Std.TransCmp compare := isCompare ▸ sound.trans
  have less : ∀ binding ∈ entries, compare binding.1 key = .lt := fun binding member =>
    inv.lt_key after member
  have increasing : (entries ++ [(key, value)]).Pairwise
      fun first second => compare first.1 second.1 = .lt := by
    refine List.pairwise_append.mpr ⟨inv.increasing, List.pairwise_singleton _ _,
      fun binding member last isLast => ?_⟩
    rw [List.mem_singleton.mp isLast]
    exact less binding member
  obtain ⟨piece, isPiece, holds⟩ := inv.dataBlock.add builder.options.blockRestartInterval key value
  have isKey : piece.key = key := congrArg Prod.fst isPiece
  have pairs : (current ++ [piece]).map Piece.binding =
      current.map Piece.binding ++ [(key, value)] := by
    rw [List.map_append, List.map_singleton, isPiece]
  cases pending with
  | none =>
    have notPending : builder.pendingIndexEntry = false := inv.isPending
    have added : builder.addEntry comparators key value = { builder with
        filterBlock := builder.filterBlock.map fun filter => filter.addKey key
        lastKey := key
        numEntries := builder.numEntries + 1
        dataBlock := builder.dataBlock.add builder.options.blockRestartInterval key value } := by
      rw [TableBuilder.addEntry, addIndexEntry_of_not_pending notPending]
    refine ⟨closed, current ++ [piece], ?_⟩
    rw [added]
    exact { inv with
      entries_eq := by
        rw [inv.entries_eq, List.append_assoc, laterPairs, laterPairs, pairs, List.append_assoc]
      dataBlock := holds
      waits := nofun
      hasCurrent := fun _ _ => List.append_ne_nil_of_right_ne_nil _ (List.cons_ne_nil _ _)
      lastKey := by
        intro binding isLast
        rw [List.getLast?_concat] at isLast
        exact congrArg Prod.fst (Option.some.inj isLast).symm
      count := by
        rw [List.length_append, List.length_singleton]
        exact congrArg (· + 1) inv.count
      increasing := increasing
      divided := by
        refine ⟨inv.divided.atMost, inv.divided.behind, fun entry member binding isLater => ?_⟩
        rw [laterPairs, pairs, ← List.append_assoc] at isLater
        rcases List.mem_append.mp isLater with isOld | isNew
        · exact inv.divided.laterBehind entry member binding isOld
        · rw [List.mem_singleton.mp isNew]
          exact inv.separator_lt after member
      filtered := inv.filtered.addKey isKey rfl rfl }
  | some block =>
    have isPending : builder.pendingIndexEntry = true := inv.isPending
    obtain ⟨separator, isSeparator⟩ : ∃ separator, separator =
      (comparators builder.options.comparator).findShortestSeparator builder.lastKey key := ⟨_, rfl⟩
    have added : builder.addEntry comparators key value = { builder with
        indexBlock := builder.indexBlock.add 1 separator builder.pendingHandle.encodeTo
        pendingIndexEntry := false
        filterBlock := builder.filterBlock.map fun filter => filter.addKey key
        lastKey := key
        numEntries := builder.numEntries + 1
        dataBlock := builder.dataBlock.add builder.options.blockRestartInterval key value } := by
      rw [TableBuilder.addEntry, addIndexEntry_of_pending isPending, isSeparator]
    have written := inv.written block (List.mem_append_right _ (List.mem_singleton_self _))
    have positive : 0 < builder.numEntries := by
      obtain ⟨piece, member⟩ := List.exists_mem_of_ne_nil _ written.1.nonempty
      rw [inv.count]
      exact List.length_pos_of_mem (inv.mem_entries
        (List.mem_append_left _ (List.mem_map_of_mem member)))
    have atMost : (compare builder.lastKey separator).isLE := by
      rw [isSeparator, ← isCompare]
      exact sound.start_le _ _ (isCompare.symm ▸ after positive)
    have below : compare separator key = .lt := by
      rw [isSeparator, ← isCompare]
      exact sound.lt_limit _ _ (isCompare.symm ▸ after positive)
    have noCurrent : current = [] := (inv.waits block rfl).1
    subst noCurrent
    have sameBlocks : blocksOf (closed ++ [(separator, block)]) none =
        blocksOf closed (some block) := by
      rw [blocksOf, blocksOf, List.map_append]
      exact List.append_nil _
    refine ⟨closed ++ [(separator, block)], [piece], ?_⟩
    rw [added]
    exact { inv with
      entries_eq := by
        rw [inv.entries_eq, List.flatMap_append, List.flatMap_singleton, laterPairs, laterPairs,
          List.map_singleton, isPiece, List.append_assoc]
        simp
      written := by
        rw [sameBlocks]
        exact inv.written
      dataBlock := holds
      index := inv.index_add rfl separator
      isPending := rfl
      waits := nofun
      hasCurrent := fun _ _ => List.cons_ne_nil _ _
      lastKey := by
        intro binding isLast
        rw [List.getLast?_concat] at isLast
        exact congrArg Prod.fst (Option.some.inj isLast).symm
      count := by
        rw [List.length_append, List.length_singleton]
        exact congrArg (· + 1) inv.count
      increasing := increasing
      divided := by
        refine inv.divided_add rfl atMost fun entry member binding isLater => ?_
        have isKeyPair : binding = (key, value) :=
          (List.mem_singleton.mp isLater).trans isPiece
        rw [isKeyPair]
        rcases List.mem_append.mp member with isOld | isNew
        · exact inv.separator_lt after isOld
        · rw [List.mem_singleton.mp isNew]
          exact below
      filtered := by
        rw [sameBlocks]
        exact inv.filtered.addKey isKey rfl rfl
      placed := by
        rw [sameBlocks]
        exact inv.placed
      finished := by
        rw [sameBlocks]
        exact inv.finished }

/-! ### Runs -/

/-- A `Flush` only adds to the file. -/
theorem flush_grows (succeeds : builder.flush.status = none) :
    builder.status = none ∧ builder.file.contents <+: builder.flush.file.contents ∧
      builder.flush.options = builder.options := by
  obtain ⟨isOk, ⟨-, same⟩ | ⟨-, file, contents, result⟩⟩ := flush_ok succeeds
  · rw [same]
    exact ⟨isOk, List.prefix_refl _, rfl⟩
  · rw [result]
    exact ⟨isOk, ⟨_, contents.symm⟩, rfl⟩

theorem addEntry_eq (comparators : Nat → Comparator) (builder : TableBuilder) (key value : Bytes) :
    (builder.addEntry comparators key value).status = builder.status ∧
      (builder.addEntry comparators key value).file = builder.file ∧
      (builder.addEntry comparators key value).options = builder.options := by
  rw [TableBuilder.addEntry]
  cases isPending : builder.pendingIndexEntry with
  | true =>
    rw [addIndexEntry_of_pending isPending]
    exact ⟨rfl, rfl, rfl⟩
  | false =>
    rw [addIndexEntry_of_not_pending isPending]
    exact ⟨rfl, rfl, rfl⟩

theorem add_of_ok (isOk : builder.status = none) : builder.add comparators key value =
    if (builder.addEntry comparators key value).dataBlock.currentSizeEstimate ≥
        (builder.addEntry comparators key value).options.blockSize then
      (builder.addEntry comparators key value).flush
    else builder.addEntry comparators key value := by
  rw [add, if_neg (not_not.mpr isOk)]

/-- What a call adds. -/
def addedBy : Call → List (Bytes × Bytes)
  | .add key value => [(key, value)]
  | .flush => []
  | .changeOptions _ => []

theorem added_cons (call : Call) (rest : List Call) : added (call :: rest) = addedBy call ++ added rest := by
  cases call <;> rfl

/-- The compressors of the options that a call brings are among those that may be used. -/
def Call.Uses (used : Compressor → Prop) : Call → Prop
  | .changeOptions options => ∀ compressor ∈ options.compressors 0, used compressor
  | _ => True

/-- A call after which the status is OK started with it, and only added to the file. -/
theorem step_grows {builder' : TableBuilder} {call : Call}
    (taken : builder.step comparators call = some builder') (succeeds : builder'.status = none) :
    builder.status = none ∧ builder.file.contents <+: builder'.file.contents ∧
      builder'.options.comparator = builder.options.comparator := by
  cases call with
  | add key value =>
    obtain ⟨-, result⟩ := Option.ite_none_left_eq_some.mp taken
    obtain rfl := Option.some.inj result
    by_cases isOk : builder.status = none
    · obtain ⟨-, sameFile, sameOptions⟩ := addEntry_eq comparators builder key value
      rw [add_of_ok isOk] at succeeds ⊢
      split at succeeds
      · next isFull =>
        obtain ⟨-, isPrefix, options⟩ := flush_grows succeeds
        rw [if_pos isFull]
        exact ⟨isOk, sameFile ▸ isPrefix, by rw [options, sameOptions]⟩
      · next notFull =>
        rw [if_neg notFull, sameFile, sameOptions]
        exact ⟨isOk, List.prefix_refl _, rfl⟩
    · rw [add, if_pos isOk] at succeeds
      exact absurd succeeds isOk
  | flush =>
    obtain rfl := Option.some.inj taken
    obtain ⟨isOk, isPrefix, options⟩ := flush_grows succeeds
    exact ⟨isOk, isPrefix, congrArg Options.comparator options⟩
  | changeOptions options =>
    rw [step, changeOptions] at taken
    split_ifs at taken with different
    obtain rfl := Option.some.inj taken
    exact ⟨succeeds, List.prefix_refl _, not_not.mp different⟩

/-- Every call keeps the invariant, as long as it succeeds. -/
theorem Inv.step (inv : Inv compare used policy builder entries closed pending current)
    (sound : (comparators builder.options.comparator).Sound)
    (isCompare : (comparators builder.options.comparator).compare = compare)
    {call : Call} (uses : call.Uses used) {builder' : TableBuilder}
    (taken : builder.step comparators call = some builder') (succeeds : builder'.status = none)
    (small : builder'.file.contents.length < 2 ^ 64) :
    ∃ closed' pending' current',
      Inv compare used policy builder' (entries ++ addedBy call) closed' pending' current' := by
  cases call with
  | add key value =>
    obtain ⟨ordered, result⟩ := Option.ite_none_left_eq_some.mp taken
    obtain rfl := Option.some.inj result
    have trans : Std.TransCmp compare := isCompare ▸ sound.trans
    have after : 0 < builder.numEntries → compare builder.lastKey key = .lt := by
      intro positive
      rw [isCompare] at ordered
      by_contra notLess
      exact ordered ⟨inv.status, positive, fun greater =>
        notLess (Std.OrientedCmp.gt_iff_lt.mp greater)⟩
    obtain ⟨closed', current', inv'⟩ : ∃ closed' current', Inv compare used policy
        (builder.addEntry comparators key value) (entries ++ [(key, value)]) closed' none current' :=
      inv.addEntry sound isCompare after
    rw [add_of_ok inv.status] at succeeds small ⊢
    split at succeeds
    · next isFull =>
      rw [if_pos isFull] at small ⊢
      obtain ⟨pending', flushed, -⟩ := inv'.flush succeeds small
      exact ⟨closed', pending', [], flushed⟩
    · next notFull =>
      rw [if_neg notFull]
      exact ⟨closed', none, current', inv'⟩
  | flush =>
    obtain rfl := Option.some.inj taken
    obtain ⟨pending', flushed, -⟩ := inv.flush succeeds small
    rw [addedBy, List.append_nil]
    exact ⟨closed, pending', [], flushed⟩
  | changeOptions options =>
    rw [TableBuilder.step, changeOptions] at taken
    split_ifs at taken with different
    obtain rfl := Option.some.inj taken
    rw [addedBy, List.append_nil]
    exact ⟨closed, pending, current, { inv with
      isUsed := uses
      filtered := ⟨inv.filtered.isSome_iff, inv.filtered.slots⟩ }⟩

/-- A run that ends with an OK status only added to the file. -/
theorem run_grows {calls : List Call} {last : TableBuilder}
    (reached : calls.foldlM (TableBuilder.step comparators) builder = some last)
    (succeeds : last.status = none) :
    builder.status = none ∧ builder.file.contents <+: last.file.contents ∧
      last.options.comparator = builder.options.comparator := by
  induction calls generalizing builder with
  | nil =>
    obtain rfl := Option.some.inj reached
    exact ⟨succeeds, List.prefix_refl _, rfl⟩
  | cons call rest inductionHypothesis =>
    rw [List.foldlM_cons] at reached
    obtain ⟨next, taken, later⟩ := Option.bind_eq_some_iff.mp reached
    obtain ⟨nextOk, laterPrefix, sameLater⟩ := inductionHypothesis later
    obtain ⟨isOk, isPrefix, same⟩ := step_grows taken nextOk
    exact ⟨isOk, isPrefix.trans laterPrefix, sameLater.trans same⟩

/-- A run that ends with an OK status keeps the invariant. -/
theorem Inv.run (inv : Inv compare used policy builder entries closed pending current)
    (sound : (comparators builder.options.comparator).Sound)
    (isCompare : (comparators builder.options.comparator).compare = compare)
    {calls : List Call} (uses : ∀ call ∈ calls, call.Uses used) {last : TableBuilder}
    (reached : calls.foldlM (TableBuilder.step comparators) builder = some last)
    (succeeds : last.status = none) (small : last.file.contents.length < 2 ^ 64) :
    ∃ closed' pending' current',
      Inv compare used policy last (entries ++ added calls) closed' pending' current' := by
  induction calls generalizing builder entries closed pending current with
  | nil =>
    obtain rfl := Option.some.inj reached
    rw [added, List.append_nil]
    exact ⟨closed, pending, current, inv⟩
  | cons call rest inductionHypothesis =>
    rw [List.foldlM_cons] at reached
    obtain ⟨next, taken, later⟩ := Option.bind_eq_some_iff.mp reached
    obtain ⟨nextOk, laterPrefix, -⟩ := run_grows later succeeds
    obtain ⟨-, -, sameComparator⟩ := step_grows taken nextOk
    obtain ⟨closed', pending', current', inv'⟩ := inv.step sound isCompare
      (uses call List.mem_cons_self) taken nextOk (laterPrefix.length_le.trans_lt small)
    rw [added_cons, ← List.append_assoc]
    exact inductionHypothesis inv' (sameComparator ▸ sound) (sameComparator ▸ isCompare)
      (fun other member => uses other (List.mem_cons_of_mem _ member)) later

end TableBuilder

end LevelDb.Sst
