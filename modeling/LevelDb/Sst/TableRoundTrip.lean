/-
This file proves what a table gives back that a builder wrote. The iterator over it is a cursor over
the pairs that were added, whatever options changed between the calls. A lookup finds an added key
unless the filter turns it away: the filters are those of the policy the builder started with, and
the reader asks the policy whose name the builder wrote last.
-/

import LevelDb.ByteKeys
import LevelDb.Sst.BuiltTable
import LevelDb.Sst.FilterRuns

namespace LevelDb.Sst

open Lib

/-! ### Keys that were added -/

/-- The first pair that is not less than a pair of a list is the pair itself. -/
theorem find?_notLess_eq {compare : Bytes → Bytes → Ordering} [Std.TransCmp compare]
    {entries : List (Bytes × Bytes)}
    (increasing : entries.Pairwise fun first second => compare first.1 second.1 = .lt)
    {binding : Bytes × Bytes} (member : binding ∈ entries) :
    (entries.find? fun other => compare other.1 binding.1 ≠ .lt) = some binding := by
  obtain ⟨front, back, rfl⟩ := List.append_of_mem member
  have reflexive : compare binding.1 binding.1 = .eq := Std.ReflCmp.compare_self
  have before : (front.find? fun other => compare other.1 binding.1 ≠ .lt) = none := by
    refine List.find?_eq_none.mpr fun other isBefore => ?_
    have less := (List.pairwise_append.mp increasing).2.2 other isBefore binding
      List.mem_cons_self
    simp [less]
  rw [List.find?_append, before, Option.none_or]
  exact List.find?_cons_of_pos (by simp [reflexive])

namespace TableFile.ReadIn

variable {parts : TableFile} {comparator : Comparator} {policy : Option FilterPolicy}
  {entries : List (Bytes × Bytes)} {final : TableBuilder} {file : RandomAccessFile}
  {options : Options}

/-- The index points to the block of a key. -/
theorem blockOf_eq
    (readIn : parts.ReadIn comparator options.compressors policy entries final file)
    {entry : Bytes × DataBlock} (isBlock : entry ∈ parts.blocks) {binding : Bytes × Bytes}
    (inBlock : binding ∈ entry.2.bindings) :
    parts.blockOf comparator.compare binding.1 = some entry.2 := by
  have := readIn.sound.trans
  have atMost := readIn.holds.divided.atMost entry isBlock binding inBlock
  have behind := readIn.holds.divided.behind
  obtain ⟨front, back, isBlocks⟩ := List.append_of_mem isBlock
  rw [isBlocks] at behind
  have before : (front.find? fun other => comparator.compare other.1 binding.1 ≠ .lt) = none := by
    refine List.find?_eq_none.mpr fun other isBefore => ?_
    have less := (List.pairwise_append.mp behind).2.2 other isBefore entry List.mem_cons_self
      binding inBlock
    simp [less]
  have notLess : comparator.compare entry.1 binding.1 ≠ .lt := by
    intro less
    have strict := Std.TransCmp.lt_of_isLE_of_lt atMost less
    have reflexive : comparator.compare binding.1 binding.1 = .eq := Std.ReflCmp.compare_self
    rw [reflexive] at strict
    cases strict
  have found : (parts.blocks.find? fun other => comparator.compare other.1 binding.1 ≠ .lt) =
      some entry := by
    rw [isBlocks, List.find?_append, before, Option.none_or]
    exact List.find?_cons_of_pos (decide_eq_true notLess)
  rw [blockOf, found]
  rfl

/-- A lookup finds a key that was added, unless the filter turns it away. -/
theorem internalGet_added
    (readIn : parts.ReadIn comparator options.compressors policy entries final file)
    {comparators : Nat → Comparator} (isComparator : comparators options.comparator = comparator)
    (cacheId : Nat) (readOptions : ReadOptions) {entry : Bytes × DataBlock}
    (isBlock : entry ∈ parts.blocks) {binding : Bytes × Bytes}
    (inBlock : binding ∈ entry.2.bindings) :
    (parts.opened final.options.filterPolicy options file cacheId).internalGet comparators
        readOptions binding.1 =
      .ok (none, if (parts.openedFilter final.options.filterPolicy options.filterPolicy).any
        fun filter => !filter.keyMayMatch entry.2.handle.offset binding.1 then none
          else some binding) := by
  have := readIn.sound.trans
  rw [readIn.internalGet_eq rfl rfl rfl isComparator, readIn.blockOf_eq isBlock inBlock,
    Option.bind_some, find?_notLess_eq (readIn.increasing_block isBlock) inBlock]
  rfl

theorem exists_block
    (readIn : parts.ReadIn comparator options.compressors policy entries final file)
    {binding : Bytes × Bytes} (isAdded : binding ∈ entries) :
    ∃ entry ∈ parts.blocks, binding ∈ entry.2.bindings := by
  rw [readIn.holds.entries_eq] at isAdded
  exact List.mem_flatMap.mp isAdded

theorem mem_entries
    (readIn : parts.ReadIn comparator options.compressors policy entries final file)
    {entry : Bytes × DataBlock} (isBlock : entry ∈ parts.blocks) {binding : Bytes × Bytes}
    (inBlock : binding ∈ entry.2.bindings) : binding ∈ entries := by
  rw [readIn.holds.entries_eq]
  exact List.mem_flatMap.mpr ⟨entry, isBlock, inBlock⟩

/-! ### Filters -/

/-- A reader of the filter block asks its policy about the filter of the slot of a block, which was
made of keys among which are those of the block. -/
theorem keyMayMatch_eq
    (readIn : parts.ReadIn comparator options.compressors policy entries final file)
    (smallFilter : parts.SmallFilter) {part : FilterPart} (isPart : part ∈ parts.filter)
    (reading : FilterPolicy)
    {entry : Bytes × DataBlock} (isBlock : entry ∈ parts.blocks) {binding : Bytes × Bytes}
    (inBlock : binding ∈ entry.2.bindings) :
    ∃ keys ∈ part.builder.finishKeys.made, binding.1 ∈ keys ∧ ∀ key,
      (FilterBlockReader.new reading part.builder.finish).keyMayMatch entry.2.handle.offset key =
        reading.keyMayMatch key (slotFilter part.builder.policy keys) := by
  have hasFilter := readIn.holds.filter part isPart
  have fits := smallFilter part isPart
  have isKey : binding.1 ∈ entry.2.pieces.map Piece.key := by
    obtain ⟨piece, isPiece, rfl⟩ := List.mem_map.mp inBlock
    exact List.mem_map_of_mem isPiece
  have inSlot := (hasFilter.mem_slot_iff _ _).mpr ⟨entry, isBlock, rfl, isKey⟩
  cases found : (part.builder.finalSlots part.slots)[entry.2.handle.offset / kFilterBase]? with
  | none =>
    rw [found] at inSlot
    exact absurd inSlot List.not_mem_nil
  | some keys =>
    rw [found] at inSlot
    refine ⟨keys, ?_, inSlot, fun key => ?_⟩
    · rw [hasFilter.holds.finishKeys.1.made]
      exact List.mem_filter.mpr ⟨List.mem_of_getElem? found,
        decide_eq_true (List.ne_nil_of_mem inSlot)⟩
    · rw [FilterBlockReader.keyMayMatch_finish hasFilter.holds fits, found]

/-- Every key that a filter was made of was added, in a block of the slot of the filter. -/
theorem exists_block_of_made
    (readIn : parts.ReadIn comparator options.compressors policy entries final file)
    (smallFilter : parts.SmallFilter) {part : FilterPart} (isPart : part ∈ parts.filter)
    {keys : List Bytes}
    (made : keys ∈ part.builder.finishKeys.made) {key : Bytes} (isKey : key ∈ keys) :
    ∃ entry ∈ parts.blocks, ∃ binding ∈ entry.2.bindings, binding.1 = key ∧
      ∀ reading : FilterPolicy,
        (FilterBlockReader.new reading part.builder.finish).keyMayMatch entry.2.handle.offset key =
          reading.keyMayMatch key (slotFilter part.builder.policy keys) := by
  have hasFilter := readIn.holds.filter part isPart
  have fits := smallFilter part isPart
  rw [hasFilter.holds.finishKeys.1.made] at made
  obtain ⟨slot, found⟩ := List.mem_iff_getElem?.mp (List.mem_filter.mp made).1
  have inSlot : key ∈ ((part.builder.finalSlots part.slots)[slot]?).getD [] := by
    rw [found]
    exact isKey
  obtain ⟨entry, isBlock, isSlot, inBlock⟩ := (hasFilter.mem_slot_iff _ _).mp inSlot
  obtain ⟨piece, isPiece, rfl⟩ := List.mem_map.mp inBlock
  refine ⟨entry, isBlock, piece.binding, List.mem_map_of_mem isPiece, rfl, fun reading => ?_⟩
  rw [FilterBlockReader.keyMayMatch_finish hasFilter.holds fits, isSlot, found]

/-- Every lookup of an added key finds it exactly when the policy that reads the filters matches the
keys that they were made of. -/
theorem finds_added_iff
    (readIn : parts.ReadIn comparator options.compressors policy entries final file)
    (smallFilter : parts.SmallFilter) {comparators : Nat → Comparator}
    (isComparator : comparators options.comparator = comparator)
    (lastPolicy : options.filterPolicy = final.options.filterPolicy) (cacheId : Nat)
    (readOptions : ReadOptions) :
    (∀ binding ∈ entries, (parts.opened final.options.filterPolicy options file
        cacheId).internalGet comparators readOptions binding.1 = .ok (none, some binding)) ↔
      ∀ filter ∈ final.filterBlock, ∀ last ∈ options.filterPolicy,
        ∀ keys ∈ filter.finishKeys.made, ∀ key ∈ keys,
          last.keyMayMatch key (slotFilter filter.policy keys) = true := by
  have isFilterBlock := readIn.holds.filterBlock
  refine ⟨fun finds filter isFilter last isLast keys made key isKey => ?_,
    fun matches' binding isAdded => ?_⟩
  · rw [isFilterBlock] at isFilter
    obtain ⟨part, isPart, rfl⟩ := Option.map_eq_some_iff.mp isFilter
    obtain ⟨entry, isBlock, binding, inBlock, rfl, reads⟩ :=
      readIn.exists_block_of_made smallFilter isPart made isKey
    have found := finds binding (readIn.mem_entries isBlock inBlock)
    have isOpened : parts.openedFilter final.options.filterPolicy options.filterPolicy =
        some (.new last part.builder.finish) := by
      have isPart : parts.filter = some part := isPart
      have isLast : options.filterPolicy = some last := isLast
      unfold openedFilter
      rw [isPart, ← lastPolicy, isLast]
      exact if_pos rfl
    rw [readIn.internalGet_added isComparator cacheId readOptions isBlock inBlock, isOpened,
      Option.any_some, reads] at found
    by_contra turned
    rw [Bool.eq_false_iff.mpr turned] at found
    cases found
  · obtain ⟨entry, isBlock, inBlock⟩ := readIn.exists_block isAdded
    rw [readIn.internalGet_added isComparator cacheId readOptions isBlock inBlock]
    have kept : (parts.openedFilter final.options.filterPolicy options.filterPolicy).any
        (fun filter => !filter.keyMayMatch entry.2.handle.offset binding.1) = false := by
      unfold openedFilter
      cases isPart : parts.filter with
      | none => rfl
      | some part =>
        rw [← lastPolicy]
        cases isLast : options.filterPolicy with
        | none => rfl
        | some last =>
          obtain ⟨keys, made, isKey, reads⟩ :=
            readIn.keyMayMatch_eq smallFilter isPart last isBlock inBlock
          have isFilter : part.builder ∈ final.filterBlock := by
            rw [isFilterBlock, isPart]
            exact rfl
          dsimp only
          rw [if_pos rfl, Option.any_some, reads,
            matches' part.builder isFilter last isLast keys made binding.1 isKey]
          rfl
    rw [kept]
    rfl

end TableFile.ReadIn

/-! ### Building without failures -/

namespace TableBuilder

variable {builder : TableBuilder} {comparators : Nat → Comparator}

/-- Nothing failed, and no call of the file is going to. -/
structure Clean (builder : TableBuilder) : Prop where
  status : builder.status = none
  outcomes : builder.file.outcomes = []

/-- One builder has the options, the last key and a filter block where another has. -/
structure Like (builder other : TableBuilder) : Prop where
  options : builder.options = other.options
  lastKey : builder.lastKey = other.lastKey
  filterBlock : builder.filterBlock.isSome = other.filterBlock.isSome

theorem Like.trans {first second third : TableBuilder} (one : first.Like second)
    (two : second.Like third) : first.Like third :=
  ⟨one.options.trans two.options, one.lastKey.trans two.lastKey,
    one.filterBlock.trans two.filterBlock⟩

theorem append_clean {file : WritableFile} (noOutcomes : file.outcomes = []) (data : Bytes) :
    file.append data = (none, ⟨file.contents ++ data, []⟩) := by
  rw [WritableFile.append]
  split
  · rfl
  · next more => exact absurd (noOutcomes.symm.trans more) (List.cons_ne_nil _ _).symm
  · next more => exact absurd (noOutcomes.symm.trans more) (List.cons_ne_nil _ _).symm

theorem writeRawBlock_clean (clean : builder.Clean) (contents : Bytes)
    (compressor : Option Compressor) :
    (builder.writeRawBlock contents compressor).2.Clean ∧
      (builder.writeRawBlock contents compressor).2.Like builder := by
  rw [writeRawBlock, append_clean clean.outcomes]
  dsimp only
  rw [if_pos rfl, append_clean rfl]
  exact ⟨⟨rfl, rfl⟩, ⟨rfl, rfl, rfl⟩⟩

theorem writeBlock_clean (clean : builder.Clean) (raw : Bytes) :
    (builder.writeBlock raw).2.Clean ∧ (builder.writeBlock raw).2.Like builder := by
  obtain ⟨written, like⟩ := @writeRawBlock_clean
    { builder with finished := builder.finished ++ [raw] } ⟨clean.status, clean.outcomes⟩
    (chooseContents (builder.options.compressors 0) raw).1
    (chooseContents (builder.options.compressors 0) raw).2
  exact ⟨written, like.options, like.lastKey, like.filterBlock⟩

theorem flush_clean (clean : builder.Clean) : builder.flush.Clean ∧ builder.flush.Like builder := by
  rw [flush, if_neg (not_not.mpr clean.status)]
  split
  · exact ⟨clean, ⟨rfl, rfl, rfl⟩⟩
  · obtain ⟨written, like⟩ := writeBlock_clean clean builder.dataBlock.finish
    generalize builder.writeBlock builder.dataBlock.finish = result at written like
    obtain ⟨handle, after⟩ := result
    dsimp only at written like ⊢
    rw [if_pos written.status, WritableFile.flush, written.outcomes]
    exact ⟨⟨rfl, written.outcomes⟩, like.options, like.lastKey,
      (Option.isSome_map ..).trans like.filterBlock⟩

theorem addIndexEntry_clean (clean : builder.Clean) (shorten : Bytes → Bytes) :
    (builder.addIndexEntry shorten).Clean ∧
      (builder.addIndexEntry shorten).options = builder.options ∧
      (builder.addIndexEntry shorten).filterBlock = builder.filterBlock := by
  rw [addIndexEntry]
  split
  · exact ⟨⟨clean.status, clean.outcomes⟩, rfl, rfl⟩
  · exact ⟨clean, rfl, rfl⟩

theorem add_clean (clean : builder.Clean) (key value : Bytes) :
    (builder.add comparators key value).Clean ∧
      (builder.add comparators key value).options = builder.options ∧
      (builder.add comparators key value).lastKey = key ∧
      (builder.add comparators key value).filterBlock.isSome = builder.filterBlock.isSome := by
  have added : (builder.addEntry comparators key value).Clean ∧
      (builder.addEntry comparators key value).options = builder.options ∧
      (builder.addEntry comparators key value).lastKey = key ∧
      (builder.addEntry comparators key value).filterBlock.isSome = builder.filterBlock.isSome := by
    obtain ⟨indexed, options, filterBlock⟩ := addIndexEntry_clean clean fun lastKey =>
      (comparators builder.options.comparator).findShortestSeparator lastKey key
    rw [addEntry]
    dsimp only
    refine ⟨⟨indexed.status, indexed.outcomes⟩, options, rfl, ?_⟩
    rw [Option.isSome_map, filterBlock]
  rw [add_of_ok clean.status]
  split
  · obtain ⟨flushed, like⟩ := flush_clean added.1
    exact ⟨flushed, like.options.trans added.2.1, like.lastKey.trans added.2.2.1,
      like.filterBlock.trans added.2.2.2⟩
  · exact added

/-- Pairs whose keys increase are added. -/
theorem adds_clean {entries : List (Bytes × Bytes)} (clean : builder.Clean)
    (trans : Std.TransCmp (comparators builder.options.comparator).compare)
    (increasing : entries.Pairwise fun first second =>
      (comparators builder.options.comparator).compare first.1 second.1 = .lt)
    (behind : 0 < builder.numEntries → ∀ entry ∈ entries,
      (comparators builder.options.comparator).compare builder.lastKey entry.1 = .lt) :
    ∃ last, (entries.map fun entry => Call.add entry.1 entry.2).foldlM (step comparators) builder =
        some last ∧ last.Clean ∧ last.options = builder.options ∧
      last.filterBlock.isSome = builder.filterBlock.isSome := by
  induction entries generalizing builder with
  | nil => exact ⟨builder, rfl, clean, rfl, rfl⟩
  | cons entry rest inductionHypothesis =>
    obtain ⟨isFirst, later⟩ := List.pairwise_cons.mp increasing
    obtain ⟨added, options, lastKey, filterBlock⟩ :=
      @add_clean builder comparators clean entry.1 entry.2
    have taken : builder.step comparators (.add entry.1 entry.2) =
        some (builder.add comparators entry.1 entry.2) := by
      rw [step, if_neg]
      rintro ⟨-, positive, notBehind⟩
      exact notBehind (Std.OrientedCmp.gt_iff_lt.mpr (behind positive entry List.mem_cons_self))
    obtain ⟨last, reached, isClean, sameOptions, sameFilter⟩ := inductionHypothesis added
      (options ▸ trans) (options ▸ later) fun _ other member => by
        rw [options, lastKey]
        exact isFirst other member
    refine ⟨last, ?_, isClean, sameOptions.trans options, sameFilter.trans filterBlock⟩
    rw [List.map_cons, List.foldlM_cons, taken]
    exact reached

/-- `Finish` succeeds when nothing fails and the filter policy has a name. -/
theorem finish_clean (clean : builder.Clean)
    (named : builder.filterBlock.isSome = true → builder.options.filterPolicy.isSome = true) :
    ∃ final, builder.finish comparators = .ok final ∧ final.status = none := by
  obtain ⟨flushed, likeFlushed⟩ := flush_clean clean
  obtain ⟨filtered, likeFiltered⟩ : builder.flush.finishFilter.2.Clean ∧
      builder.flush.finishFilter.2.Like builder.flush := by
    cases isFilter : builder.flush.filterBlock with
    | none =>
      rw [finishFilter_none flushed.status isFilter]
      exact ⟨flushed, rfl, rfl, rfl⟩
    | some filter =>
      rw [finishFilter_of_filter flushed.status isFilter]
      obtain ⟨written, like⟩ := @writeRawBlock_clean
        { builder.flush with finished := builder.flush.finished ++ [filter.finish] }
        ⟨flushed.status, flushed.outcomes⟩ filter.finish none
      exact ⟨written, like.options, like.lastKey, like.filterBlock.trans (by rw [isFilter])⟩
  have like := likeFiltered.trans likeFlushed
  obtain ⟨raw, isRaw⟩ : ∃ raw, builder.flush.finishFilter.2.metaindexContents
      builder.flush.finishFilter.1 = .ok raw := by
    rw [metaindexContents]
    split
    · exact ⟨_, rfl⟩
    · next isFilter noPolicy =>
      have isSome := named (like.filterBlock.symm.trans (by rw [isFilter]; rfl))
      rw [← like.options, noPolicy] at isSome
      cases isSome
    · exact ⟨_, rfl⟩
  obtain ⟨described, -⟩ := writeBlock_clean filtered raw
  rw [finish]
  generalize builder.flush.finishFilter = filteredResult at filtered isRaw described
  obtain ⟨filterHandle, afterFilter⟩ := filteredResult
  dsimp only [bind, Except.bind] at isRaw described ⊢
  rw [finishMetaindex, if_pos filtered.status, isRaw]
  dsimp only [Except.map]
  generalize afterFilter.writeBlock raw = describedResult at described
  obtain ⟨metaindexHandle, afterMeta⟩ := describedResult
  dsimp only at described ⊢
  obtain ⟨withEntry, -⟩ := addIndexEntry_clean described
    (comparators afterMeta.options.comparator).findShortSuccessor
  obtain ⟨indexed, -⟩ := writeBlock_clean withEntry (afterMeta.addIndexEntry
    (comparators afterMeta.options.comparator).findShortSuccessor).indexBlock.finish
  rw [finishIndex, if_pos described.status]
  dsimp only
  refine ⟨_, rfl, ?_⟩
  rw [finishFooter, if_pos indexed.status, append_clean indexed.outcomes]
  rfl

end TableBuilder

/-! ### Options that change -/

/-- A table that was built with changing options and is opened with the last filter policy gives
back the pairs that were added by iteration, and it finds every added key exactly when the last
policy matches the keys against the filters that the first policy made of them. -/
theorem changed_options_readable_iff {comparators : Nat → Comparator} {build : TableBuild}
    {options : Options} {file : RandomAccessFile} (readBy : build.ReadBy comparators options file)
    (lastPolicy : options.filterPolicy = build.final.options.filterPolicy) (cacheId : Nat)
    (readOptions : ReadOptions) {rounds : Nat} (enough : build.entries.length < rounds) :
    (∃ table, Table.openFile options file build.contents.length cacheId = .ok (.ok table) ∧
      table.Iterates comparators readOptions rounds build.entries ∧
      ∀ binding ∈ build.entries,
        table.internalGet comparators readOptions binding.1 = .ok (none, some binding)) ↔
      ∀ filter ∈ build.final.filterBlock, ∀ last ∈ options.filterPolicy,
        ∀ keys ∈ filter.finishKeys.made, ∀ key ∈ keys,
          last.keyMayMatch key (slotFilter filter.policy keys) = true := by
  obtain ⟨parts, readIn, smallFilter⟩ := readBy.exists_parts
  have opens := readIn.openFile_eq cacheId
  refine ⟨fun readable => ?_, fun matches' => ?_⟩
  · obtain ⟨table, isTable, -, finds⟩ := readable
    obtain rfl := Except.ok.inj (Except.ok.inj (opens.symm.trans isTable))
    exact (readIn.finds_added_iff smallFilter rfl lastPolicy cacheId readOptions).mp finds
  · exact ⟨_, opens, readIn.iterates rfl _ cacheId readOptions enough,
      (readIn.finds_added_iff smallFilter rfl lastPolicy cacheId readOptions).mpr matches'⟩

namespace ChangedPolicy

def comparators : Nat → Comparator := fun _ => bytewiseComparator

def options (filterPolicy : FilterPolicy) : Options :=
  ⟨0, false, 4096, 16, fun _ => none, some filterPolicy⟩

/-- The filter policy changes between two pairs. -/
def calls (last : FilterPolicy) : List TableBuilder.Call :=
  [.add [5] [7], .changeOptions (options last), .add [6] [8]]

def build (first last : FilterPolicy) : TableBuild :=
  .ofCalls comparators (options first) (calls last)

def file (first last : FilterPolicy) : RandomAccessFile := .ofBytes (build first last).contents

theorem build_readBy {first last : FilterPolicy}
    (runs : TableBuild.Runs comparators (options first) (calls last)) :
    (build first last).ReadBy comparators (options last) (file first last) := by
  refine runs.readBy bytewiseComparator_sound rfl (fun _ impossible => by cases impossible)
    fun call member => ?_
  simp only [calls, List.mem_cons, List.not_mem_nil, or_false] at member
  rcases member with rfl | rfl | rfl
  · trivial
  · exact fun _ impossible => by cases impossible
  · trivial

/-- What a lookup in a table that was opened finds. -/
def looksUp (opened : Except Fault (Except String Table)) (key : Bytes) :
    Option (Option (Bytes × Bytes)) :=
  match opened with
  | .ok (.ok table) => (table.internalGet comparators ⟨false, true⟩ key).toOption.map Prod.snd
  | _ => none

/-- The two builds run, the filters of the first one match their keys, and the key is hidden in the
second one. -/
theorem evaluated :
    TableBuild.Runs comparators (options headPolicy) (calls headPolicy) ∧
      TableBuild.Runs comparators (options (paddedPolicy 3)) (calls headPolicy) ∧
      (∀ filter ∈ (build headPolicy headPolicy).final.filterBlock,
        ∀ last ∈ (options headPolicy).filterPolicy, ∀ keys ∈ filter.finishKeys.made, ∀ key ∈ keys,
          last.keyMayMatch key (slotFilter filter.policy keys) = true) ∧
      looksUp (Table.openFile (options headPolicy) (file (paddedPolicy 3) headPolicy)
        (build (paddedPolicy 3) headPolicy).contents.length 0) [5] = some none := by
  decide +kernel

theorem headPolicy_runs : TableBuild.Runs comparators (options headPolicy) (calls headPolicy) :=
  evaluated.1

theorem paddedPolicy_runs :
    TableBuild.Runs comparators (options (paddedPolicy 3)) (calls headPolicy) :=
  evaluated.2.1

theorem headPolicy_matches :
    ∀ filter ∈ (build headPolicy headPolicy).final.filterBlock,
      ∀ last ∈ (options headPolicy).filterPolicy, ∀ keys ∈ filter.finishKeys.made, ∀ key ∈ keys,
        last.keyMayMatch key (slotFilter filter.policy keys) = true :=
  evaluated.2.2.1

theorem looksUp_hidden : looksUp (Table.openFile (options headPolicy)
    (file (paddedPolicy 3) headPolicy) (build (paddedPolicy 3) headPolicy).contents.length 0) [5] =
      some none :=
  evaluated.2.2.2

end ChangedPolicy

theorem changed_options_readable_two :
    ∃ table, Table.openFile (ChangedPolicy.options headPolicy)
        (ChangedPolicy.file headPolicy headPolicy)
        (ChangedPolicy.build headPolicy headPolicy).contents.length 0 = .ok (.ok table) ∧
      table.Iterates ChangedPolicy.comparators ⟨true, true⟩ 3
        (ChangedPolicy.build headPolicy headPolicy).entries ∧
      ∀ binding ∈ (ChangedPolicy.build headPolicy headPolicy).entries,
        table.internalGet ChangedPolicy.comparators ⟨true, true⟩ binding.1 =
          .ok (none, some binding) :=
  (changed_options_readable_iff (ChangedPolicy.build_readBy ChangedPolicy.headPolicy_runs) rfl 0
    ⟨true, true⟩ (show 2 < 3 by decide)).mpr ChangedPolicy.headPolicy_matches

/-- The filter of zeros that the first policy made is read by a policy that looks for the first byte
of the key. -/
theorem changed_policy_hides_key :
    (ChangedPolicy.build (paddedPolicy 3) headPolicy).ReadBy ChangedPolicy.comparators
        (ChangedPolicy.options headPolicy) (ChangedPolicy.file (paddedPolicy 3) headPolicy) ∧
      ¬ ∃ table, Table.openFile (ChangedPolicy.options headPolicy)
          (ChangedPolicy.file (paddedPolicy 3) headPolicy)
          (ChangedPolicy.build (paddedPolicy 3) headPolicy).contents.length 0 = .ok (.ok table) ∧
        table.Iterates ChangedPolicy.comparators ⟨false, true⟩ 3
          (ChangedPolicy.build (paddedPolicy 3) headPolicy).entries ∧
        ∀ binding ∈ (ChangedPolicy.build (paddedPolicy 3) headPolicy).entries,
          table.internalGet ChangedPolicy.comparators ⟨false, true⟩ binding.1 =
            .ok (none, some binding) := by
  refine ⟨ChangedPolicy.build_readBy ChangedPolicy.paddedPolicy_runs, ?_⟩
  rintro ⟨table, opens, -, finds⟩
  have missed := ChangedPolicy.looksUp_hidden
  have found := finds ([5], [7]) List.mem_cons_self
  rw [opens, ChangedPolicy.looksUp, found] at missed
  cases missed

/-! ### Round trip -/

namespace TableBuild

/-- The run that adds some pairs. -/
def ofEntries (comparators : Nat → Comparator) (options : Options)
    (entries : List (Bytes × Bytes)) : TableBuild :=
  .ofCalls comparators options (entries.map fun entry => .add entry.1 entry.2)

theorem entries_ofEntries (comparators : Nat → Comparator) (options : Options)
    (entries : List (Bytes × Bytes)) :
    (ofEntries comparators options entries).entries = entries := by
  show TableBuilder.added (entries.map fun entry => .add entry.1 entry.2) = entries
  induction entries with
  | nil => rfl
  | cons entry rest inductionHypothesis =>
    rw [List.map_cons, TableBuilder.added, inductionHypothesis]

/-- Pairs whose keys increase are added one after the other, and `Finish` succeeds. -/
theorem succeeds_ofEntries {comparators : Nat → Comparator} {options : Options}
    (sound : (comparators options.comparator).Sound) {entries : List (Bytes × Bytes)}
    (increasing : entries.Pairwise fun first second =>
      (comparators options.comparator).compare first.1 second.1 = .lt) :
    (ofEntries comparators options entries).Succeeds comparators := by
  have start : (TableBuilder.new options ⟨[], []⟩).Clean := ⟨rfl, rfl⟩
  obtain ⟨last, reached, clean, sameOptions, sameFilter⟩ := @TableBuilder.adds_clean
    (.new options ⟨[], []⟩) comparators entries start sound.trans increasing
    fun positive => absurd positive (lt_irrefl 0)
  have named : last.filterBlock.isSome = true → last.options.filterPolicy.isSome = true := by
    rw [sameFilter, sameOptions]
    exact fun isSome => (Option.isSome_map ..).symm.trans isSome
  obtain ⟨final, isFinal, isOk⟩ := @TableBuilder.finish_clean last comparators clean named
  have isLast : (ofEntries comparators options entries).last = last := by
    rw [ofEntries, ofCalls]
    dsimp only
    rw [reached]
    rfl
  have sameFinal : (ofEntries comparators options entries).final = final := by
    show ((ofEntries comparators options entries).last.finish comparators).toOption.getD _ = final
    rw [isLast, isFinal]
    rfl
  refine ⟨reached.trans (congrArg some isLast.symm), ?_, ?_⟩
  · rw [isLast, sameFinal]
    exact isFinal
  · rw [sameFinal]
    exact isOk

end TableBuild

/-- A table of pairs whose keys increase is built, and where its blocks are below 4 GB it opens with
an iterator that is a cursor over the pairs. -/
theorem table_round_trip {comparators : Nat → Comparator} {options : Options}
    {entries : List (Bytes × Bytes)} (sound : (comparators options.comparator).Sound)
    (registered : ∀ compressor ∈ options.compressors 0, compressor.Registered options.compressors)
    (increasing : entries.Pairwise fun first second =>
      (comparators options.comparator).compare first.1 second.1 = .lt)
    (smallFile : (TableBuild.ofEntries comparators options entries).contents.length < 2 ^ 64)
    (smallBlocks : ∀ raw ∈ (TableBuild.ofEntries comparators options entries).final.finished,
      raw.length < 2 ^ 32) :
    (TableBuild.ofEntries comparators options entries).Succeeds comparators ∧
      ∀ cacheId, ∃ table,
        Table.openFile options
            (.ofBytes (TableBuild.ofEntries comparators options entries).contents)
            (TableBuild.ofEntries comparators options entries).contents.length cacheId =
          .ok (.ok table) ∧
        ∀ readOptions rounds, entries.length < rounds →
          table.Iterates comparators readOptions rounds entries := by
  have succeeds := TableBuild.succeeds_ofEntries sound increasing
  have readBy : (TableBuild.ofEntries comparators options entries).ReadBy comparators options
      (.ofBytes (TableBuild.ofEntries comparators options entries).contents) := by
    refine ⟨succeeds, sound, rfl, registered, fun call member => ?_, smallFile, smallBlocks,
      RandomAccessFile.returns_ofBytes _⟩
    obtain ⟨entry, -, rfl⟩ := List.mem_map.mp member
    trivial
  obtain ⟨parts, readIn, -⟩ := readBy.exists_parts
  rw [TableBuild.entries_ofEntries] at readIn
  exact ⟨succeeds, fun cacheId => ⟨_, readIn.openFile_eq cacheId, fun readOptions rounds enough =>
    readIn.iterates rfl _ cacheId readOptions enough⟩⟩

theorem table_round_trip_two : ∃ table,
    Table.openFile (ChangedPolicy.options headPolicy)
        (.ofBytes (TableBuild.ofEntries ChangedPolicy.comparators (ChangedPolicy.options headPolicy)
          [([5], [7]), ([6], [8])]).contents)
        (TableBuild.ofEntries ChangedPolicy.comparators (ChangedPolicy.options headPolicy)
          [([5], [7]), ([6], [8])]).contents.length 0 = .ok (.ok table) ∧
      ∀ readOptions rounds, 2 < rounds →
        table.Iterates ChangedPolicy.comparators readOptions rounds [([5], [7]), ([6], [8])] :=
  (table_round_trip bytewiseComparator_sound
    (fun _ impossible => absurd impossible (Option.not_mem_none _)) (by decide) (by decide +kernel)
    
    (by decide +kernel)).2 0

/-- A pair is added to the block that is being built as long as there is room. -/
theorem TableBuilder.add_roomy {builder : TableBuilder} {comparators : Nat → Comparator}
    (isOk : builder.status = none) (notPending : builder.pendingIndexEntry = false)
    {key value : Bytes}
    (roomy : (builder.dataBlock.add builder.options.blockRestartInterval key
      value).currentSizeEstimate < builder.options.blockSize) :
    builder.add comparators key value = { builder with
      filterBlock := builder.filterBlock.map fun filter => filter.addKey key
      lastKey := key
      numEntries := builder.numEntries + 1
      dataBlock := builder.dataBlock.add builder.options.blockRestartInterval key value } := by
  rw [add_of_ok isOk, addEntry, addIndexEntry_of_not_pending notPending]
  exact if_neg (Nat.not_le.mpr roomy)

/-- The block with two pairs, where the lengths of the values are multiples of 2^32. -/
theorem addedBlock_eq {first second : Bytes} (firstLength : first.length % 2 ^ 32 = 0)
    (secondLength : second.length % 2 ^ 32 = 0) :
    (BlockBuilder.new.add 16 [] first).add 16 [5] second =
      ⟨[0, 0, 0] ++ (first ++ ([0, 1, 0, 5] ++ second)), [0], 2, [5]⟩ := by
  have entry : ∀ key value : Bytes, value.length % 2 ^ 32 = 0 →
      BlockBuilder.entryBytes 0 key value = encodeVarint32 (0 % 2 ^ 32) ++
        (encodeVarint32 ((key.length - 0) % 2 ^ 32) ++
          (encodeVarint32 0 ++ (key.drop 0 ++ value))) :=
    fun key value length => by rw [BlockBuilder.entryBytes, length]
  have added : (BlockBuilder.new.add 16 [] first).add 16 [5] second =
      ⟨([] ++ BlockBuilder.entryBytes 0 [] first) ++ BlockBuilder.entryBytes 0 [5] second, [0], 2,
        [5]⟩ := rfl
  rw [added, entry _ _ firstLength, entry _ _ secondLength]
  simp only [List.nil_append, List.append_assoc, List.drop_zero, List.cons_append]
  rfl

/-- The builder behind two pairs depends on the bytes of their block only. -/
theorem last_pair (comparators : Nat → Comparator) {options : Options}
    (roomy : options.blockSize = 2 ^ 63) (interval : options.blockRestartInterval = 16)
    {first second : Bytes} (firstLength : first.length % 2 ^ 32 = 0)
    (secondLength : second.length % 2 ^ 32 = 0) (fits : first.length + second.length < 2 ^ 40) :
    (TableBuild.ofEntries comparators options [([], first), ([5], second)]).last =
      let start : TableBuilder := .new options ⟨[], []⟩
      if (comparators options.comparator).compare [5] [] ≠ .gt then start
      else { start with
        filterBlock := (start.filterBlock.map fun filter => filter.addKey []).map fun filter =>
          filter.addKey [5]
        lastKey := [5]
        numEntries := 2
        dataBlock := ⟨[0, 0, 0] ++ (first ++ ([0, 1, 0, 5] ++ second)), [0], 2, [5]⟩ } := by
  obtain ⟨start, isStart⟩ : ∃ start : TableBuilder, start = .new options ⟨[], []⟩ := ⟨_, rfl⟩
  obtain ⟨one, isOne⟩ : ∃ one : TableBuilder, one = { start with
    filterBlock := start.filterBlock.map fun filter => filter.addKey []
    lastKey := []
    numEntries := 1
    dataBlock := BlockBuilder.new.add 16 [] first } := ⟨_, rfl⟩
  have startInterval : start.options.blockRestartInterval = 16 := by rw [isStart]; exact interval
  have startSize : start.options.blockSize = 2 ^ 63 := by rw [isStart]; exact roomy
  have startBlock : start.dataBlock = .new := by rw [isStart]; rfl
  have startEntries : start.numEntries = 0 := by rw [isStart]; rfl
  have grows : ((BlockBuilder.new.add 16 [] first).add 16 [5] second).buffer =
      (BlockBuilder.new.add 16 [] first).buffer ++ BlockBuilder.entryBytes 0 [5] second := rfl
  have block := addedBlock_eq firstLength secondLength
  have room : ((BlockBuilder.new.add 16 [] first).add 16 [5] second).currentSizeEstimate <
      2 ^ 63 := by
    rw [block, BlockBuilder.currentSizeEstimate]
    simp only [List.length_append, List.length_cons, List.length_nil]
    omega
  have firstRoom : (BlockBuilder.new.add 16 [] first).currentSizeEstimate < 2 ^ 63 := by
    refine lt_of_le_of_lt (Nat.add_le_add_right (Nat.add_le_add_right ?_ _) _) room
    rw [grows, List.length_append]
    exact Nat.le_add_right _ _
  have addFirst : start.add comparators [] first = one := by
    rw [TableBuilder.add_roomy (by rw [isStart]; rfl) (by rw [isStart]; rfl)
      (by rw [startInterval, startSize, startBlock]; exact firstRoom), startInterval, startBlock,
      startEntries, isOne]
  have addSecond : one.add comparators [5] second = { start with
      filterBlock := (start.filterBlock.map fun filter => filter.addKey []).map fun filter =>
        filter.addKey [5]
      lastKey := [5]
      numEntries := 2
      dataBlock := ⟨[0, 0, 0] ++ (first ++ ([0, 1, 0, 5] ++ second)), [0], 2, [5]⟩ } := by
    have oneInterval : one.options.blockRestartInterval = 16 := by rw [isOne]; exact startInterval
    have oneSize : one.options.blockSize = 2 ^ 63 := by rw [isOne]; exact startSize
    have oneBlock : one.dataBlock = BlockBuilder.new.add 16 [] first := by rw [isOne]
    rw [TableBuilder.add_roomy (by rw [isOne, isStart]; rfl) (by rw [isOne, isStart]; rfl)
      (by rw [oneInterval, oneSize, oneBlock]; exact room), oneInterval, oneBlock, block, isOne]
  have firstStep : start.step comparators (.add [] first) = some one := by
    rw [TableBuilder.step, if_neg fun met => by rw [startEntries] at met; exact lt_irrefl 0 met.2.1,
      addFirst]
  have run : [TableBuilder.Call.add [] first, .add [5] second].foldlM
      (TableBuilder.step comparators) start = one.step comparators (.add [5] second) := by
    rw [List.foldlM_cons, firstStep]
    show [TableBuilder.Call.add [5] second].foldlM (TableBuilder.step comparators) one = _
    rw [List.foldlM_cons]
    cases one.step comparators (.add [5] second) with
    | none => rfl
    | some last => rfl
  have isLast : (TableBuild.ofEntries comparators options [([], first), ([5], second)]).last =
      (one.step comparators (.add [5] second)).getD start := by
    rw [← run, isStart]
    rfl
  have isComparator : comparators one.options.comparator = comparators options.comparator := by
    rw [isOne, isStart]
    rfl
  have lastKey : one.lastKey = [] := by rw [isOne]
  have ready : one.status = none ∧ one.numEntries > 0 := by
    rw [isOne, isStart]
    exact ⟨rfl, Nat.one_pos⟩
  rw [isLast, TableBuilder.step, isComparator, lastKey, addSecond, isStart]
  dsimp only
  by_cases refused : (comparators options.comparator).compare [5] [] ≠ .gt
  · rw [if_pos ⟨ready.1, ready.2, refused⟩, if_pos refused]
    rfl
  · rw [if_neg fun met => refused met.2.2, if_neg refused]
    rfl

/-- Two lists of pairs whose tables have the same bytes: a value of 4 GB has the length 0 in its
entry, and what is behind the length is read as the next entry. -/
theorem exists_same_table (comparators : Nat → Comparator) {options : Options}
    (roomy : options.blockSize = 2 ^ 63) (interval : options.blockRestartInterval = 16) :
    ∃ first second : Bytes,
      (TableBuild.ofEntries comparators options [([], 0 :: first), ([5], [])]).last =
        (TableBuild.ofEntries comparators options [([], []), ([5], second)]).last := by
  obtain ⟨rest, length⟩ : ∃ rest : Bytes, rest.length = 2 ^ 32 - 4 :=
    ⟨List.replicate (2 ^ 32 - 4) 0, List.length_replicate⟩
  have value : (0 :: 1 :: 0 :: 5 :: rest).length = 2 ^ 32 := by
    rw [List.length_cons, List.length_cons, List.length_cons, List.length_cons, length]
    norm_num
  have value' : (rest ++ [0, 1, 0, 5]).length = 2 ^ 32 := by
    rw [List.length_append, length]
    norm_num
  refine ⟨1 :: 0 :: 5 :: rest, rest ++ [0, 1, 0, 5], ?_⟩
  rw [last_pair comparators roomy interval (by rw [value, Nat.mod_self]) rfl
      (by rw [value]; decide),
    last_pair comparators roomy interval rfl (by rw [value', Nat.mod_self])
      (by rw [value']; decide)]
  have same : (0 :: 1 :: 0 :: 5 :: rest) ++ ([0, 1, 0, 5] ++ []) =
      [] ++ ([0, 1, 0, 5] ++ (rest ++ [0, 1, 0, 5])) := by
    simp only [List.append_nil, List.nil_append, List.cons_append]
  rw [same]

/-- An iterator over a table cannot be a cursor over two lists that differ in the first value. -/
theorem Table.Iterates.head_eq {comparators : Nat → Comparator} {table : Table}
    {readOptions : ReadOptions} {rounds : Nat} {entry entry' : Bytes × Bytes}
    {rest rest' : List (Bytes × Bytes)}
    (iterates : table.Iterates comparators readOptions rounds (entry :: rest))
    (iterates' : table.Iterates comparators readOptions rounds (entry' :: rest')) :
    entry = entry' := by
  have shown := (iterates.shows [.seekToFirst]).symm.trans (iterates'.shows [.seekToFirst])
  have shown : some [some entry] = some [some entry'] := shown
  exact Option.some.inj (List.head_eq_of_cons_eq (Option.some.inj shown))

/-- Options under which no block gets full. -/
def roomyOptions : Options := ⟨0, false, 2 ^ 63, 16, fun _ => none, none⟩

theorem contents_of_last {comparators : Nat → Comparator} {options : Options}
    {entries entries' : List (Bytes × Bytes)}
    (same : (TableBuild.ofEntries comparators options entries).last =
      (TableBuild.ofEntries comparators options entries').last) :
    (TableBuild.ofEntries comparators options entries).contents =
      (TableBuild.ofEntries comparators options entries').contents := by
  have final : ∀ entries, (TableBuild.ofEntries comparators options entries).contents =
      (((TableBuild.ofEntries comparators options entries).last.finish comparators).toOption.getD
        (TableBuild.ofEntries comparators options entries).last).file.contents := fun _ => rfl
  rw [final, final, same]

/-- A pair with a value of 4 GB is not what the table gives back. -/
theorem table_round_trip_fails : ¬ ∀ (comparators : Nat → Comparator) (options : Options)
    (entries : List (Bytes × Bytes)), (comparators options.comparator).Sound →
    (∀ compressor ∈ options.compressors 0, compressor.Registered options.compressors) →
    (entries.Pairwise fun first second =>
      (comparators options.comparator).compare first.1 second.1 = .lt) →
    ∃ table, Table.openFile options
        (.ofBytes (TableBuild.ofEntries comparators options entries).contents)
        (TableBuild.ofEntries comparators options entries).contents.length 0 = .ok (.ok table) ∧
      ∀ readOptions rounds, entries.length < rounds →
        table.Iterates comparators readOptions rounds entries := by
  intro always
  obtain ⟨first, second, sameLast⟩ := exists_same_table (fun _ => bytewiseComparator)
    (show roomyOptions.blockSize = 2 ^ 63 from rfl) rfl
  have noCompressor : ∀ compressor ∈ roomyOptions.compressors 0,
      compressor.Registered roomyOptions.compressors :=
    fun _ impossible => absurd impossible (Option.not_mem_none _)
  have increasing : ∀ value value' : Bytes, [(([] : Bytes), value), ([5], value')].Pairwise
      fun first second => bytewiseComparator.compare first.1 second.1 = .lt :=
    fun _ _ => List.pairwise_pair.mpr rfl
  obtain ⟨table, opens, iterates⟩ := always (fun _ => bytewiseComparator) roomyOptions
    [([], 0 :: first), ([5], [])] bytewiseComparator_sound noCompressor (increasing _ _)
  obtain ⟨table', opens', iterates'⟩ := always (fun _ => bytewiseComparator) roomyOptions
    [([], []), ([5], second)] bytewiseComparator_sound noCompressor (increasing _ _)
  rw [contents_of_last sameLast, opens'] at opens
  obtain rfl := Except.ok.inj (Except.ok.inj opens)
  have less : 2 < 3 := by decide
  have same := (iterates ⟨false, false⟩ 3 less).head_eq (iterates' ⟨false, false⟩ 3 less)
  exact List.cons_ne_nil _ _ (congrArg Prod.snd same)

end LevelDb.Sst
