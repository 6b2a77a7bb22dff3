/-
This file joins the two halves of a table: a run of a builder up to a `Finish` that succeeds, and
the file that is opened for reading afterwards. It also models `Table::ApproximateOffsetOf`, which
grows with the key and does not leave the file.
-/

import LevelDb.Sst.OpenedTable

namespace LevelDb.Sst

open Lib

/-! ### Runs of a builder -/

/-- A run of a builder: the options it starts with, the outcomes of the calls of its file, its
calls, and the builder before and after `Finish`. -/
structure TableBuild where
  options : Options
  outcomes : List (Option (String × Nat))
  calls : List TableBuilder.Call
  last : TableBuilder
  final : TableBuilder

namespace TableBuild

/-- The calls are made and `Finish` succeeds. -/
structure Succeeds (comparators : Nat → Comparator) (build : TableBuild) : Prop where
  reached : build.calls.foldlM (TableBuilder.step comparators)
    (.new build.options ⟨[], build.outcomes⟩) = some build.last
  isFinal : build.last.finish comparators = .ok build.final
  succeeds : build.final.status = none

/-- The pairs that were added. -/
def entries (build : TableBuild) : List (Bytes × Bytes) := TableBuilder.added build.calls

/-- The file that was written. -/
def contents (build : TableBuild) : Bytes := build.final.file.contents

/-- What was written is read by some options from a file that returns it: the comparator is the
one of the builder, the compressors that were used are registered, and the 64 bit offsets of the
file and the 32 bit offsets of its blocks are enough. -/
structure ReadBy (comparators : Nat → Comparator) (build : TableBuild) (options : Options)
    (file : RandomAccessFile) : Prop extends build.Succeeds comparators where
  sound : (comparators options.comparator).Sound
  sameComparator : comparators options.comparator = comparators build.options.comparator
  registered : ∀ compressor ∈ build.options.compressors 0, compressor.Registered options.compressors
  uses : ∀ call ∈ build.calls, call.Uses (Compressor.Registered options.compressors)
  smallFile : build.contents.length < 2 ^ 64
  smallBlocks : ∀ raw ∈ build.final.finished, raw.length < 2 ^ 32
  returns : file.Returns build.contents

variable {comparators : Nat → Comparator} {build : TableBuild} {options : Options}
  {file : RandomAccessFile}

/-- `Finish` only adds to the file. -/
theorem Succeeds.last_small (succeeds : build.Succeeds comparators)
    (small : build.contents.length < 2 ^ 64) :
    build.last.status = none ∧ build.last.file.contents.length < 2 ^ 64 := by
  obtain ⟨filtered, described, indexed, rawMeta, withEntry, flushOk, isFiltered, -, isDescribed,
    isWithEntry, isIndexed, filteredOk, describedOk, indexedOk, contents, -⟩ :=
    TableBuilder.finish_ok succeeds.isFinal succeeds.succeeds
  subst isFiltered
  obtain ⟨_, _, sameEntry⟩ := described.2.addIndexEntry_eq
    (comparators described.2.options.comparator).findShortSuccessor
  have sameFile : withEntry.file = described.2.file := by
    rw [← isWithEntry, sameEntry]
  obtain ⟨isOk, flushed, -⟩ := TableBuilder.flush_grows flushOk
  have grows : build.last.file.contents <+: indexed.2.file.contents :=
    flushed.trans ((TableBuilder.finishFilter_grows filteredOk).trans
      ((TableBuilder.writeBlock_grows isDescribed describedOk).trans
        (sameFile ▸ TableBuilder.writeBlock_grows isIndexed indexedOk)))
  refine ⟨isOk, (grows.length_le.trans ?_).trans_lt small⟩
  rw [TableBuild.contents, contents, List.length_append]
  exact Nat.le_add_right _ _

/-- The parts of the file of a run. -/
theorem Succeeds.exists_parts (succeeds : build.Succeeds comparators) {comparator : Comparator}
    (sound : comparator.Sound) (isComparator : comparators build.options.comparator = comparator)
    {used : Compressor → Prop} (isUsed : ∀ compressor ∈ build.options.compressors 0, used compressor)
    (uses : ∀ call ∈ build.calls, call.Uses used) (small : build.contents.length < 2 ^ 64) :
    ∃ parts : TableFile, parts.Holds comparator.compare used build.options.filterPolicy
      build.entries build.final := by
  obtain ⟨isOk, lastSmall⟩ := succeeds.last_small small
  have isFirst : comparators (TableBuilder.new build.options
      ⟨[], build.outcomes⟩).options.comparator = comparator := isComparator
  obtain ⟨closed, pending, current, inv⟩ := TableBuilder.Inv.run (TableBuilder.inv_new isUsed)
    (isFirst ▸ sound) rfl uses succeeds.reached isOk lastSmall
  obtain ⟨-, -, sameComparator⟩ := TableBuilder.run_grows succeeds.reached isOk
  have isLast : comparators build.last.options.comparator = comparator := by
    rw [sameComparator, isFirst]
  rw [List.nil_append, isFirst] at inv
  exact inv.finish (isLast ▸ sound) (by rw [isLast]) succeeds.isFinal succeeds.succeeds small

/-- The parts of the file are found again, and what is smaller than the bound are all blocks. -/
theorem ReadBy.exists_parts (readBy : build.ReadBy comparators options file) :
    ∃ parts : TableFile, parts.ReadIn (comparators options.comparator) options.compressors
      build.options.filterPolicy build.entries build.final file ∧ parts.SmallFilter := by
  obtain ⟨parts, holds⟩ := readBy.toSucceeds.exists_parts readBy.sound
    readBy.sameComparator.symm readBy.registered readBy.uses readBy.smallFile
  refine ⟨parts, ⟨readBy.sound, holds, readBy.smallFile, ?_, readBy.returns⟩,
    fun part isPart => ?_⟩
  · exact TableFile.forall_cursorBlocks.mpr ⟨readBy.smallBlocks _ holds.index.2,
      readBy.smallBlocks _ holds.metaindex.2, fun entry member =>
        readBy.smallBlocks _ (holds.blocks entry member).2⟩
  · have small := readBy.smallBlocks _ (holds.filter part isPart).finished
    exact (Nat.le_add_right _ _).trans_lt (List.length_append ▸ small)

/-- The run of some calls on a file that never fails. -/
def ofCalls (comparators : Nat → Comparator) (options : Options) (calls : List TableBuilder.Call) :
    TableBuild :=
  let last := (calls.foldlM (TableBuilder.step comparators) (.new options ⟨[], []⟩)).getD
    (.new options ⟨[], []⟩)
  { options := options
    outcomes := []
    calls := calls
    last := last
    final := (last.finish comparators).toOption.getD last }

/-- Every call is made, `Finish` succeeds, and the sizes are small enough. -/
def Runs (comparators : Nat → Comparator) (options : Options) (calls : List TableBuilder.Call) :
    Prop :=
  (calls.foldlM (TableBuilder.step comparators) (.new options ⟨[], []⟩)).isSome = true ∧
    ((ofCalls comparators options calls).last.finish comparators).toOption.isSome = true ∧
    (ofCalls comparators options calls).final.status = none ∧
    (ofCalls comparators options calls).contents.length < 2 ^ 64 ∧
    ∀ raw ∈ (ofCalls comparators options calls).final.finished, raw.length < 2 ^ 32

instance (comparators : Nat → Comparator) (options : Options) (calls : List TableBuilder.Call) :
    Decidable (Runs comparators options calls) := inferInstanceAs (Decidable (_ ∧ _ ∧ _ ∧ _ ∧ _))

theorem Runs.succeeds {calls : List TableBuilder.Call} (runs : Runs comparators options calls) :
    (ofCalls comparators options calls).Succeeds comparators := by
  obtain ⟨reached, finished, succeeds, -⟩ := runs
  refine ⟨?_, ?_, succeeds⟩
  · obtain ⟨last, isLast⟩ := Option.isSome_iff_exists.mp reached
    rw [ofCalls]
    dsimp only
    rw [isLast]
    rfl
  · rw [ofCalls] at finished ⊢
    dsimp only at finished ⊢
    generalize TableBuilder.finish comparators _ = result at finished ⊢
    cases result with
    | error fault => cases finished
    | ok final => rfl

/-- What such a run writes without compressors is read back. -/
theorem Runs.readBy {calls : List TableBuilder.Call} (runs : Runs comparators options calls)
    {reading : Options} (sound : (comparators reading.comparator).Sound)
    (sameComparator : comparators reading.comparator = comparators options.comparator)
    (registered : ∀ compressor ∈ options.compressors 0, compressor.Registered reading.compressors)
    (uses : ∀ call ∈ calls, call.Uses (Compressor.Registered reading.compressors)) :
    (ofCalls comparators options calls).ReadBy comparators reading
      (.ofBytes (ofCalls comparators options calls).contents) :=
  ⟨runs.succeeds, sound, sameComparator, registered, uses, runs.2.2.2.1, runs.2.2.2.2,
    RandomAccessFile.returns_ofBytes _⟩

end TableBuild

/-! ### Offsets -/

/-- `ApproximateOffsetOf`. -/
def Table.approximateOffsetOf (comparators : Nat → Comparator) (table : Table) (key : Bytes) :
    Except Fault Nat := do
  let compare := (comparators table.options.comparator).compare
  let indexIter ← (BlockCursor.start table.indexBlock.newIterator).seek compare key
  match indexIter.entry with
  | none => return table.metaindexHandle.offset
  | some (_, input) =>
    match BlockHandle.decodeFrom input with
    | .ok (handle, _) => return handle.offset
    | .error _ => return table.metaindexHandle.offset

/-- The offset of the first block with some property, or the one behind the blocks. -/
def firstOffset (behind : Nat) (isBehind : Bytes → Bool) (blocks : List (Bytes × DataBlock)) :
    Nat :=
  ((blocks.find? fun entry => isBehind entry.1).map fun entry =>
    entry.2.handle.offset).getD behind

theorem firstOffset_le {behind : Nat} {blocks : List (Bytes × DataBlock)}
    (before : ∀ entry ∈ blocks, entry.2.handle.offset ≤ behind) (isBehind : Bytes → Bool) :
    firstOffset behind isBehind blocks ≤ behind := by
  rw [firstOffset]
  cases found : blocks.find? fun entry => isBehind entry.1 with
  | none => exact le_rfl
  | some entry => exact before entry (List.mem_of_find?_eq_some found)

/-- A property that fewer separators have is found at a later block. -/
theorem firstOffset_mono {behind : Nat} {blocks : List (Bytes × DataBlock)}
    (placed : Placed (blocks.map Prod.snd) behind) {isBehind isBehind' : Bytes → Bool}
    (fewer : ∀ key, isBehind' key = true → isBehind key = true) :
    firstOffset behind isBehind blocks ≤ firstOffset behind isBehind' blocks := by
  induction blocks with
  | nil => exact le_rfl
  | cons entry rest inductionHypothesis =>
    obtain ⟨first, later⟩ := List.pairwise_cons.mp placed.ascending
    have placedRest : Placed (rest.map Prod.snd) behind :=
      ⟨later, fun block member => placed.before block (List.mem_cons_of_mem _ member)⟩
    cases isFirst : isBehind entry.1 with
    | false =>
      have isFirst' : isBehind' entry.1 = false :=
        Bool.eq_false_iff.mpr fun found => Bool.eq_false_iff.mp isFirst (fewer _ found)
      rw [firstOffset, firstOffset, List.find?_cons_of_neg (by rw [isFirst]; decide),
        List.find?_cons_of_neg (by rw [isFirst']; decide)]
      exact inductionHypothesis placedRest
    | true =>
      have isHead : ((entry :: rest).find? fun entry => isBehind entry.1) = some entry :=
        List.find?_cons_of_pos isFirst
      rw [firstOffset, isHead, firstOffset]
      cases found : (entry :: rest).find? fun entry => isBehind' entry.1 with
      | none => exact placed.before entry.2 List.mem_cons_self
      | some other =>
        rcases List.mem_cons.mp (List.mem_of_find?_eq_some found) with rfl | isLater
        · exact le_rfl
        · exact first other.2 (List.mem_map_of_mem isLater)

namespace TableFile.ReadIn

variable {parts : TableFile} {comparator : Comparator} {policy : Option FilterPolicy}
  {entries : List (Bytes × Bytes)} {final : TableBuilder} {file : RandomAccessFile}
  {options : Options}

/-- The offset of a key is that of the block that the index points to, or that of the metaindex
block behind all of them. -/
theorem approximateOffsetOf_eq
    (readIn : parts.ReadIn comparator options.compressors policy entries final file)
    {comparators : Nat → Comparator} (isComparator : comparators options.comparator = comparator)
    (cacheId : Nat) (key : Bytes) :
    (parts.opened final.options.filterPolicy options file cacheId).approximateOffsetOf comparators
      key = .ok (firstOffset parts.metaindex.handle.offset
        (fun separator => comparator.compare separator key ≠ .lt) parts.blocks) := by
  have := readIn.sound.trans
  obtain ⟨source, opened, laid, -⟩ := readIn.opens_index
  obtain ⟨indexIter, sought, -, found⟩ := BlockCursor.seek_start laid readIn.increasing_index key
  have isFound : indexIter.entry = (parts.blocks.find? fun entry =>
      comparator.compare entry.1 key ≠ .lt).map fun entry =>
        (entry.1, entry.2.handle.encodeTo) := by
    rw [found]
    show parts.index.bindings.find? _ = _
    rw [readIn.holds.indexBindings, List.find?_map]
    rfl
  rw [Table.approximateOffsetOf, TableFile.opened]
  dsimp only [bind, Except.bind]
  rw [isComparator, opened, sought]
  dsimp only
  rw [isFound, firstOffset]
  cases first : parts.blocks.find? fun entry => comparator.compare entry.1 key ≠ .lt with
  | none => rfl
  | some entry =>
    have member := List.mem_of_find?_eq_some first
    dsimp only [Option.map_some]
    rw [(readIn.holds.blocks entry member).1.toInFile.decodeFrom readIn.smallFile]
    rfl

end TableFile.ReadIn

/-- The offsets of the keys in an open table grow with the key, up to the end of the file. -/
theorem TableBuild.ReadBy.approximateOffsetOf {comparators : Nat → Comparator} {build : TableBuild}
    {options : Options} {file : RandomAccessFile} (readBy : build.ReadBy comparators options file)
    {cacheId : Nat} {table : Table}
    (opens : Table.openFile options file build.contents.length cacheId = .ok (.ok table)) :
    ∃ offsetOf : Bytes → Nat,
      (∀ key, table.approximateOffsetOf comparators key = .ok (offsetOf key)) ∧
      (∀ key, offsetOf key ≤ build.contents.length) ∧
      ∀ first second, ((comparators options.comparator).compare first second).isLE →
        offsetOf first ≤ offsetOf second := by
  have := readBy.sound.trans
  obtain ⟨parts, readIn, -⟩ := readBy.exists_parts
  rw [TableBuild.contents, readIn.openFile_eq cacheId] at opens
  obtain rfl := Except.ok.inj (Except.ok.inj opens)
  have metaInside : parts.metaindex.handle.offset ≤ build.contents.length :=
    (Nat.le_add_right _ _).trans readIn.holds.metaindex.1.stored.inside
  refine ⟨_, readIn.approximateOffsetOf_eq rfl cacheId, fun key => ?_, fun first second order => ?_⟩
  · exact (firstOffset_le (fun entry member => readIn.holds.placed.before entry.2
      (List.mem_map_of_mem member)) _).trans metaInside
  · refine firstOffset_mono readIn.holds.placed fun separator notLess =>
      decide_eq_true fun less => ?_
    exact of_decide_eq_true notLess (Std.TransCmp.lt_of_lt_of_isLE less order)

end LevelDb.Sst
