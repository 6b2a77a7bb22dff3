/-
This file models table files: blocks with restart points, the builder that cuts the entries
into blocks and writes the index and filter blocks (`table/table_builder.cc`,
`table/filter_block.cc`), and the lookup through index, filter and data block
(`Table::InternalGet`, `Block::Iter::Seek`).

The user comparator and the filter policy are supplied by the client. What the code relies on
is what their interfaces document: a separator lies between its two keys, a successor is not
less than its key, and a filter matches every key it was made of.
-/

import LevelDb.Version

namespace LevelDb

variable {α β φ : Type} [LinearOrder α]

/-! ### What the client supplies -/

/-- The part of the user comparator that shortens keys, with the length of a user key. -/
structure KeyShortener (α : Type) [LinearOrder α] where
  size : α → Nat
  findShortestSeparator : α → α → α
  findShortSuccessor : α → α
  separator_lt : ∀ start limit, start < limit → findShortestSeparator start limit < limit
  separator_self : ∀ start limit, ¬ start < limit → findShortestSeparator start limit = start

/-- A filter policy over user keys; `emptyFilter` is what an empty slice reads as. -/
structure FilterPolicy (α φ : Type) where
  createFilter : List α → φ
  emptyFilter : φ
  keyMayMatch : α → φ → Bool
  mayMatch_of_mem : ∀ keys, ∀ key ∈ keys, keyMayMatch key (createFilter keys) = true

/-- The options of a table. `blockFull entries` says that a data block with these entries has
reached the block size and `blockBytes entries` is the number of bytes it takes in the file. -/
structure TableOptions (α β φ : Type) [LinearOrder α] where
  shortener : KeyShortener α
  filterPolicy : Option (FilterPolicy α φ)
  blockRestartInterval : Nat
  blockFull : List (Entry α β) → Bool
  blockBytes : List (Entry α β) → Nat

/-- `InternalKeyComparator::FindShortestSeparator`. -/
def findShortestSeparator (shortener : KeyShortener α) (start limit : InternalKey α) :
    InternalKey α :=
  let shorter := shortener.findShortestSeparator start.userKey limit.userKey
  if shortener.size shorter < shortener.size start.userKey ∧ start.userKey < shorter then
    InternalKey.make shorter kMaxSequenceNumber kValueTypeForSeek
  else start

/-- `InternalKeyComparator::FindShortSuccessor`. -/
def findShortSuccessor (shortener : KeyShortener α) (key : InternalKey α) : InternalKey α :=
  let shorter := shortener.findShortSuccessor key.userKey
  if shortener.size shorter < shortener.size key.userKey ∧ key.userKey < shorter then
    InternalKey.make shorter kMaxSequenceNumber kValueTypeForSeek
  else key

theorem le_findShortestSeparator (shortener : KeyShortener α) (start limit : InternalKey α) :
    start ≤ findShortestSeparator shortener start limit := by
  unfold findShortestSeparator
  simp only
  split
  · rename_i shortened
    exact (InternalKey.lt_of_userKey_lt shortened.2).le
  · exact le_rfl

theorem le_findShortSuccessor (shortener : KeyShortener α) (key : InternalKey α) :
    key ≤ findShortSuccessor shortener key := by
  unfold findShortSuccessor
  simp only
  split
  · rename_i shortened
    exact (InternalKey.lt_of_userKey_lt shortened.2).le
  · exact le_rfl

/-- A key between an entry and the separator after it belongs to a smaller user key than the
next entry. -/
theorem userKey_lt_of_separator (shortener : KeyShortener α) {start limit key : InternalKey α}
    (after : start < key) (before : key ≤ findShortestSeparator shortener start limit) :
    key.userKey < limit.userKey := by
  unfold findShortestSeparator at before
  simp only at before
  split at before
  · rename_i shortened
    have order : start.userKey < limit.userKey := by
      by_contra notLess
      rw [shortener.separator_self _ _ notLess] at shortened
      exact absurd shortened.2 (lt_irrefl _)
    exact (InternalKey.userKey_le_of_le before).trans_lt (shortener.separator_lt _ _ order)
  · exact absurd before (not_le_of_gt after)

/-! ### Blocks -/

/-- `Block::Iter::Seek` over a block whose items are restarted every `interval` items: a binary
search for the last restart point below the target, then a scan from there. -/
def blockSeek {γ : Type} (interval : Nat) (keyOf : γ → InternalKey α) (items : List γ)
    (target : InternalKey α) : Option γ :=
  let restarts := (items.length - 1) / interval + 1
  let restart := Lib.lastBelowLoop
    (fun index => (items[index * interval]?).any fun item => keyOf item < target)
    restarts 0 (restarts - 1)
  (items.drop (restart * interval)).find? fun item => target ≤ keyOf item

/-- A seek finds the first item at or after the target. -/
theorem blockSeek_eq {γ : Type} (interval : Nat) (keyOf : γ → InternalKey α) {items : List γ}
    (sorted : items.Pairwise fun first second => keyOf first < keyOf second)
    (target : InternalKey α) :
    blockSeek interval keyOf items target = items.find? fun item => target ≤ keyOf item := by
  unfold blockSeek
  simp only
  set restart := Lib.lastBelowLoop
    (fun index => (items[index * interval]?).any fun item => keyOf item < target)
    ((items.length - 1) / interval + 1) 0 ((items.length - 1) / interval + 1 - 1) with restartEq
  have skipped : ∀ item ∈ items.take (restart * interval), keyOf item < target := by
    rcases Lib.lastBelowLoop_below
      (fun index => (items[index * interval]?).any fun item => decide (keyOf item < target))
      ((items.length - 1) / interval + 1) 0 ((items.length - 1) / interval + 1 - 1)
      with zero | below
    · rw [restartEq, zero]
      simp
    · rw [← restartEq] at below
      obtain ⟨point, found, less⟩ := (Option.any_eq_true _ _).mp below
      intro item member
      have front : items = items.take (restart * interval) ++ items.drop (restart * interval) :=
        (List.take_append_drop _ _).symm
      have inBack : point ∈ items.drop (restart * interval) := by
        rw [List.mem_iff_getElem?]
        exact ⟨0, by rw [List.getElem?_drop]; exact found⟩
      rw [front] at sorted
      exact ((List.pairwise_append.mp sorted).2.2 item member point inBack).trans
        (by simpa using less)
  have notFound : (items.take (restart * interval)).find? (fun item => decide (target ≤ keyOf item)) =
      none := List.find?_eq_none.mpr fun item member => by simpa using skipped item member
  conv_rhs => rw [← List.take_append_drop (restart * interval) items]
  rw [List.find?_append, notFound, Option.none_or]

/-! ### The table builder -/

/-- A data block and its place in the file. -/
structure Block (α β : Type) where
  offset : Nat
  entries : List (Entry α β)

/-- A finished table: the index block maps separators to data blocks, and the filter block has
one list of user keys for every 2 KB of data. -/
structure Table (α β : Type) where
  index : List (InternalKey α × Block α β)
  filters : Option (List (List α))

/-- The state of the builder: the index entries written so far, the block whose index entry is
pending, the keys of the block being filled, the file offset, and the filter block with the
keys of the filter being filled. -/
structure TableBuilder (α β : Type) where
  index : List (InternalKey α × Block α β)
  pending : Option (Block α β)
  lastKey : Option (InternalKey α)
  data : List (Entry α β)
  offset : Nat
  filters : List (List α)
  filterKeys : List α

def TableBuilder.new : TableBuilder α β := ⟨[], none, none, [], 0, [], []⟩

def kFilterBase : Nat := 2048

/-- `FilterBlockBuilder::StartBlock`: filters are generated until there is one for every 2 KB
before the offset. The first takes the keys added so far and the others are empty. -/
def TableBuilder.startBlock (builder : TableBuilder α β) (offset : Nat) : TableBuilder α β :=
  if builder.filters.length < offset / kFilterBase then
    { builder with
      filters := builder.filters ++ [builder.filterKeys] ++
        List.replicate (offset / kFilterBase - builder.filters.length - 1) []
      filterKeys := [] }
  else builder

/-- The pending index entry, once the next key is known. -/
def TableBuilder.addIndex (options : TableOptions α β φ) (builder : TableBuilder α β)
    (key : InternalKey α) : TableBuilder α β :=
  match builder.pending, builder.lastKey with
  | some block, some lastKey =>
    { builder with
      index := builder.index ++ [(findShortestSeparator options.shortener lastKey key, block)]
      pending := none }
  | _, _ => builder

/-- `TableBuilder::Flush`. -/
def TableBuilder.flush (options : TableOptions α β φ) (builder : TableBuilder α β) :
    TableBuilder α β :=
  if builder.data.isEmpty then builder
  else
    { builder with
      pending := some ⟨builder.offset, builder.data⟩
      data := []
      offset := builder.offset + options.blockBytes builder.data }.startBlock
        (builder.offset + options.blockBytes builder.data)

/-- `TableBuilder::Add`. -/
def TableBuilder.add (options : TableOptions α β φ) (builder : TableBuilder α β)
    (entry : Entry α β) : TableBuilder α β :=
  let indexed := builder.addIndex options entry.key
  let added :=
    { indexed with
      filterKeys := indexed.filterKeys ++ [entry.userKey]
      lastKey := some entry.key
      data := indexed.data ++ [entry] }
  if options.blockFull added.data then added.flush options else added

/-- The index block with the last pending entry. -/
def TableBuilder.finishIndex (options : TableOptions α β φ) (builder : TableBuilder α β) :
    List (InternalKey α × Block α β) :=
  match builder.pending, builder.lastKey with
  | some block, some lastKey =>
    builder.index ++ [(findShortSuccessor options.shortener lastKey, block)]
  | _, _ => builder.index

/-- `FilterBlockBuilder::Finish`: a filter with keys is still generated. -/
def TableBuilder.finishFilters (builder : TableBuilder α β) : List (List α) :=
  if builder.filterKeys.isEmpty then builder.filters
  else builder.filters ++ [builder.filterKeys]

/-- `TableBuilder::Finish`. -/
def TableBuilder.finish (options : TableOptions α β φ) (builder : TableBuilder α β) :
    Table α β :=
  { index := (builder.flush options).finishIndex options
    filters := options.filterPolicy.map fun _ => (builder.flush options).finishFilters }

/-- The table of a sorted list of entries. -/
def Table.build (options : TableOptions α β φ) (entries : List (Entry α β)) : Table α β :=
  (entries.foldl (TableBuilder.add options) TableBuilder.new).finish options

/-! ### The lookup -/

/-- `FilterBlockReader::KeyMayMatch`: an offset without a filter may match. -/
def keyMayMatch (policy : FilterPolicy α φ) (filters : List (List α)) (blockOffset : Nat)
    (key : InternalKey α) : Bool :=
  match filters[blockOffset / kFilterBase]? with
  | none => true
  | some [] => policy.keyMayMatch key.userKey policy.emptyFilter
  | some keys => policy.keyMayMatch key.userKey (policy.createFilter keys)

/-- `Table::InternalGet`: the entry handed to the saver. -/
def Table.internalGet (options : TableOptions α β φ) (table : Table α β) (key : InternalKey α) :
    Option (Entry α β) :=
  (blockSeek 1 Prod.fst table.index key).bind fun handle =>
    let mayMatch := match options.filterPolicy, table.filters with
      | some policy, some filters => keyMayMatch policy filters handle.2.offset key
      | _, _ => true
    if mayMatch then blockSeek options.blockRestartInterval Entry.key handle.2.entries key
    else none

/-! ### What the builder keeps true -/

/-- The separator splits the entries right after the last entry of the block, and every key
between that entry and the separator has a smaller user key than all later entries. -/
def SplitsAfter (all : List (Entry α β)) (separator : InternalKey α) (block : List (Entry α β)) :
    Prop :=
  ∃ last, block.getLast? = some last ∧ last.key ≤ separator ∧
    ∀ entry ∈ all, last.key < entry.key → separator < entry.key ∧
      ∀ key, last.key < key → key ≤ separator → key.userKey < entry.userKey

/-- The entries of the blocks with an index entry. -/
def indexEntries (index : List (InternalKey α × Block α β)) : List (Entry α β) :=
  index.flatMap fun handle => handle.2.entries

/-- The blocks written so far and the block being filled, in front of the entries still to be
added, are all entries; the separators split them; the last key is that of the last block. -/
structure TableBuilder.Inv (all remaining : List (Entry α β)) (builder : TableBuilder α β) :
    Prop where
  entries_eq : indexEntries builder.index ++ (builder.pending.map Block.entries).getD [] ++
    builder.data ++ remaining = all
  splits : ∀ handle ∈ builder.index, SplitsAfter all handle.1 handle.2.entries
  data_eq : builder.pending.isSome → builder.data = []
  pending_last : ∀ block ∈ builder.pending, ∃ last, block.entries.getLast? = some last ∧
    builder.lastKey = some last.key
  data_last : builder.data ≠ [] → ∃ last, builder.data.getLast? = some last ∧
    builder.lastKey = some last.key

theorem TableBuilder.new_inv (all : List (Entry α β)) :
    (TableBuilder.new : TableBuilder α β).Inv all all :=
  ⟨rfl, fun _ member => absurd member List.not_mem_nil, fun _ => rfl, nofun,
    fun nonempty => absurd rfl nonempty⟩

/-- In a sorted list an entry splits from the next one. -/
theorem splitsAfter_separator {all front rest : List (Entry α β)} (sorted : Sorted all)
    {entry last : Entry α β} {block : List (Entry α β)} (isLast : block.getLast? = some last)
    (equal : front ++ block ++ entry :: rest = all) (shortener : KeyShortener α) :
    SplitsAfter all (findShortestSeparator shortener last.key entry.key) block := by
  refine ⟨last, isLast, le_findShortestSeparator shortener _ _, ?_⟩
  obtain ⟨init, rfl⟩ := List.getLast?_eq_some_iff.mp isLast
  subst equal
  have order := List.pairwise_append.mp sorted
  have lastFirst : last.key < entry.key :=
    order.2.2 last (List.mem_append_right _ (List.mem_append_right _ (List.mem_singleton.mpr rfl)))
      entry List.mem_cons_self
  intro other member after
  have atOrAfter : entry.key ≤ other.key := by
    rcases List.mem_append.mp member with before | inRest
    · have notAfter : other.key ≤ last.key := by
        rw [← List.append_assoc] at before order
        rcases List.mem_append.mp before with early | isSame
        · exact ((List.pairwise_append.mp order.1).2.2 other early last
            (List.mem_singleton.mpr rfl)).le
        · exact le_of_eq (congrArg Entry.key (List.mem_singleton.mp isSame))
      exact absurd after (not_lt_of_ge notAfter)
    · rcases List.mem_cons.mp inRest with rfl | later
      · exact le_rfl
      · exact ((List.pairwise_cons.mp order.2.1).1 other later).le
  have gap : ∀ key, last.key < key → key ≤ findShortestSeparator shortener last.key entry.key →
      key.userKey < entry.userKey := fun key between before =>
    userKey_lt_of_separator shortener between before
  refine ⟨?_, fun key between before =>
    (gap key between before).trans_le (InternalKey.userKey_le_of_le atOrAfter)⟩
  rcases (le_findShortestSeparator shortener last.key entry.key).lt_or_eq with less | same
  · exact (InternalKey.lt_of_userKey_lt (gap _ less le_rfl)).trans_le atOrAfter
  · rw [← same]
    exact after

theorem TableBuilder.Inv.addIndex {all rest : List (Entry α β)} (sorted : Sorted all)
    {entry : Entry α β} {builder : TableBuilder α β} (inv : builder.Inv all (entry :: rest))
    (options : TableOptions α β φ) :
    (builder.addIndex options entry.key).Inv all (entry :: rest) ∧
      (builder.addIndex options entry.key).pending = none := by
  unfold TableBuilder.addIndex
  cases isPending : builder.pending with
  | none => exact ⟨inv, isPending⟩
  | some block =>
    obtain ⟨last, isLast, lastKey⟩ := inv.pending_last block isPending
    have noData := inv.data_eq (by rw [isPending]; rfl)
    have equal := inv.entries_eq
    rw [isPending, noData, List.append_nil] at equal
    simp only [lastKey]
    refine ⟨⟨?_, ?_, nofun, nofun, fun nonempty => absurd noData nonempty⟩, trivial⟩
    · simp only [indexEntries, List.flatMap_append, List.flatMap_singleton, Option.map_none,
        Option.getD_none, List.append_nil, noData]
      exact equal
    · intro handle member
      rcases List.mem_append.mp member with old | new
      · exact inv.splits handle old
      · rw [List.mem_singleton.mp new]
        exact splitsAfter_separator sorted isLast equal options.shortener

section StartBlock

omit [LinearOrder α]

@[simp] theorem startBlock_index (builder : TableBuilder α β) (offset : Nat) :
    (builder.startBlock offset).index = builder.index := by
  unfold TableBuilder.startBlock
  split <;> rfl

@[simp] theorem startBlock_pending (builder : TableBuilder α β) (offset : Nat) :
    (builder.startBlock offset).pending = builder.pending := by
  unfold TableBuilder.startBlock
  split <;> rfl

@[simp] theorem startBlock_data (builder : TableBuilder α β) (offset : Nat) :
    (builder.startBlock offset).data = builder.data := by
  unfold TableBuilder.startBlock
  split <;> rfl

@[simp] theorem startBlock_lastKey (builder : TableBuilder α β) (offset : Nat) :
    (builder.startBlock offset).lastKey = builder.lastKey := by
  unfold TableBuilder.startBlock
  split <;> rfl

@[simp] theorem startBlock_offset (builder : TableBuilder α β) (offset : Nat) :
    (builder.startBlock offset).offset = builder.offset := by
  unfold TableBuilder.startBlock
  split <;> rfl

end StartBlock

theorem TableBuilder.Inv.flush {all remaining : List (Entry α β)} {builder : TableBuilder α β}
    (inv : builder.Inv all remaining) (noPending : builder.data ≠ [] → builder.pending = none)
    (options : TableOptions α β φ) : (builder.flush options).Inv all remaining := by
  unfold TableBuilder.flush
  split
  · exact inv
  · rename_i nonempty
    rw [List.isEmpty_iff] at nonempty
    have equal := inv.entries_eq
    rw [noPending nonempty] at equal
    refine ⟨?_, ?_, ?_, ?_, ?_⟩
    · simpa using equal
    · simpa using inv.splits
    · simp
    · simp only [startBlock_pending, startBlock_lastKey]
      rintro block isBlock
      cases isBlock
      exact inv.data_last nonempty
    · simp

/-- Adding the next entry keeps the invariant. -/
theorem TableBuilder.Inv.add {options : TableOptions α β φ} {all rest : List (Entry α β)}
    (sorted : Sorted all) {entry : Entry α β} {builder : TableBuilder α β}
    (inv : builder.Inv all (entry :: rest)) : (builder.add options entry).Inv all rest := by
  obtain ⟨indexed, noPending⟩ := inv.addIndex sorted options
  have added : ({ builder.addIndex options entry.key with
      filterKeys := (builder.addIndex options entry.key).filterKeys ++ [entry.userKey]
      lastKey := some entry.key
      data := (builder.addIndex options entry.key).data ++ [entry] } :
        TableBuilder α β).Inv all rest := by
    refine ⟨?_, indexed.splits, ?_, ?_, ?_⟩
    · have equal := indexed.entries_eq
      simpa using equal
    · intro isSome
      rw [noPending] at isSome
      cases isSome
    · intro block isBlock
      rw [noPending] at isBlock
      cases isBlock
    · intro _
      exact ⟨entry, List.getLast?_concat, rfl⟩
  unfold TableBuilder.add
  simp only
  split
  · exact added.flush (fun _ => noPending) options
  · exact added

theorem foldl_add_inv {options : TableOptions α β φ} {all remaining : List (Entry α β)}
    (sorted : Sorted all) {builder : TableBuilder α β} (inv : builder.Inv all remaining) :
    (remaining.foldl (TableBuilder.add options) builder).Inv all [] := by
  induction remaining generalizing builder with
  | nil => exact inv
  | cons entry rest inductionHypothesis => exact inductionHypothesis (inv.add sorted)

/-! ### The filters -/

/-- The user key was added to the filter for the offset, finished or being filled. -/
def TableBuilder.InFilter (builder : TableBuilder α β) (offset : Nat) (userKey : α) : Prop :=
  (∃ keys, builder.filters[offset / kFilterBase]? = some keys ∧ userKey ∈ keys) ∨
    (offset / kFilterBase = builder.filters.length ∧ userKey ∈ builder.filterKeys)

/-- The blocks written so far. -/
def TableBuilder.blocks (builder : TableBuilder α β) : List (Block α β) :=
  builder.index.map Prod.snd ++ builder.pending.toList

/-- There is one finished filter for every 2 KB before the offset, and every user key is in the
filter of its block. -/
structure TableBuilder.Filtered (builder : TableBuilder α β) : Prop where
  length_eq : builder.filters.length = builder.offset / kFilterBase
  blocks : ∀ block ∈ builder.blocks, ∀ entry ∈ block.entries,
    builder.InFilter block.offset entry.userKey
  data : ∀ entry ∈ builder.data, entry.userKey ∈ builder.filterKeys

omit [LinearOrder α] in
theorem TableBuilder.InFilter.startBlock {builder : TableBuilder α β} {offset : Nat} {userKey : α}
    (inFilter : builder.InFilter offset userKey) (next : Nat) :
    (builder.startBlock next).InFilter offset userKey := by
  unfold TableBuilder.startBlock
  split
  · rcases inFilter with ⟨keys, found, member⟩ | ⟨isLast, member⟩
    · refine Or.inl ⟨keys, ?_, member⟩
      have bound := (List.getElem?_eq_some_iff.mp found).1
      rw [List.append_assoc, List.getElem?_append_left bound]
      exact found
    · refine Or.inl ⟨builder.filterKeys, ?_, member⟩
      rw [isLast, List.append_assoc, List.getElem?_append_right le_rfl, Nat.sub_self]
      rfl
  · exact inFilter

theorem TableBuilder.Filtered.flush {builder : TableBuilder α β} (filtered : builder.Filtered)
    (options : TableOptions α β φ) : (builder.flush options).Filtered := by
  unfold TableBuilder.flush
  split
  · exact filtered
  · rename_i nonempty
    rw [List.isEmpty_iff] at nonempty
    set next := builder.offset + options.blockBytes builder.data with nextEq
    have grows : builder.offset / kFilterBase ≤ next / kFilterBase :=
      Nat.div_le_div_right (Nat.le_add_right _ _)
    refine ⟨?_, ?_, ?_⟩
    · rw [startBlock_offset]
      unfold TableBuilder.startBlock
      split
      · rename_i behind
        simp only at behind
        simp only [List.length_append, List.length_singleton, List.length_replicate]
        omega
      · rename_i enough
        simp only at enough ⊢
        have same := filtered.length_eq
        omega
    · intro block member entry inBlock
      refine TableBuilder.InFilter.startBlock ?_ next
      simp only [TableBuilder.blocks, startBlock_index, startBlock_pending] at member
      rcases List.mem_append.mp member with old | new
      · exact filtered.blocks block (List.mem_append_left _ old) entry inBlock
      · simp only [Option.toList_some, List.mem_singleton] at new
        subst new
        exact Or.inr ⟨filtered.length_eq.symm, filtered.data entry inBlock⟩
    · rw [startBlock_data]
      exact fun entry member => absurd member List.not_mem_nil

theorem TableBuilder.addIndex_fields (options : TableOptions α β φ) (builder : TableBuilder α β)
    (key : InternalKey α) :
    (builder.addIndex options key).filters = builder.filters ∧
      (builder.addIndex options key).filterKeys = builder.filterKeys ∧
      (builder.addIndex options key).offset = builder.offset ∧
      (builder.addIndex options key).data = builder.data ∧
      (builder.addIndex options key).blocks = builder.blocks := by
  unfold TableBuilder.addIndex
  split
  · rename_i block lastKey isPending _
    refine ⟨rfl, rfl, rfl, rfl, ?_⟩
    simp [TableBuilder.blocks, isPending]
  · exact ⟨rfl, rfl, rfl, rfl, rfl⟩

theorem TableBuilder.Filtered.add {builder : TableBuilder α β} (filtered : builder.Filtered)
    (options : TableOptions α β φ) (entry : Entry α β) :
    (builder.add options entry).Filtered := by
  obtain ⟨filters, filterKeys, offset, data, blocks⟩ :=
    TableBuilder.addIndex_fields options builder entry.key
  have added : ({ builder.addIndex options entry.key with
      filterKeys := (builder.addIndex options entry.key).filterKeys ++ [entry.userKey]
      lastKey := some entry.key
      data := (builder.addIndex options entry.key).data ++ [entry] } :
        TableBuilder α β).Filtered := by
    refine ⟨?_, ?_, ?_⟩
    · show (builder.addIndex options entry.key).filters.length =
        (builder.addIndex options entry.key).offset / kFilterBase
      rw [filters, offset]
      exact filtered.length_eq
    · intro block member other inBlock
      have inOld : block ∈ builder.blocks := blocks ▸ member
      rcases filtered.blocks block inOld other inBlock with found | ⟨isLast, inKeys⟩
      · refine Or.inl ?_
        show ∃ keys, (builder.addIndex options entry.key).filters[_]? = some keys ∧ _
        rw [filters]
        exact found
      · refine Or.inr ⟨?_, ?_⟩
        · show _ = (builder.addIndex options entry.key).filters.length
          rw [filters]
          exact isLast
        · show _ ∈ (builder.addIndex options entry.key).filterKeys ++ [entry.userKey]
          rw [filterKeys]
          exact List.mem_append_left _ inKeys
    · intro other member
      show _ ∈ (builder.addIndex options entry.key).filterKeys ++ [entry.userKey]
      rcases List.mem_append.mp member with old | new
      · rw [filterKeys]
        exact List.mem_append_left _ (filtered.data other (data ▸ old))
      · rw [List.mem_singleton.mp new]
        exact List.mem_append_right _ (List.mem_singleton.mpr rfl)
  unfold TableBuilder.add
  simp only
  split
  · exact added.flush options
  · exact added

theorem foldl_add_filtered (options : TableOptions α β φ) {builder : TableBuilder α β}
    (filtered : builder.Filtered) (entries : List (Entry α β)) :
    (entries.foldl (TableBuilder.add options) builder).Filtered := by
  induction entries generalizing builder with
  | nil => exact filtered
  | cons entry rest inductionHypothesis =>
    exact inductionHypothesis (filtered.add options entry)

/-! ### The finished table -/

/-- What a finished table of `all` looks like. -/
structure Table.Of (options : TableOptions α β φ) (all : List (Entry α β)) (table : Table α β) :
    Prop where
  entries_eq : indexEntries table.index = all
  splits : ∀ handle ∈ table.index, SplitsAfter all handle.1 handle.2.entries
  filtered : ∀ policy ∈ options.filterPolicy, ∀ filters ∈ table.filters,
    ∀ handle ∈ table.index, ∀ entry ∈ handle.2.entries, ∀ key : InternalKey α,
      key.userKey = entry.userKey → keyMayMatch policy filters handle.2.offset key = true

omit [LinearOrder α] in
theorem keyMayMatch_of_mem (policy : FilterPolicy α φ) {filters : List (List α)} {offset : Nat}
    {keys : List α} (found : filters[offset / kFilterBase]? = some keys) {key : InternalKey α}
    (member : key.userKey ∈ keys) : keyMayMatch policy filters offset key = true := by
  unfold keyMayMatch
  rw [found]
  cases keys with
  | nil => exact absurd member List.not_mem_nil
  | cons first rest => exact policy.mayMatch_of_mem _ _ member

omit [LinearOrder α] in
/-- The last filter is written when it has keys, so no key is lost with it. -/
theorem TableBuilder.InFilter.finish {builder : TableBuilder α β} {offset : Nat} {userKey : α}
    (inFilter : builder.InFilter offset userKey) :
    ∃ keys, builder.finishFilters[offset / kFilterBase]? = some keys ∧ userKey ∈ keys := by
  unfold TableBuilder.finishFilters
  rcases inFilter with ⟨keys, found, member⟩ | ⟨isLast, member⟩
  · refine ⟨keys, ?_, member⟩
    split
    · exact found
    · rw [List.getElem?_append_left (List.getElem?_eq_some_iff.mp found).1]
      exact found
  · have nonempty : ¬ builder.filterKeys.isEmpty = true := by
      rw [List.isEmpty_iff]
      exact List.ne_nil_of_mem member
    refine ⟨builder.filterKeys, ?_, member⟩
    rw [if_neg nonempty, isLast, List.getElem?_append_right le_rfl, Nat.sub_self]
    rfl

theorem flush_data (options : TableOptions α β φ) (builder : TableBuilder α β) :
    (builder.flush options).data = [] := by
  unfold TableBuilder.flush
  split
  · rename_i empty
    exact List.isEmpty_iff.mp empty
  · rw [startBlock_data]

/-- The last entry has nothing after it to split from. -/
theorem splitsAfter_successor {all front : List (Entry α β)} (sorted : Sorted all)
    {last : Entry α β} {block : List (Entry α β)} (isLast : block.getLast? = some last)
    (equal : front ++ block = all) (shortener : KeyShortener α) :
    SplitsAfter all (findShortSuccessor shortener last.key) block := by
  refine ⟨last, isLast, le_findShortSuccessor shortener _, fun entry member after => ?_⟩
  obtain ⟨init, rfl⟩ := List.getLast?_eq_some_iff.mp isLast
  rw [← List.append_assoc] at equal
  subst equal
  have notAfter : entry.key ≤ last.key := by
    rcases List.mem_append.mp member with early | isSame
    · exact ((List.pairwise_append.mp sorted).2.2 entry early last
        (List.mem_singleton.mpr rfl)).le
    · exact le_of_eq (congrArg Entry.key (List.mem_singleton.mp isSame))
  exact absurd after (not_lt_of_ge notAfter)

/-- The finished index covers all entries, and its blocks are those written. -/
theorem TableBuilder.Inv.finishIndex {all : List (Entry α β)} (sorted : Sorted all)
    {builder : TableBuilder α β} (inv : builder.Inv all []) (noData : builder.data = [])
    (options : TableOptions α β φ) :
    indexEntries (builder.finishIndex options) = all ∧
      (∀ handle ∈ builder.finishIndex options, SplitsAfter all handle.1 handle.2.entries) ∧
      ∀ handle ∈ builder.finishIndex options, handle.2 ∈ builder.blocks := by
  have equal := inv.entries_eq
  rw [noData, List.append_nil, List.append_nil] at equal
  unfold TableBuilder.finishIndex TableBuilder.blocks
  cases isPending : builder.pending with
  | none =>
    rw [isPending, Option.map_none, Option.getD_none, List.append_nil] at equal
    exact ⟨equal, inv.splits, fun handle member =>
      List.mem_append_left _ (List.mem_map_of_mem member)⟩
  | some block =>
    obtain ⟨last, isLast, lastKey⟩ := inv.pending_last block isPending
    rw [isPending] at equal
    simp only [lastKey]
    refine ⟨?_, fun handle member => ?_, fun handle member => ?_⟩
    · rw [indexEntries, List.flatMap_append, List.flatMap_singleton]
      exact equal
    · rcases List.mem_append.mp member with old | new
      · exact inv.splits handle old
      · rw [List.mem_singleton.mp new]
        exact splitsAfter_successor sorted isLast equal options.shortener
    · rcases List.mem_append.mp member with old | new
      · exact List.mem_append_left _ (List.mem_map_of_mem old)
      · rw [List.mem_singleton.mp new]
        exact List.mem_append_right _ (List.mem_singleton.mpr rfl)

/-- The spec of the builder. -/
theorem Table.build_of (options : TableOptions α β φ) {all : List (Entry α β)}
    (sorted : Sorted all) : (Table.build options all).Of options all := by
  set builder := all.foldl (TableBuilder.add options) TableBuilder.new with builderEq
  have inv : builder.Inv all [] := foldl_add_inv sorted (TableBuilder.new_inv all)
  have start : (TableBuilder.new : TableBuilder α β).Filtered :=
    ⟨(Nat.zero_div _).symm, fun block member => absurd member List.not_mem_nil,
      fun entry member => absurd member List.not_mem_nil⟩
  have filtered : (builder.flush options).Filtered :=
    (foldl_add_filtered options start all).flush options
  have flushed : (builder.flush options).Inv all [] := by
    refine inv.flush (fun nonempty => ?_) options
    by_contra isPending
    exact nonempty (inv.data_eq (Option.isSome_iff_ne_none.mpr isPending))
  obtain ⟨equal, splits, blocks⟩ := flushed.finishIndex sorted (flush_data options builder) options
  refine ⟨equal, splits, ?_⟩
  intro policy _ filters isFilters handle member entry inBlock key same
  obtain ⟨_, _, rfl⟩ := Option.map_eq_some_iff.mp isFilters
  obtain ⟨keys, found, inKeys⟩ :=
    (filtered.blocks handle.2 (blocks handle member) entry inBlock).finish
  exact keyMayMatch_of_mem policy found (same ▸ inKeys)

/-! ### The lookup finds the first entry of its user key -/

theorem index_pairwise {all : List (Entry α β)} (sorted : Sorted all)
    {index : List (InternalKey α × Block α β)} (equal : indexEntries index = all)
    (splits : ∀ handle ∈ index, SplitsAfter all handle.1 handle.2.entries) :
    index.Pairwise fun first second => first.1 < second.1 := by
  rw [← equal] at sorted
  refine (List.pairwise_flatMap.mp sorted).2.imp_of_mem
    fun {first second} firstMember secondMember less => ?_
  obtain ⟨firstLast, isFirst, _, firstSplits⟩ := splits first firstMember
  obtain ⟨secondLast, isSecond, atLeast, _⟩ := splits second secondMember
  have inSecond := List.mem_of_getLast? isSecond
  have inAll : secondLast ∈ all := equal ▸ List.mem_flatMap.mpr ⟨second, secondMember, inSecond⟩
  have order := less firstLast (List.mem_of_getLast? isFirst) secondLast inSecond
  exact (firstSplits secondLast inAll order).1.trans_le atLeast

/-- What the lookup hands the saver is an entry at or after the key. -/
theorem Table.mem_of_internalGet {options : TableOptions α β φ} {all : List (Entry α β)}
    {table : Table α β} (isTable : table.Of options all) (sorted : Sorted all)
    {key : InternalKey α} {entry : Entry α β} (handed : table.internalGet options key = some entry) :
    entry ∈ all ∧ key ≤ entry.key := by
  obtain ⟨handle, found, rest⟩ := Option.bind_eq_some_iff.mp handed
  rw [blockSeek_eq 1 Prod.fst (index_pairwise sorted isTable.entries_eq isTable.splits)] at found
  have inIndex := List.mem_of_find?_eq_some found
  have blockSorted : Sorted handle.2.entries := by
    have whole := isTable.entries_eq ▸ sorted
    exact (List.pairwise_flatMap.mp whole).1 handle inIndex
  simp only at rest
  generalize (match options.filterPolicy, table.filters with
    | some policy, some filters => keyMayMatch policy filters handle.2.offset key
    | _, _ => true) = mayMatch at rest
  split at rest
  · rw [blockSeek_eq _ Entry.key blockSorted] at rest
    refine ⟨?_, by simpa using List.find?_some rest⟩
    rw [← isTable.entries_eq]
    exact List.mem_flatMap.mpr ⟨handle, inIndex, List.mem_of_find?_eq_some rest⟩
  · cases rest

/-- The index leads to the block of the first entry at or after the key, when that entry has
the user key of the lookup. -/
theorem Table.find_index {options : TableOptions α β φ} {all : List (Entry α β)}
    (sorted : Sorted all) {table : Table α β} (isTable : table.Of options all)
    {key : InternalKey α} {entry : Entry α β} (member : entry ∈ all) (after : key ≤ entry.key)
    (least : ∀ other ∈ all, key ≤ other.key → entry.key ≤ other.key)
    (same : entry.userKey = key.userKey) :
    ∃ handle ∈ table.index, entry ∈ handle.2.entries ∧
      table.index.find? (fun handle => key ≤ handle.1) = some handle := by
  have whole : Sorted (indexEntries table.index) := isTable.entries_eq ▸ sorted
  rw [← isTable.entries_eq] at member
  obtain ⟨home, inIndex, inHome⟩ := List.mem_flatMap.mp member
  have reaches : key ≤ home.1 := by
    obtain ⟨last, isLast, atLeast, _⟩ := isTable.splits home inIndex
    have homeSorted := (List.pairwise_flatMap.mp whole).1 home inIndex
    exact (after.trans (le_last_of_sorted homeSorted isLast entry inHome)).trans atLeast
  obtain ⟨handle, found⟩ : ∃ handle,
      table.index.find? (fun handle => decide (key ≤ handle.1)) = some handle := by
    rw [← Option.isSome_iff_exists, List.find?_isSome]
    exact ⟨home, inIndex, by simpa using reaches⟩
  obtain ⟨reached, front, back, split, before⟩ := List.find?_eq_some_iff_append.mp found
  rw [split] at inIndex
  rcases List.mem_append.mp inIndex with inFront | inRest
  · exact absurd (before home inFront) (by simpa using reaches)
  · rcases List.mem_cons.mp inRest with rfl | inBack
    · exact ⟨home, List.mem_of_find?_eq_some found, inHome, found⟩
    · have handleMember := List.mem_of_find?_eq_some found
      obtain ⟨last, isLast, _, splits⟩ := isTable.splits handle handleMember
      have inHandle := List.mem_of_getLast? isLast
      have order : last.key < entry.key := by
        rw [split] at whole
        have blocks := (List.pairwise_append.mp (List.pairwise_flatMap.mp whole).2).2.1
        exact (List.pairwise_cons.mp blocks).1 home inBack last inHandle entry inHome
      have lastMember : last ∈ all := by
        rw [← isTable.entries_eq]
        exact List.mem_flatMap.mpr ⟨handle, handleMember, inHandle⟩
      have lastBefore : last.key < key := by
        by_contra notBefore
        exact absurd (least last lastMember (not_lt.mp notBefore)) (not_le_of_gt order)
      rw [isTable.entries_eq] at member
      have gap := (splits entry member order).2 key lastBefore (by simpa using reached)
      exact absurd same (ne_of_gt gap)

/-- The lookup hands the saver the first entry at or after the key, when that entry has the
user key of the lookup, and otherwise no entry of that user key. -/
theorem Table.internalGet_spec {options : TableOptions α β φ} {all : List (Entry α β)}
    (sorted : Sorted all) {table : Table α β} (isTable : table.Of options all)
    (key : InternalKey α) :
    (table.internalGet options key).filter (fun entry => entry.userKey = key.userKey) =
      (all.find? fun entry => key ≤ entry.key).filter fun entry => entry.userKey = key.userKey := by
  by_cases hit : ∃ entry, (all.find? fun entry => decide (key ≤ entry.key)) = some entry ∧
      entry.userKey = key.userKey
  · obtain ⟨entry, first, same⟩ := hit
    obtain ⟨member, after, least⟩ := (find_seek_eq_some sorted).mp first
    obtain ⟨handle, inIndex, inBlock, found⟩ :=
      Table.find_index sorted isTable member after least same
    have blockSorted : Sorted handle.2.entries := by
      have whole : Sorted (indexEntries table.index) := isTable.entries_eq ▸ sorted
      exact (List.pairwise_flatMap.mp whole).1 handle inIndex
    have inBlockFirst : (handle.2.entries.find? fun entry => decide (key ≤ entry.key)) =
        some entry := by
      refine (find_seek_eq_some blockSorted).mpr ⟨inBlock, after, fun other inside => ?_⟩
      refine least other ?_
      rw [← isTable.entries_eq]
      exact List.mem_flatMap.mpr ⟨handle, inIndex, inside⟩
    have mayMatch : (match options.filterPolicy, table.filters with
        | some policy, some filters => keyMayMatch policy filters handle.2.offset key
        | _, _ => true) = true := by
      split
      · rename_i policy filters isPolicy isFilters
        exact isTable.filtered policy isPolicy filters isFilters handle inIndex entry inBlock key
          same.symm
      · rfl
    have handed : table.internalGet options key = some entry := by
      unfold Table.internalGet
      rw [blockSeek_eq 1 Prod.fst (index_pairwise sorted isTable.entries_eq isTable.splits), found]
      simp only [Option.bind_some, mayMatch, if_true]
      rw [blockSeek_eq _ Entry.key blockSorted, inBlockFirst]
    rw [handed, first]
  · have noneLeft : (all.find? fun entry => decide (key ≤ entry.key)).filter
        (fun entry => decide (entry.userKey = key.userKey)) = none := by
      rw [Option.filter_eq_none_iff]
      intro entry found same
      exact hit ⟨entry, found, by simpa using same⟩
    rw [noneLeft, Option.filter_eq_none_iff]
    intro entry handed same
    obtain ⟨member, after⟩ := Table.mem_of_internalGet isTable sorted handed
    obtain ⟨first, found⟩ : ∃ first,
        (all.find? fun entry => decide (key ≤ entry.key)) = some first := by
      rw [← Option.isSome_iff_exists, List.find?_isSome]
      exact ⟨entry, member, by simpa using after⟩
    obtain ⟨_, firstAfter, least⟩ := (find_seek_eq_some sorted).mp found
    have lower := InternalKey.userKey_le_of_le firstAfter
    have upper := InternalKey.userKey_le_of_le (least entry member after)
    have sameKey : entry.userKey = key.userKey := by simpa using same
    exact hit ⟨first, found, le_antisymm (upper.trans_eq sameKey) lower⟩

end LevelDb
