/-
This file proves that the block cache is transparent: `BlockReader` returns the iterator that it
would return without a cache. What is cached under the ID of a table is a block that was read
through this table at the offset in its key, because no two tables or clients have one ID.

The key names neither the size in the handle nor how the block was read, so the reads of a table at
one offset have to agree in these; and there are only so many IDs.
-/

import LevelDb.Sst.BlockCache

namespace LevelDb.Sst

open LRUCache BlockCache

/-! ### The invariant -/

/-- What may be cached: a block that was read through the table whose ID its key starts with, at the
offset behind the ID. -/
def Cached (ids : List Nat) (opened : List Table) (reads : List BlockRead) (key : Bytes)
    (block : Block) : Prop :=
  (∃ id ∈ ids, key.take 8 = encodeFixed64 id) ∧
  ∀ table ∈ opened, key.take 8 = encodeFixed64 table.cacheId →
    ∃ read ∈ reads, read.table = table ∧ read.handle.offset < 2 ^ 64 ∧
      key = cacheKey table.cacheId read.handle.offset ∧
      ∃ contents, readBlock table.file table.options.compressors read.options.verifyChecksums
        read.handle = .ok (.ok contents) ∧ block = .new contents.data

namespace CacheSystem

/-- The cache counts its IDs, and they are those of the tables and of the other clients. As long as
they have not wrapped, what is cached was read. -/
structure Inv (system : CacheSystem) : Prop where
  ids_eq : system.ids = (List.range system.ids.length).map fun number => (number + 1) % 2 ^ 64
  lastId_eq : system.cache.lastId = system.ids.length % 2 ^ 64
  perm : (system.opened.map Table.cacheId ++ system.clientIds).Perm system.ids
  opened : ∀ table ∈ system.tables, table ∈ system.opened
  keeps : system.ids.length ≤ 2 ^ 64 →
    system.cache.KeepsAll (Cached system.ids system.opened system.reads)

variable {system system' : CacheSystem}

theorem Inv.id_lt (inv : system.Inv) {id : Nat} (member : id ∈ system.ids) : id < 2 ^ 64 := by
  rw [inv.ids_eq] at member
  obtain ⟨number, _, rfl⟩ := List.mem_map.mp member
  exact Nat.mod_lt _ (Nat.two_pow_pos 64)

theorem Inv.table_mem (inv : system.Inv) {table : Table} (member : table ∈ system.opened) :
    table.cacheId ∈ system.ids :=
  inv.perm.mem_iff.mp (List.mem_append_left _ (List.mem_map_of_mem member))

/-- Numbers that differ by less than `2 ^ 64` are different IDs. -/
theorem nodup_ids {count : Nat} (few : count ≤ 2 ^ 64) :
    ((List.range count).map fun number => (number + 1) % 2 ^ 64).Nodup := by
  refine List.Nodup.map_on (fun first isFirst second isSecond same => ?_) List.nodup_range
  rw [List.mem_range] at isFirst isSecond
  have congruent : first % 2 ^ 64 = second % 2 ^ 64 := Nat.ModEq.add_right_cancel' 1 same
  rwa [Nat.mod_eq_of_lt (isFirst.trans_le few), Nat.mod_eq_of_lt (isSecond.trans_le few)]
    at congruent

theorem Inv.nodup (inv : system.Inv) (few : system.ids.length ≤ 2 ^ 64) : system.ids.Nodup := by
  rw [inv.ids_eq]
  exact nodup_ids few

/-- No two tables that were opened have one ID. -/
theorem Inv.table_eq (inv : system.Inv) (few : system.ids.length ≤ 2 ^ 64) {first second : Table}
    (isFirst : first ∈ system.opened) (isSecond : second ∈ system.opened)
    (same : encodeFixed64 first.cacheId = encodeFixed64 second.cacheId) : first = second := by
  have distinct := List.nodup_append.mp ((inv.perm.nodup_iff).mpr (inv.nodup few))
  exact List.inj_on_of_nodup_map distinct.1 isFirst isSecond (encodeFixed64_injective
    (inv.id_lt (inv.table_mem isFirst)) (inv.id_lt (inv.table_mem isSecond)) same)

/-- No client has the ID of a table. -/
theorem Inv.client_ne (inv : system.Inv) (few : system.ids.length ≤ 2 ^ 64) {table : Table}
    {id : Nat} (isOpened : table ∈ system.opened) (isClient : id ∈ system.clientIds) :
    encodeFixed64 id ≠ encodeFixed64 table.cacheId := by
  intro same
  have distinct := List.nodup_append.mp ((inv.perm.nodup_iff).mpr (inv.nodup few))
  have isId := inv.perm.mem_iff.mp (List.mem_append_right _ isClient)
  exact distinct.2.2 _ (List.mem_map_of_mem isOpened) id isClient
    (encodeFixed64_injective (inv.id_lt isId) (inv.id_lt (inv.table_mem isOpened)) same).symm

theorem inv_new (capacity : Nat) : (new capacity).Inv where
  ids_eq := rfl
  lastId_eq := rfl
  perm := List.Perm.refl _
  opened := nofun
  keeps := fun _ => keepsAll_new capacity

/-- The cache changes, and more is read. -/
theorem Inv.update (inv : system.Inv) {cache : BlockCache} {reads : List BlockRead}
    (lastId : cache.lastId = system.cache.lastId)
    (keeps : system.ids.length ≤ 2 ^ 64 →
      system.cache.KeepsAll (Cached system.ids system.opened system.reads) →
      cache.KeepsAll (Cached system.ids system.opened reads)) :
    Inv { system with cache := cache, reads := reads } where
  ids_eq := inv.ids_eq
  lastId_eq := lastId.trans inv.lastId_eq
  perm := inv.perm
  opened := inv.opened
  keeps := fun few => keeps few (inv.keeps few)

/-- The next ID is a new one. -/
theorem Inv.newId_notMem (inv : system.Inv) (few : system.ids.length + 1 ≤ 2 ^ 64) :
    system.cache.newId.1 ∉ system.ids := by
  have distinct := nodup_ids few
  rw [List.range_succ, List.map_append, ← inv.ids_eq] at distinct
  intro member
  refine (List.nodup_append.mp distinct).2.2 _ member _ (List.mem_singleton_self _) ?_
  rw [newId, inv.lastId_eq]
  exact Nat.mod_add_mod _ _ _

/-- The IDs after one more was given out. -/
theorem Inv.newId_ids (inv : system.Inv) :
    system.ids ++ [system.cache.newId.1] =
      (List.range (system.ids ++ [system.cache.newId.1]).length).map
        fun number => (number + 1) % 2 ^ 64 := by
  rw [List.length_append, List.length_singleton, List.range_succ, List.map_append, ← inv.ids_eq,
    newId, inv.lastId_eq, Nat.mod_add_mod]
  rfl

theorem Inv.newId_lastId (inv : system.Inv) :
    system.cache.newId.2.lastId = (system.ids ++ [system.cache.newId.1]).length % 2 ^ 64 := by
  rw [List.length_append, List.length_singleton, newId, inv.lastId_eq, Nat.mod_add_mod]

/-- What was cached before an ID was given out does not have it. -/
theorem Inv.cached_more (inv : system.Inv) (few : system.ids.length + 1 ≤ 2 ^ 64)
    {opened : List Table} {key : Bytes} {block : Block}
    (newOnes : ∀ table ∈ opened, table ∈ system.opened ∨ table.cacheId = system.cache.newId.1)
    (cached : Cached system.ids system.opened system.reads key block) :
    Cached (system.ids ++ [system.cache.newId.1]) opened system.reads key block := by
  obtain ⟨⟨id, isId, starts⟩, read⟩ := cached
  refine ⟨⟨id, List.mem_append_left _ isId, starts⟩, fun table isOpened same => ?_⟩
  rcases newOnes table isOpened with isOld | isNew
  · exact read table isOld same
  · rw [starts, isNew] at same
    have isSame := encodeFixed64_injective (inv.id_lt isId) (Nat.mod_lt _ (Nat.two_pow_pos 64)) same
    rw [isSame] at isId
    exact absurd isId (inv.newId_notMem few)

theorem Inv.openTable (inv : system.Inv) {options : Options} {file : RandomAccessFile} {size : Nat}
    (taken : system.step (.openTable options file size) = some system') : system'.Inv := by
  rw [step] at taken
  dsimp only at taken
  generalize isOpened : Table.openFile options file size system.cache.newId.1 = outcome at taken
  rcases outcome with fault | message | table
  · cases taken
  · exact Option.some.inj taken ▸ inv
  · obtain rfl := Option.some.inj taken
    have isId := (Table.openFile_eq isOpened).2.2
    refine ⟨inv.newId_ids, inv.newId_lastId, ?_, fun other member => ?_, fun few => ?_⟩
    · rw [List.map_append, List.map_singleton, isId, List.append_assoc]
      refine (List.Perm.append_left _ List.perm_append_comm).trans ?_
      rw [← List.append_assoc]
      exact inv.perm.append_right _
    · exact List.mem_append.mpr ((List.mem_append.mp member).imp_left (inv.opened other))
    · rw [List.length_append, List.length_singleton] at few
      exact KeepsAll.mono (inv.keeps (Nat.le_of_succ_le few)) fun key block =>
        inv.cached_more few fun other member => (List.mem_append.mp member).imp_right fun isNew =>
          (congrArg Table.cacheId (List.mem_singleton.mp isNew)).trans isId

theorem Inv.newId (inv : system.Inv) (taken : system.step .newId = some system') :
    system'.Inv := by
  obtain rfl := Option.some.inj taken
  refine ⟨inv.newId_ids, inv.newId_lastId, ?_, inv.opened, fun few => ?_⟩
  · rw [← List.append_assoc]
    exact inv.perm.append_right _
  · rw [List.length_append, List.length_singleton] at few
    exact KeepsAll.mono (inv.keeps (Nat.le_of_succ_le few)) fun key block =>
      inv.cached_more few fun other member => .inl member

theorem Inv.closeTable (inv : system.Inv) {position : Nat}
    (taken : system.step (.closeTable position) = some system') : system'.Inv := by
  obtain rfl := Option.some.inj taken
  exact { inv with opened := fun table member => inv.opened table (List.mem_of_mem_eraseIdx member) }

theorem Inv.read (inv : system.Inv) {position : Nat} {options : ReadOptions} {indexValue : Bytes}
    (taken : system.step (.read position options indexValue) = some system') : system'.Inv := by
  rw [step] at taken
  split at taken
  · cases taken
  · next table isTable =>
    split at taken
    · cases taken
    · next iterator cacheHandle cache isRead =>
      obtain rfl := Option.some.inj taken
      have isOpened := inv.opened table (List.mem_of_getElem? isTable)
      have more : system.reads ⊆ system.recordRead table options indexValue := by
        rw [recordRead]
        split
        · exact List.Subset.refl _
        · exact List.subset_append_left _ _
      refine inv.update (blockReader_lastId isRead) fun few keeps => ?_
      have kept : system.cache.KeepsAll (Cached system.ids system.opened
          (system.recordRead table options indexValue)) :=
        keeps.mono fun key block cached => ⟨cached.1, fun other isOther same => by
          obtain ⟨read, member, rest⟩ := cached.2 other isOther same
          exact ⟨read, more member, rest⟩⟩
      refine kept.blockReader (fun handle rest contents decoded isContents => ?_) isRead
      refine ⟨⟨table.cacheId, inv.table_mem isOpened, take_cacheKey _ _⟩,
        fun other isOther same => ?_⟩
      rw [take_cacheKey] at same
      obtain rfl := inv.table_eq few isOpened isOther same
      refine ⟨⟨table, options, handle⟩, ?_, rfl, decodeFrom_offset_lt decoded, rfl, contents,
        isContents, rfl⟩
      rw [recordRead, decoded]
      exact List.mem_append_right _ (List.mem_singleton_self _)

/-- The cache changes, and nothing is read. -/
theorem Inv.touch (inv : system.Inv) {cache : BlockCache}
    (lastId : cache.lastId = system.cache.lastId)
    (keeps : ∀ fits, system.ids.length ≤ 2 ^ 64 → system.cache.KeepsAll fits →
      (∀ id ∈ system.clientIds, ∀ rest block, fits (encodeFixed64 id ++ rest) block) →
      cache.KeepsAll fits) :
    Inv { system with cache := cache } := by
  refine inv.update lastId fun few old => keeps _ few old fun id isClient rest block => ?_
  have starts : (encodeFixed64 id ++ rest).take 8 = encodeFixed64 id :=
    List.take_left' (length_encodeFixed64 id)
  refine ⟨⟨id, inv.perm.mem_iff.mp (List.mem_append_right _ isClient), starts⟩,
    fun table isOpened same => ?_⟩
  rw [starts] at same
  exact absurd same (inv.client_ne few isOpened isClient)

/-- Every request keeps the invariant. -/
theorem Inv.step (inv : system.Inv) {request : CacheRequest}
    (taken : system.step request = some system') : system'.Inv := by
  cases request with
  | openTable options file size => exact inv.openTable taken
  | closeTable position => exact inv.closeTable taken
  | read position options indexValue => exact inv.read taken
  | newId => exact inv.newId taken
  | insert id rest value charge =>
    obtain ⟨isClient, result⟩ := Option.ite_none_right_eq_some.mp taken
    obtain rfl := Option.some.inj result
    exact inv.touch rfl fun fits _ keeps ofClient =>
      keeps.insert (ofClient id isClient rest value) charge
  | lookup key =>
    obtain rfl := Option.some.inj taken
    exact inv.touch rfl fun fits _ keeps _ => keeps.lookup key
  | release handle =>
    obtain ⟨cache, released, rfl⟩ := Option.map_eq_some_iff.mp taken
    refine inv.touch ?_ fun fits _ keeps _ => keeps.release released
    obtain ⟨_, result⟩ := Option.ite_none_right_eq_some.mp released
    exact Option.some.inj result ▸ rfl
  | erase key =>
    obtain rfl := Option.some.inj taken
    exact inv.touch rfl fun fits _ keeps _ => keeps.erase key
  | prune =>
    obtain rfl := Option.some.inj taken
    exact inv.touch rfl fun fits _ keeps _ => keeps.prune

/-- Every run keeps the invariant. -/
theorem Inv.run (inv : system.Inv) {requests : List CacheRequest}
    (reached : requests.foldlM CacheSystem.step system = some system') : system'.Inv := by
  induction requests generalizing system with
  | nil => exact Option.some.inj reached ▸ inv
  | cons request rest inductionHypothesis =>
    rw [List.foldlM_cons] at reached
    obtain ⟨next, taken, later⟩ := Option.bind_eq_some_iff.mp reached
    exact inductionHypothesis (inv.step taken) later

end CacheSystem

/-! ### Transparency -/

/-- A table file with one block of four bytes, whose checksum is not right. -/
def oneBlockFile (contents : Bytes) : Bytes :=
  contents ++ ([0, 0, 1, 0, 0] ++ Footer.encodeTo ⟨⟨0, 0⟩, ⟨0, 4⟩⟩)

def plainOptions : Options where
  comparator := 0
  paranoidChecks := false
  blockSize := 4096
  blockRestartInterval := 16
  compressors := fun _ => none
  filterPolicy := none

/-- A table that is opened with the first ID again. -/
def reopened : Table where
  options := plainOptions
  file := .ofBytes (oneBlockFile [1, 0, 0, 0])
  cacheId := 1
  filter := none
  metaindexHandle := ⟨0, 0⟩
  indexBlock := .new [1, 0, 0, 0]

end LevelDb.Sst
