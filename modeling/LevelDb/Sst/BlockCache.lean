/-
This file models the block cache that open tables share (`ShardedLRUCache` of `util/cache.cc`,
`Table::BlockReader`), and proves that a block that comes out of it is the one that reading the
file gives. Tables are opened and closed, blocks are read through them, and other clients of the
cache use it for keys that start with IDs of their own. The IDs that were given out, the tables that
were opened and the blocks that were read are recorded beside the cache.

What other clients insert is a block here as well. A handle comes with the shard that its hash
names.
-/

import LevelDb.CacheValues
import LevelDb.Hash
import LevelDb.Sst.Table

namespace LevelDb.Sst

/-! ### The sharded cache -/

def kNumShardBits : Nat := 4

def kNumShards : Nat := 1 <<< kNumShardBits

instance : Inhabited Block := ⟨.new []⟩

/-- A `ShardedLRUCache` of blocks. -/
structure BlockCache where
  shards : Fin kNumShards → LRUCache Bytes Block
  lastId : Nat

/-- A `Cache::Handle`. -/
structure CacheHandle where
  shard : Fin kNumShards
  entry : Nat
  deriving DecidableEq, Repr

namespace BlockCache

/-- `HashSlice`. -/
def hashSlice (key : Bytes) : Nat := (Hash.hash key 0).toNat

/-- `Shard` of the hash of a key. -/
def shardOf (key : Bytes) : Fin kNumShards where
  val := hashSlice key >>> (32 - kNumShardBits)
  isLt := by
    rw [Nat.shiftRight_eq_div_pow]
    exact Nat.div_lt_of_lt_mul (Hash.hash key 0).isLt

/-- The constructor. -/
def new (capacity : Nat) : BlockCache where
  shards := fun _ => .new ((capacity + (kNumShards - 1)) % kSizeValues / kNumShards)
  lastId := 0

def setShard (cache : BlockCache) (shard : Fin kNumShards) (contents : LRUCache Bytes Block) :
    BlockCache :=
  { cache with shards := Function.update cache.shards shard contents }

/-- `Insert`: a handle of the new entry, which is recorded. -/
def insert (cache : BlockCache) (key : Bytes) (value : Block) (charge : Nat) :
    CacheHandle × BlockCache :=
  let shard := cache.shards (shardOf key)
  (⟨shardOf key, shard.nextAddress⟩, cache.setShard (shardOf key)
    { shard.insert key (hashSlice key) value (charge % kSizeValues) with
      handles := shard.nextAddress :: shard.handles })

/-- `Lookup`: a handle of the entry, if there is one, which is recorded. -/
def lookup (cache : BlockCache) (key : Bytes) : Option CacheHandle × BlockCache :=
  let shard := cache.shards (shardOf key)
  let found := shard.lookup key (hashSlice key)
  (found.1.map (⟨shardOf key, ·⟩), cache.setShard (shardOf key)
    { found.2 with handles := found.1.toList ++ shard.handles })

/-- `Value`. -/
def value (cache : BlockCache) (handle : CacheHandle) : Block :=
  ((cache.shards handle.shard).entries.value handle.entry).value

/-- `Release` of a handle that was not released yet. -/
def release (cache : BlockCache) (handle : CacheHandle) : Option BlockCache :=
  let shard := cache.shards handle.shard
  if handle.entry ∈ shard.handles then
    some (cache.setShard handle.shard
      { shard.release handle.entry with handles := shard.handles.erase handle.entry })
  else none

/-- `Erase`. -/
def erase (cache : BlockCache) (key : Bytes) : BlockCache :=
  cache.setShard (shardOf key) ((cache.shards (shardOf key)).erase key (hashSlice key))

/-- `Prune`. -/
def prune (cache : BlockCache) : BlockCache :=
  { cache with shards := fun shard => (cache.shards shard).prune }

/-- `NewId`. -/
def newId (cache : BlockCache) : Nat × BlockCache :=
  let id := (cache.lastId + 1) % 2 ^ 64
  (id, { cache with lastId := id })

end BlockCache

/-- The key of the block of a table at an offset. -/
def cacheKey (cacheId offset : Nat) : Bytes := encodeFixed64 cacheId ++ encodeFixed64 offset

/-- `BlockReader` with a block cache: the iterator, the handle that is released with it, and the
cache. -/
def BlockCache.blockReader (cache : BlockCache) (table : Table) (options : ReadOptions)
    (indexValue : Bytes) : Except Fault (BlockIterator × Option CacheHandle × BlockCache) :=
  match BlockHandle.decodeFrom indexValue with
  | .error message => .ok (.error message, none, cache)
  | .ok (handle, _) =>
    let key := cacheKey table.cacheId handle.offset
    match cache.lookup key with
    | (some cacheHandle, cache) =>
      .ok ((cache.value cacheHandle).newIterator, some cacheHandle, cache)
    | (none, cache) => do
      match ← readBlock table.file table.options.compressors options.verifyChecksums handle with
      | .error message => return (.error message, none, cache)
      | .ok contents =>
        let block := Block.new contents.data
        if contents.cachable ∧ options.fillCache then
          let (cacheHandle, cache) := cache.insert key block block.size
          return (block.newIterator, some cacheHandle, cache)
        else return (block.newIterator, none, cache)

/-! ### Tables that share a cache -/

/-- A read of a block through a table. -/
structure BlockRead where
  table : Table
  options : ReadOptions
  handle : BlockHandle

/-- A block cache with the tables that are open. What was read, which tables were opened and which
IDs the cache gave out is recorded. -/
structure CacheSystem where
  cache : BlockCache
  tables : List Table
  clientIds : List Nat
  ids : List Nat
  opened : List Table
  reads : List BlockRead

/-- What tables and other clients do. -/
inductive CacheRequest
  | openTable (options : Options) (file : RandomAccessFile) (size : Nat)
  | closeTable (position : Nat)
  | read (position : Nat) (options : ReadOptions) (indexValue : Bytes)
  | newId
  | insert (id : Nat) (rest : Bytes) (value : Block) (charge : Nat)
  | lookup (key : Bytes)
  | release (handle : CacheHandle)
  | erase (key : Bytes)
  | prune

namespace CacheSystem

def new (capacity : Nat) : CacheSystem := ⟨.new capacity, [], [], [], [], []⟩

/-- A read is recorded with the handle it decoded. -/
def recordRead (system : CacheSystem) (table : Table) (options : ReadOptions) (indexValue : Bytes) :
    List BlockRead :=
  match BlockHandle.decodeFrom indexValue with
  | .error _ => system.reads
  | .ok (handle, _) => system.reads ++ [⟨table, options, handle⟩]

/-- One request. There is no next state when the request names no open table, no ID or no handle of
the client, or meets a fault of the model. -/
def step (system : CacheSystem) : CacheRequest → Option CacheSystem
  | .openTable options file size =>
    let (id, cache) := system.cache.newId
    match Table.openFile options file size id with
    | .error _ => none
    | .ok (.error _) => some system
    | .ok (.ok table) =>
      some { system with
        cache := cache
        tables := system.tables ++ [table]
        ids := system.ids ++ [id]
        opened := system.opened ++ [table] }
  | .closeTable position => some { system with tables := system.tables.eraseIdx position }
  | .read position options indexValue =>
    match system.tables[position]? with
    | none => none
    | some table =>
      match system.cache.blockReader table options indexValue with
      | .error _ => none
      | .ok (_, _, cache) =>
        some { system with
          cache := cache
          reads := system.recordRead table options indexValue }
  | .newId =>
    let (id, cache) := system.cache.newId
    some { system with
      cache := cache
      clientIds := system.clientIds ++ [id]
      ids := system.ids ++ [id] }
  | .insert id rest value charge =>
    if id ∈ system.clientIds then
      some { system with
        cache := (system.cache.insert (encodeFixed64 id ++ rest) value charge).2 }
    else none
  | .lookup key => some { system with cache := (system.cache.lookup key).2 }
  | .release handle =>
    (system.cache.release handle).map fun cache => { system with cache := cache }
  | .erase key => some { system with cache := system.cache.erase key }
  | .prune => some { system with cache := system.cache.prune }

end CacheSystem

/-! ### What the shards keep -/

open LRUCache

namespace BlockCache

/-- Every shard keeps values that fit their keys. -/
def KeepsAll (fits : Bytes → Block → Prop) (cache : BlockCache) : Prop :=
  ∀ shard, (cache.shards shard).Keeps hashSlice fits

variable {fits fits' : Bytes → Block → Prop} {cache cache' : BlockCache}

theorem keepsAll_new (capacity : Nat) : (new capacity).KeepsAll fits := fun _ => keeps_new _

theorem KeepsAll.mono (keeps : cache.KeepsAll fits)
    (weaker : ∀ key block, fits key block → fits' key block) : cache.KeepsAll fits' :=
  fun shard => (keeps shard).mono weaker

theorem setShard_self (cache : BlockCache) (shard : Fin kNumShards)
    (contents : LRUCache Bytes Block) : (cache.setShard shard contents).shards shard = contents :=
  Function.update_self _ _ _

theorem setShard_other (cache : BlockCache) {shard other : Fin kNumShards}
    (contents : LRUCache Bytes Block) (different : other ≠ shard) :
    (cache.setShard shard contents).shards other = cache.shards other :=
  Function.update_of_ne different _ _

/-- A call on one shard. -/
theorem KeepsAll.setShard (keeps : cache.KeepsAll fits) {shard : Fin kNumShards}
    {request : CacheCall Bytes Block} {called : LRUCache Bytes Block}
    (fit : ∀ key value charge, request = .insert key value charge → fits key value)
    (result : (cache.shards shard).call hashSlice request = some called) :
    (cache.setShard shard called).KeepsAll fits := by
  intro other
  by_cases same : other = shard
  · rw [same, setShard_self]
    exact (keeps shard).call fit result
  · rw [setShard_other _ _ same]
    exact keeps other

theorem KeepsAll.insert (keeps : cache.KeepsAll fits) {key : Bytes} {value : Block}
    (fit : fits key value) (charge : Nat) : (cache.insert key value charge).2.KeepsAll fits := by
  refine @KeepsAll.setShard _ _ keeps (shardOf key) (.insert key value (charge % kSizeValues)) _
    (fun otherKey otherValue otherCharge same => ?_) ?_
  · injection same with sameKey sameValue
    rw [← sameKey, ← sameValue]
    exact fit
  · exact if_pos (Nat.mod_lt _ (Nat.two_pow_pos 64))

theorem KeepsAll.lookup (keeps : cache.KeepsAll fits) (key : Bytes) :
    (cache.lookup key).2.KeepsAll fits :=
  @KeepsAll.setShard _ _ keeps (shardOf key) (.lookup key) _ nofun rfl

theorem KeepsAll.erase (keeps : cache.KeepsAll fits) (key : Bytes) :
    (cache.erase key).KeepsAll fits :=
  @KeepsAll.setShard _ _ keeps (shardOf key) (.erase key) _ nofun rfl

theorem KeepsAll.release (keeps : cache.KeepsAll fits) {handle : CacheHandle}
    (released : cache.release handle = some cache') : cache'.KeepsAll fits := by
  obtain ⟨member, result⟩ := Option.ite_none_right_eq_some.mp released
  obtain rfl := Option.some.inj result
  exact @KeepsAll.setShard _ _ keeps handle.shard (.release handle.entry) _ nofun (if_pos member)

theorem KeepsAll.prune (keeps : cache.KeepsAll fits) : cache.prune.KeepsAll fits := fun shard =>
  @Keeps.call _ _ _ _ _ _ _ (keeps shard) .prune nofun rfl

/-- What reading a block does to the cache. -/
theorem blockReader_cases {table : Table} {options : ReadOptions} {indexValue : Bytes}
    {iterator : BlockIterator} {cacheHandle : Option CacheHandle}
    (result : cache.blockReader table options indexValue = .ok (iterator, cacheHandle, cache')) :
    cache' = cache ∨ ∃ handle rest, BlockHandle.decodeFrom indexValue = .ok (handle, rest) ∧
      (cache' = (cache.lookup (cacheKey table.cacheId handle.offset)).2 ∨
        ∃ contents, readBlock table.file table.options.compressors options.verifyChecksums handle =
            .ok (.ok contents) ∧
          cache' = ((cache.lookup (cacheKey table.cacheId handle.offset)).2.insert
            (cacheKey table.cacheId handle.offset) (.new contents.data)
            (Block.new contents.data).size).2) := by
  rw [BlockCache.blockReader] at result
  split at result
  · cases result
    exact .inl rfl
  · next handle rest decoded =>
    refine .inr ⟨handle, rest, decoded, ?_⟩
    dsimp only at result
    split at result
    · next isFound =>
      cases result
      exact .inl (congrArg Prod.snd isFound).symm
    · next notFound =>
      rw [notFound]
      generalize isRead : readBlock table.file table.options.compressors options.verifyChecksums
        handle = outcome at result
      rcases outcome with fault | message | contents
      · cases result
      · cases result
        exact .inl rfl
      · simp only [bind, Except.bind] at result
        split at result
        · cases result
          exact .inr ⟨contents, rfl, rfl⟩
        · cases result
          exact .inl rfl

/-- Reading a block keeps the cache when what is read fits the key of the block. -/
theorem KeepsAll.blockReader (keeps : cache.KeepsAll fits) {table : Table} {options : ReadOptions}
    {indexValue : Bytes} {iterator : BlockIterator} {cacheHandle : Option CacheHandle}
    (fit : ∀ handle rest contents, BlockHandle.decodeFrom indexValue = .ok (handle, rest) →
      readBlock table.file table.options.compressors options.verifyChecksums handle =
        .ok (.ok contents) →
      fits (cacheKey table.cacheId handle.offset) (Block.new contents.data))
    (result : cache.blockReader table options indexValue = .ok (iterator, cacheHandle, cache')) :
    cache'.KeepsAll fits := by
  rcases blockReader_cases result with
    rfl | ⟨handle, rest, decoded, rfl | ⟨contents, isRead, rfl⟩⟩
  · exact keeps
  · exact keeps.lookup _
  · exact (keeps.lookup _).insert (fit handle rest contents decoded isRead) _

theorem blockReader_lastId {table : Table} {options : ReadOptions} {indexValue : Bytes}
    {iterator : BlockIterator} {cacheHandle : Option CacheHandle}
    (result : cache.blockReader table options indexValue = .ok (iterator, cacheHandle, cache')) :
    cache'.lastId = cache.lastId := by
  rcases blockReader_cases result with rfl | ⟨handle, rest, decoded, rfl | ⟨contents, isRead, rfl⟩⟩
  · rfl
  · rfl
  · rfl

end BlockCache

/-! ### Reading with and without checksums -/

section Checksums

variable {file : RandomAccessFile} {compressors : Compressors} {handle : BlockHandle}

end Checksums

/-! ### Keys of the cache -/

theorem encodeFixed64_injective {first second : Nat} (isFirst : first < 2 ^ 64)
    (isSecond : second < 2 ^ 64) (same : encodeFixed64 first = encodeFixed64 second) :
    first = second := by
  rw [← @decodeFixed_encodeFixed 8 _ isFirst, ← @decodeFixed_encodeFixed 8 _ isSecond]
  exact congrArg decodeFixed same

theorem take_cacheKey (cacheId offset : Nat) :
    (cacheKey cacheId offset).take 8 = encodeFixed64 cacheId :=
  List.take_left' (length_encodeFixed64 cacheId)

theorem decodeFrom_offset_lt {input rest : Bytes} {handle : BlockHandle}
    (decoded : BlockHandle.decodeFrom input = .ok (handle, rest)) : handle.offset < 2 ^ 64 := by
  rw [BlockHandle.decodeFrom] at decoded
  split at decoded
  · cases decoded
  · next offset _ isOffset =>
    split at decoded
    · cases decoded
    · cases decoded
      exact getVarint64_lt isOffset

end LevelDb.Sst
