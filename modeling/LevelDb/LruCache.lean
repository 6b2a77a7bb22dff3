/-
This file models one shard of the block cache (`util/cache.cc`, class `LRUCache`): reference counted
entries, the hash table that finds them by key, the list of entries only the cache refers to, in
the order of their last releases, and the list of entries that clients use as well.

Entries are named by addresses that are never used twice; 0 is the head `lru_` and 1 the head
`in_use_`. `LRUHandle::key` reads the key of a temporary handle when `next == this`; no such handle
is ever made, and no entry is its own successor. The hash of a key is given by a function, as
`ShardedLRUCache` computes it. The handles that clients have not released and the calls of the
deleter are recorded beside the cache.
-/

import LevelDb.HandleTable
import LevelDb.Lib.RefCount
import LevelDb.Lib.Ring
import LevelDb.Lib.Run

namespace LevelDb

/-- The number of values of `size_t`. -/
def kSizeValues : Nat := 2 ^ 64

structure LRUHandle (κ ν : Type) where
  key : κ
  hash : Nat
  value : ν
  charge : Nat
  inCache : Bool

/-- An entry that was passed to its deleter, with the arguments of the call. -/
structure Deletion (κ ν : Type) where
  entry : Nat
  key : κ
  value : ν

structure LRUCache (κ ν : Type) where
  capacity : Nat
  usage : Nat
  entries : Lib.Heap (LRUHandle κ ν)
  links : Lib.Links Nat
  table : HandleTable
  nextAddress : Nat
  handles : List Nat
  deletions : List (Deletion κ ν)

namespace LRUCache

variable {κ ν : Type}

def lru : Nat := 0

def inUse : Nat := 1

instance [Inhabited κ] [Inhabited ν] : Inhabited (LRUHandle κ ν) :=
  ⟨⟨default, 0, default, 0, false⟩⟩

/-- The constructor and `SetCapacity`. -/
def new [Inhabited κ] [Inhabited ν] (capacity : Nat) : LRUCache κ ν where
  capacity := capacity
  usage := 0
  entries := ⟨∅, fun _ => ⟨0, default⟩⟩
  links := ⟨fun node => node, fun node => node⟩
  table := HandleTable.new
  nextAddress := 2
  handles := []
  deletions := []

/-- What the hash table reads of a handle. -/
def info (cache : LRUCache κ ν) (entry : Nat) : κ × Nat :=
  ((cache.entries.value entry).key, (cache.entries.value entry).hash)

/-- `LRU_Remove` and `LRU_Append`: the entry becomes the newest of a list. -/
def move (cache : LRUCache κ ν) (list entry : Nat) : LRUCache κ ν :=
  { cache with links := (cache.links.remove entry).append list entry }

/-- `Ref` -/
def ref (cache : LRUCache κ ν) (entry : Nat) : LRUCache κ ν :=
  let moved :=
    if cache.entries.refs entry = 1 ∧ (cache.entries.value entry).inCache then
      cache.move inUse entry
    else cache
  { moved with entries := moved.entries.ref entry }

/-- `Unref` -/
def unref (cache : LRUCache κ ν) (entry : Nat) : LRUCache κ ν :=
  let lowered := { cache with entries := cache.entries.unref entry }
  let handle := cache.entries.value entry
  if lowered.entries.refs entry = 0 then
    { lowered with
      entries := Lib.Shelf.remove lowered.entries entry
      deletions := cache.deletions ++ [⟨entry, handle.key, handle.value⟩] }
  else if handle.inCache ∧ lowered.entries.refs entry = 1 then lowered.move lru entry
  else lowered

/-- `FinishErase` of an entry. -/
def finishErase (cache : LRUCache κ ν) (entry : Nat) : LRUCache κ ν :=
  let handle := cache.entries.value entry
  { cache with
    links := cache.links.remove entry
    entries := cache.entries.put entry ⟨cache.entries.refs entry, { handle with inCache := false }⟩
    usage := (cache.usage + (kSizeValues - handle.charge)) % kSizeValues }.unref entry

/-- `FinishErase` of what the hash table returned. -/
def finishEraseOf (cache : LRUCache κ ν) : Option Nat → LRUCache κ ν
  | some entry => cache.finishErase entry
  | none => cache

variable [DecidableEq κ]

/-- `FinishErase(table_.Remove(key, hash))` -/
def eraseKey (cache : LRUCache κ ν) (key : κ) (hash : Nat) : LRUCache κ ν :=
  let removed := cache.table.remove cache.info key hash
  { cache with table := removed.2 }.finishEraseOf removed.1

/-- Erase the oldest entry of `lru_`, as the loops of `Insert` and `Prune` do. -/
def eraseOldest (cache : LRUCache κ ν) : LRUCache κ ν :=
  let old := cache.links.next lru
  cache.eraseKey (cache.entries.value old).key (cache.entries.value old).hash

/-- The loop of `Insert`. -/
def evict : Nat → LRUCache κ ν → LRUCache κ ν
  | 0, cache => cache
  | fuel + 1, cache =>
    if cache.usage > cache.capacity ∧ cache.links.next lru ≠ lru then evict fuel cache.eraseOldest
    else cache

/-- The loop of `Prune`. -/
def pruneLoop : Nat → LRUCache κ ν → LRUCache κ ν
  | 0, cache => cache
  | fuel + 1, cache =>
    if cache.links.next lru ≠ lru then pruneLoop fuel cache.eraseOldest else cache

/-- The new entry of `Insert`: on `in_use_`, with one reference for the returned handle and one for
the cache, and charged. -/
def link (cache : LRUCache κ ν) (key : κ) (hash : Nat) (value : ν) (charge : Nat) : LRUCache κ ν :=
  { cache with
    entries := cache.entries.put cache.nextAddress ⟨2, ⟨key, hash, value, charge, true⟩⟩
    links := cache.links.append inUse cache.nextAddress
    usage := (cache.usage + charge) % kSizeValues
    nextAddress := cache.nextAddress + 1 }

/-- `FinishErase(table_.Insert(e))` -/
def intoTable (cache : LRUCache κ ν) (entry : Nat) : LRUCache κ ν :=
  let inserted := cache.table.insert cache.info entry
  { cache with table := inserted.2 }.finishEraseOf inserted.1

/-- `Insert`; the returned handle has the address `nextAddress`. Each round of its loop erases an
entry of the table, so their number bounds the rounds. -/
def insert (cache : LRUCache κ ν) (key : κ) (hash : Nat) (value : ν) (charge : Nat) :
    LRUCache κ ν :=
  let cached :=
    if cache.capacity > 0 then
      (cache.link key hash value charge).intoTable cache.nextAddress
    else
      { cache with
        entries := cache.entries.put cache.nextAddress ⟨1, ⟨key, hash, value, charge, false⟩⟩
        nextAddress := cache.nextAddress + 1 }
  evict cached.table.elems cached

/-- `Lookup` -/
def lookup (cache : LRUCache κ ν) (key : κ) (hash : Nat) : Option Nat × LRUCache κ ν :=
  match cache.table.lookup cache.info key hash with
  | some entry => (some entry, cache.ref entry)
  | none => (none, cache)

/-- `Release` -/
def release (cache : LRUCache κ ν) (handle : Nat) : LRUCache κ ν := cache.unref handle

/-- `Erase` -/
def erase (cache : LRUCache κ ν) (key : κ) (hash : Nat) : LRUCache κ ν := cache.eraseKey key hash

/-- `Prune` -/
def prune (cache : LRUCache κ ν) : LRUCache κ ν := pruneLoop cache.table.elems cache

end LRUCache

/-! ### Clients -/

/-- A call of the cache. -/
inductive CacheCall (κ ν : Type)
  | insert (key : κ) (value : ν) (charge : Nat)
  | lookup (key : κ)
  | release (handle : Nat)
  | erase (key : κ)
  | prune

namespace LRUCache

variable {κ ν : Type} [DecidableEq κ]

/-- One call, by clients that release only handles they have. A handle they get is recorded. -/
def call (hash : κ → Nat) (cache : LRUCache κ ν) : CacheCall κ ν → Option (LRUCache κ ν)
  | .insert key value charge =>
    if charge < kSizeValues then
      some { cache.insert key (hash key) value charge with
        handles := cache.nextAddress :: cache.handles }
    else none
  | .lookup key =>
    let found := cache.lookup key (hash key)
    some { found.2 with handles := found.1.toList ++ cache.handles }
  | .release handle =>
    if handle ∈ cache.handles then
      some { cache.release handle with handles := cache.handles.erase handle }
    else none
  | .erase key => some (cache.erase key (hash key))
  | .prune => some cache.prune

end LRUCache

end LevelDb
