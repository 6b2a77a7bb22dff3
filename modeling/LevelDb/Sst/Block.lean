/-
This file models the block format of a table at the level of bytes: `BlockBuilder`, which stores
each key as what it adds to a prefix of the key before it, and `Block` with its iterator, which
parses the entries back from the nearest restart point (`table/block_builder`, `table/block`).

A read outside of the entries or the restart array, and a loop that does not end, are faults of the
model; a call that returns has done neither. The asserts on the iterator's state are preconditions
of the calls.
-/

import LevelDb.Coding
import LevelDb.Lib.Cursor

namespace LevelDb.Sst

open Lib

/-! ### Building a block -/

/-- The state of a `BlockBuilder`. -/
structure BlockBuilder where
  buffer : Bytes
  restarts : List Nat
  counter : Nat
  lastKey : Bytes
  deriving DecidableEq, Repr

namespace BlockBuilder

/-- The constructor, and `Reset`. -/
def new : BlockBuilder := ⟨[], [0], 0, []⟩

/-- The number of bytes that two keys share from their start. -/
def sharedLength : Bytes → Bytes → Nat
  | last :: lastRest, byte :: rest => if last = byte then sharedLength lastRest rest + 1 else 0
  | _, _ => 0

/-- `CurrentSizeEstimate`. -/
def currentSizeEstimate (builder : BlockBuilder) : Nat :=
  builder.buffer.length + builder.restarts.length * 4 + 4

/-- What `Add` appends: the lengths, the bytes of the key that are not shared, and the value. -/
def entryBytes (shared : Nat) (key value : Bytes) : Bytes :=
  encodeVarint32 (shared % 2 ^ 32) ++ (encodeVarint32 ((key.length - shared) % 2 ^ 32) ++
    (encodeVarint32 (value.length % 2 ^ 32) ++ (key.drop shared ++ value)))

/-- `Add`, with the `block_restart_interval` the options have at the call. -/
def add (interval : Nat) (builder : BlockBuilder) (key value : Bytes) : BlockBuilder :=
  if builder.counter < interval then
    { builder with
      buffer := builder.buffer ++ entryBytes (sharedLength builder.lastKey key) key value
      counter := builder.counter + 1
      lastKey := key }
  else
    { buffer := builder.buffer ++ entryBytes 0 key value
      restarts := builder.restarts ++ [builder.buffer.length % 2 ^ 32]
      counter := 1
      lastKey := key }

/-- `Finish`: the contents of the block. -/
def finish (builder : BlockBuilder) : Bytes :=
  builder.buffer ++ (builder.restarts.flatMap encodeFixed32 ++
    encodeFixed32 (builder.restarts.length % 2 ^ 32))

end BlockBuilder

/-! ### Opening a block -/

/-- A `Block`. Its size is zero when its contents are malformed. -/
structure Block where
  data : Bytes
  size : Nat
  restartOffset : Nat
  deriving DecidableEq, Repr

namespace Block

/-- `NumRestarts`. -/
def numRestarts (data : Bytes) : Nat := decodeFixed32 (data.drop (data.length - 4))

/-- The constructor. The offset of the restart array is computed in 32 bits. -/
def new (data : Bytes) : Block :=
  if data.length < 4 then ⟨data, 0, 0⟩
  else if numRestarts data > (data.length - 4) / 4 then ⟨data, 0, 0⟩
  else ⟨data, data.length, (data.length - (1 + numRestarts data) % 2 ^ 32 * 4) % 2 ^ 32⟩

end Block

/-! ### Decoding an entry -/

/-- The three lengths at the start of an entry, with the bytes behind them up to the limit. -/
structure EntryHeader where
  shared : Nat
  nonShared : Nat
  valueLength : Nat
  delta : Bytes
  deriving DecidableEq, Repr

/-- Three calls of `GetVarint32Ptr`. -/
def readHeader (input : Bytes) : Option EntryHeader :=
  match getVarint32 input with
  | none => none
  | some (shared, afterShared) =>
    match getVarint32 afterShared with
    | none => none
    | some (nonShared, afterNonShared) =>
      match getVarint32 afterNonShared with
      | none => none
      | some (valueLength, delta) => some ⟨shared, nonShared, valueLength, delta⟩

/-- The lengths as `DecodeEntry` reads them, with its fast path for three single bytes. -/
def decodeHeader : Bytes → Option EntryHeader
  | shared :: nonShared :: valueLength :: delta =>
    if (shared ||| nonShared ||| valueLength).toNat < 128 then
      some ⟨shared.toNat, nonShared.toNat, valueLength.toNat, delta⟩
    else readHeader (shared :: nonShared :: valueLength :: delta)
  | _ => none

/-- `DecodeEntry`: the check of the lengths is in 32 bits. -/
def decodeEntry (input : Bytes) : Option EntryHeader :=
  match decodeHeader input with
  | none => none
  | some header =>
    if header.delta.length % 2 ^ 32 < (header.nonShared + header.valueLength) % 2 ^ 32 then none
    else some header

/-! ### The iterator -/

/-- Why a call does not return: it reads or hands out bytes that are neither entries nor restart
points, or one of its loops goes on after all rounds it was given. -/
inductive Fault
  | outside
  | endless
  deriving DecidableEq, Repr

/-- The constant members of `Block::Iter`. -/
structure Source where
  data : Bytes
  restarts : Nat
  numRestarts : Nat
  deriving DecidableEq, Repr

/-- The other members of `Block::Iter`. `value` is the offset and the size of the value in the
block, or `none` for a slice that points to no block. `decoded` is not in the source: it records
the offsets at which the last call decoded an entry, with the length of the key before it. -/
structure Iter where
  current : Nat
  restartIndex : Nat
  key : Bytes
  value : Option (Nat × Nat)
  status : Option String
  decoded : List (Nat × Nat)
  deriving DecidableEq, Repr

namespace Iter

variable (source : Source)

/-- The constructor. -/
def new : Iter := ⟨source.restarts, source.numRestarts, [], none, none, []⟩

/-- `Valid`. -/
def Valid (it : Iter) : Prop := it.current < source.restarts

instance (it : Iter) : Decidable (it.Valid source) := inferInstanceAs (Decidable (_ < _))

/-- The bytes of the value. -/
def valueBytes (it : Iter) : Bytes :=
  match it.value with
  | none => []
  | some (offset, size) => (source.data.drop offset).take size

/-- `key` and `value` of a valid iterator. -/
def entry (it : Iter) : Option (Bytes × Bytes) :=
  if it.Valid source then some (it.key, it.valueBytes source) else none

/-- `NextEntryOffset`. -/
def nextEntryOffset (it : Iter) : Option Nat := it.value.map fun value => value.1 + value.2

/-- The number stored in the restart array at an index. -/
def restartPoint (index : Nat) : Nat := decodeFixed32 (source.data.drop (source.restarts + index * 4))

/-- `GetRestartPoint`. -/
def getRestartPoint (index : Nat) : Except Fault Nat :=
  if index < source.numRestarts then .ok (restartPoint source index) else .error .outside

/-- The bytes from an offset to the limit of the entries. -/
def entriesFrom (offset : Nat) : Bytes := (source.data.take source.restarts).drop offset

/-- `SeekToRestartPoint`. -/
def seekToRestartPoint (it : Iter) (index : Nat) : Except Fault Iter := do
  let offset ← getRestartPoint source index
  return { it with key := [], restartIndex := index, value := some (offset, 0) }

/-- `CorruptionError`. -/
def corruptionError (it : Iter) : Iter :=
  { it with
    current := source.restarts
    restartIndex := source.numRestarts
    status := some "bad entry in block"
    key := []
    value := none }

/-- The end of the entries. -/
def atEnd (it : Iter) : Iter :=
  { it with current := source.restarts, restartIndex := source.numRestarts }

/-- The loop of `ParseNextKey` that moves the restart index on, for a number of rounds. -/
def advanceRestart (current : Nat) : Nat → Nat → Nat
  | 0, index => index
  | rounds + 1, index =>
    if index + 1 < source.numRestarts ∧ restartPoint source (index + 1) < current then
      advanceRestart current rounds (index + 1)
    else index

/-- The iterator on an entry that was decoded. -/
def onEntry (it : Iter) (current : Nat) (header : EntryHeader) : Iter :=
  { it with
    current := current
    key := it.key.take header.shared ++ header.delta.take header.nonShared
    value := some (source.restarts - header.delta.length + header.nonShared, header.valueLength)
    restartIndex := advanceRestart source current source.numRestarts it.restartIndex }

/-- `ParseNextKey`. The key and the value are taken from the bytes behind the lengths, whatever
there is. -/
def parseNextKey (it : Iter) : Except Fault (Bool × Iter) :=
  match it.nextEntryOffset with
  | none => .error .outside
  | some next =>
    let current := next % 2 ^ 32
    if source.restarts ≤ current then .ok (false, it.atEnd source)
    else
      let it := { it with decoded := it.decoded ++ [(current, it.key.length)] }
      match decodeEntry (entriesFrom source current) with
      | none => .ok (false, it.corruptionError source)
      | some header =>
        if it.key.length < header.shared then .ok (false, it.corruptionError source)
        else if header.delta.length < header.nonShared + header.valueLength then .error .outside
        else .ok (true, it.onEntry source current header)

/-- A loop that parses entries as long as there are any and the iterator is to go on. -/
def parseWhile (goesOn : Iter → Bool) : Nat → Iter → Except Fault Iter
  | 0, _ => .error .endless
  | rounds + 1, it => do
    let (parsed, it) ← it.parseNextKey source
    if parsed && goesOn it then parseWhile goesOn rounds it else return it

/-- The entry ends before an offset. -/
def endsBefore (limit : Nat) (it : Iter) : Bool := it.nextEntryOffset.any fun next => next < limit

/-- More rounds than a block has entries. -/
def rounds : Nat := source.restarts + 1

/-- `SeekToFirst`. -/
def seekToFirst (it : Iter) : Except Fault Iter := do
  let it ← it.seekToRestartPoint source 0
  let (_, it) ← it.parseNextKey source
  return it

/-- `SeekToLast`. -/
def seekToLast (it : Iter) : Except Fault Iter := do
  let it ← it.seekToRestartPoint source (source.numRestarts - 1)
  it.parseWhile source (endsBefore source.restarts) (rounds source)

/-- `Next`. -/
def next (it : Iter) : Except Fault Iter := do
  let (_, it) ← it.parseNextKey source
  return it

/-- The loop of `Prev` that looks for a restart point before the current entry. -/
def restartBefore (original : Nat) : Nat → Except Fault (Option Nat)
  | 0 => do
    let offset ← getRestartPoint source 0
    if offset ≥ original then return none else return some 0
  | index + 1 => do
    let offset ← getRestartPoint source (index + 1)
    if offset ≥ original then restartBefore original index else return some (index + 1)

/-- `Prev`. -/
def prev (it : Iter) : Except Fault Iter := do
  match ← restartBefore source it.current it.restartIndex with
  | none => return it.atEnd source
  | some index =>
    let start ← it.seekToRestartPoint source index
    start.parseWhile source (endsBefore it.current) (rounds source)

variable (compare : Bytes → Bytes → Ordering)

/-- The binary search of `Seek` for the last restart point with a key below the target, in 32 bits.
There is no restart point when the search met a malformed entry. -/
def binarySearch (target : Bytes) : Nat → (left right : Nat) → Iter →
    Except Fault (Option Nat × Iter)
  | 0, _, _, _ => .error .endless
  | rounds + 1, left, right, it =>
    if left < right then do
      let mid := (left + right + 1) % 2 ^ 32 / 2
      let regionOffset ← getRestartPoint source mid
      let it := { it with decoded := it.decoded ++ [(regionOffset, 0)] }
      match decodeEntry (entriesFrom source regionOffset) with
      | none => return (none, it.corruptionError source)
      | some header =>
        if header.shared ≠ 0 then return (none, it.corruptionError source)
        else if header.delta.length < header.nonShared then .error .outside
        else if compare (header.delta.take header.nonShared) target = .lt then
          binarySearch target rounds mid right it
        else binarySearch target rounds left ((mid + (2 ^ 32 - 1)) % 2 ^ 32) it
    else return (some left, it)

/-- `Seek`. -/
def seek (it : Iter) (target : Bytes) : Except Fault Iter := do
  match ← it.binarySearch source compare target (source.numRestarts + 1) 0
    (source.numRestarts - 1) with
  | (none, it) => return it
  | (some left, it) =>
    let it ← it.seekToRestartPoint source left
    it.parseWhile source (fun it => compare it.key target = .lt) (rounds source)

/-- One call. `Next` and `Prev` assert that the iterator is valid. -/
def call (it : Iter) (call : CursorCall Bytes) : Option (Except Fault Iter) :=
  let it := { it with decoded := [] }
  match call with
  | .seek target => some (it.seek source compare target)
  | .seekToFirst => some (it.seekToFirst source)
  | .seekToLast => some (it.seekToLast source)
  | .next => if it.Valid source then some (it.next source) else none
  | .prev => if it.Valid source then some (it.prev source) else none

/-- The calls of a list, one after the other: `none` when one of them is not allowed, and a fault
ends them. -/
def calls (it : Iter) : List (CursorCall Bytes) → Option (Except Fault Iter)
  | [] => some (.ok it)
  | first :: rest =>
    match it.call source compare first with
    | none => none
    | some (.error fault) => some (.error fault)
    | some (.ok it) => it.calls rest

end Iter

/-- What `Block::NewIterator` returns: an iterator that is never valid, with or without an error,
or one over entries. -/
inductive BlockIterator
  | error (message : String)
  | empty
  | over (source : Source)
  deriving DecidableEq, Repr

/-- `NewIterator`. -/
def Block.newIterator (block : Block) : BlockIterator :=
  if block.size < 4 then .error "bad block contents"
  else if numRestarts block.data = 0 then .empty
  else .over ⟨block.data, block.restartOffset, numRestarts block.data⟩

end LevelDb.Sst
