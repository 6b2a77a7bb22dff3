/-
This file models the filter block of a table (`table/filter_block`): one filter for each 2 KB of
file offsets, made of the keys of the blocks that start there, with an array of the offsets of the
filters behind them. The keys of a filter are a list here instead of one string with their starts.

The filter policy is supplied by the client; what `CreateFilter` appends is its result.
-/

import LevelDb.Coding

namespace LevelDb.Sst

/-- A `FilterPolicy`. -/
structure FilterPolicy where
  name : Bytes
  createFilter : List Bytes → Bytes
  keyMayMatch : Bytes → Bytes → Bool

def kFilterBaseLg : Nat := 11

def kFilterBase : Nat := 1 <<< kFilterBaseLg

/-! ### Building -/

/-- The state of a `FilterBlockBuilder`. `made` is not in the source: it records the lists of keys
that filters were made of. -/
structure FilterBlockBuilder where
  policy : FilterPolicy
  keys : List Bytes
  result : Bytes
  filterOffsets : List Nat
  made : List (List Bytes)

namespace FilterBlockBuilder

/-- The constructor. -/
def new (policy : FilterPolicy) : FilterBlockBuilder := ⟨policy, [], [], [], []⟩

/-- A number of keys, as `CreateFilter` is given it: an `int`. -/
def keyCount (keys : List Bytes) : Nat := (Int32.ofNat keys.length).toInt.toNat

/-- `GenerateFilter`. -/
def generateFilter (builder : FilterBlockBuilder) : FilterBlockBuilder :=
  let started := { builder with
    filterOffsets := builder.filterOffsets ++ [builder.result.length % 2 ^ 32] }
  if builder.keys = [] then started
  else
    { started with
      result := builder.result ++
        builder.policy.createFilter (builder.keys.take (keyCount builder.keys))
      keys := []
      made := builder.made ++ [builder.keys] }

/-- `StartBlock`: each round of its loop adds one offset. -/
def startBlock (builder : FilterBlockBuilder) (blockOffset : Nat) : FilterBlockBuilder :=
  generateFilter^[blockOffset / kFilterBase - builder.filterOffsets.length] builder

/-- `AddKey`. -/
def addKey (builder : FilterBlockBuilder) (key : Bytes) : FilterBlockBuilder :=
  { builder with keys := builder.keys ++ [key] }

/-- The last filter, if there are keys left. -/
def finishKeys (builder : FilterBlockBuilder) : FilterBlockBuilder :=
  if builder.keys ≠ [] then builder.generateFilter else builder

/-- What `Finish` appends to the filters. -/
def trailer (builder : FilterBlockBuilder) : Bytes :=
  builder.filterOffsets.flatMap encodeFixed32 ++
    (encodeFixed32 (builder.result.length % 2 ^ 32) ++ [UInt8.ofNat kFilterBaseLg])

/-- `Finish`: the contents of the block. -/
def finish (builder : FilterBlockBuilder) : Bytes :=
  builder.finishKeys.result ++ builder.finishKeys.trailer

end FilterBlockBuilder

/-! ### Reading -/

/-- A `FilterBlockReader`: where the array of offsets starts in the data, and how many there are. -/
structure FilterBlockReader where
  policy : FilterPolicy
  data : Bytes
  offset : Nat
  num : Nat
  baseLg : Nat

namespace FilterBlockReader

/-- The constructor. -/
def new (policy : FilterPolicy) (contents : Bytes) : FilterBlockReader :=
  let n := contents.length
  if n < 5 then ⟨policy, [], 0, 0, 0⟩
  else
    let baseLg := (contents.getD (n - 1) 0).toNat
    let lastWord := decodeFixed32 (contents.drop (n - 5))
    if lastWord > n - 5 then ⟨policy, [], 0, 0, baseLg⟩
    else ⟨policy, contents, lastWord, (n - 5 - lastWord) / 4, baseLg⟩

/-- `KeyMayMatch`. A shift by more than 63 bits, which C++ leaves undefined, is by the lower six
bits of the amount. -/
def keyMayMatch (reader : FilterBlockReader) (blockOffset : Nat) (key : Bytes) : Bool :=
  let index := blockOffset >>> (reader.baseLg % 64)
  if index < reader.num then
    let start := decodeFixed32 (reader.data.drop (reader.offset + index * 4))
    let limit := decodeFixed32 (reader.data.drop (reader.offset + index * 4 + 4))
    if start ≤ limit ∧ limit ≤ reader.offset then
      reader.policy.keyMayMatch key ((reader.data.drop start).take (limit - start))
    else if start = limit then false
    else true
  else true

end FilterBlockReader

end LevelDb.Sst
