/-
This file models a write batch as the byte string `rep_` it is (`db/write_batch.cc`): twelve bytes
for the sequence number and the count, and a record for each operation. `Iterate` parses the
records back and hands them to a handler; `InsertInto` runs it with the handler that adds each one
to a memtable.

The bytes of a batch are shown to be those of the abstract batch of the write path, under every
operation on batches. An entry of the memtable is stored with the length of its internal key in 32
bits, which a user key within eight bytes of the limit of a batch does not leave room for.
-/

import LevelDb.WriteQueue
import LevelDb.ManifestRuns

namespace LevelDb

/-! ### The operations on `rep_` -/

/-- A `WriteBatch`, by its only field. -/
structure BatchContents where
  rep : Bytes
  deriving DecidableEq, Repr

/-- `WriteBatch::Handler`, by what its methods do to the state it keeps. -/
structure BatchHandler (State : Type) where
  put : State → Bytes → Bytes → State
  delete : State → Bytes → State

/-- The call of the handler for an operation. -/
def BatchHandler.call {State : Type} (handler : BatchHandler State) (state : State) :
    WriteOp UserKey Bytes → State
  | .put userKey value => handler.put state userKey.bytes value
  | .delete userKey => handler.delete state userKey.bytes

namespace BatchContents

variable {State : Type}

/-- `WriteBatch::Clear`. -/
def clear : BatchContents := ⟨List.replicate kHeader 0⟩

/-- `WriteBatchInternal::Count`, an `int` read from 32 bits. -/
def count (batch : BatchContents) : Int := Int.bmod (decodeFixed32 (batch.rep.drop 8)) (2 ^ 32)

/-- `WriteBatchInternal::SetCount`. -/
def setCount (batch : BatchContents) (n : Int) : BatchContents :=
  ⟨batch.rep.take 8 ++ encodeFixed32 (n % 2 ^ 32).toNat ++ batch.rep.drop kHeader⟩

/-- `WriteBatchInternal::Sequence`. -/
def sequence (batch : BatchContents) : Nat := decodeFixed64 batch.rep

/-- `WriteBatchInternal::SetSequence`. -/
def setSequence (batch : BatchContents) (seq : Nat) : BatchContents :=
  ⟨encodeFixed64 seq ++ batch.rep.drop 8⟩

/-- `WriteBatch::Put`. -/
def put (batch : BatchContents) (key value : Bytes) : BatchContents :=
  ⟨(batch.setCount (batch.count + 1)).rep ++
    (1 :: (putLengthPrefixedSlice key ++ putLengthPrefixedSlice value))⟩

/-- `WriteBatch::Delete`. -/
def delete (batch : BatchContents) (key : Bytes) : BatchContents :=
  ⟨(batch.setCount (batch.count + 1)).rep ++ (0 :: putLengthPrefixedSlice key)⟩

/-- `WriteBatchInternal::Append`. -/
def append (dst src : BatchContents) : BatchContents :=
  ⟨(dst.setCount (dst.count + src.count)).rep ++ src.rep.drop kHeader⟩

/-- The loop of `Iterate`: the state of the handler, and the number of records found or the
message of the `Corruption`. -/
def iterateLoop (handler : BatchHandler State) (state : State) (found : Nat) :
    Bytes → State × Except String Nat
  | [] => (state, .ok found)
  | tag :: input =>
    if tag = 1 then
      match _keyRead : getLengthPrefixedSlice input with
      | none => (state, .error "bad WriteBatch Put")
      | some (key, afterKey) =>
        match _valueRead : getLengthPrefixedSlice afterKey with
        | none => (state, .error "bad WriteBatch Put")
        | some (value, rest) =>
          iterateLoop handler (handler.put state key value) (found + 1) rest
    else if tag = 0 then
      match _keyRead : getLengthPrefixedSlice input with
      | none => (state, .error "bad WriteBatch Delete")
      | some (key, rest) => iterateLoop handler (handler.delete state key) (found + 1) rest
    else (state, .error "unknown WriteBatch tag")
  termination_by input => input.length
  decreasing_by
  · exact ((length_getLengthPrefixedSlice _valueRead).trans
      (length_getLengthPrefixedSlice _keyRead)).trans (Nat.lt_succ_self _)
  · exact (length_getLengthPrefixedSlice _keyRead).trans (Nat.lt_succ_self _)

/-- `WriteBatch::Iterate`: the state the handler is left in, and the message of the `Corruption`
that is returned instead of OK. -/
def iterate (batch : BatchContents) (handler : BatchHandler State) (state : State) :
    State × Option String :=
  if batch.rep.length < kHeader then (state, some "malformed WriteBatch (too small)")
  else
    match iterateLoop handler state 0 (batch.rep.drop kHeader) with
    | (after, .error message) => (after, some message)
    | (after, .ok found) =>
      if (found : Int) ≠ batch.count then (after, some "WriteBatch has wrong count")
      else (after, none)

/-- The call of `Put` or `Delete` for an operation. -/
def record (batch : BatchContents) : WriteOp UserKey Bytes → BatchContents
  | .put userKey value => batch.put userKey.bytes value
  | .delete userKey => batch.delete userKey.bytes

/-- The batch a client builds of operations, with the sequence number it is given. -/
def build (seq : Nat) (ops : List (WriteOp UserKey Bytes)) : BatchContents :=
  (ops.foldl record clear).setSequence seq

end BatchContents

/-! ### Entries of the memtable -/

namespace MemTable

/-- The entry `MemTable::Add` makes in the arena. Its lengths are cast to 32 bits. -/
def encodeEntry (sequence : Nat) (type : ValueType) (key value : Bytes) : Bytes :=
  encodeVarint32 ((key.length + 8) % 2 ^ 32) ++ key ++
    encodeFixed64 (packSequenceAndType sequence type) ++
    encodeVarint32 (value.length % 2 ^ 32) ++ value

/-- The `GetLengthPrefixedSlice` of the memtable, which trusts what it reads. -/
def getLengthPrefixedSlice (data : Bytes) : Bytes × Bytes :=
  match getVarint32 data with
  | none => ([], data)
  | some (length, rest) => (rest.take length, rest.drop length)

/-- The key and the value `MemTableIterator` finds in an entry. -/
def readEntry (entry : Bytes) : Entry UserKey Bytes :=
  let (key, rest) := getLengthPrefixedSlice entry
  ⟨InternalKey.decodeFrom key, (getLengthPrefixedSlice rest).1⟩

variable [LinearOrder UserKey]

/-- `MemTable::Add`: the entry is compared, and later found, by what is read from it. -/
def add (mem : List (Entry UserKey Bytes)) (sequence : Nat) (type : ValueType)
    (key value : Bytes) : List (Entry UserKey Bytes) :=
  memTableAdd mem (readEntry (encodeEntry sequence type key value))

end MemTable

/-- `MemTableInserter`, with its 64-bit `sequence_` and its memtable. -/
def memTableInserter [LinearOrder UserKey] :
    BatchHandler (Nat × List (Entry UserKey Bytes)) where
  put inserter key value :=
    ((inserter.1 + 1) % 2 ^ 64, MemTable.add inserter.2 inserter.1 .kTypeValue key value)
  delete inserter key :=
    ((inserter.1 + 1) % 2 ^ 64, MemTable.add inserter.2 inserter.1 .kTypeDeletion key [])

/-- `WriteBatchInternal::InsertInto`: the memtable afterwards and the status. -/
def BatchContents.insertInto [LinearOrder UserKey] (batch : BatchContents)
    (mem : List (Entry UserKey Bytes)) : List (Entry UserKey Bytes) × Option String :=
  let result := batch.iterate memTableInserter (batch.sequence, mem)
  (result.1.2, result.2)

/-! ### The bytes of an abstract batch -/

/-- The record of an operation. -/
def WriteOp.encode : WriteOp UserKey Bytes → Bytes
  | .put userKey value => 1 :: (putLengthPrefixedSlice userKey.bytes ++ putLengthPrefixedSlice value)
  | .delete userKey => 0 :: putLengthPrefixedSlice userKey.bytes

def WriteOp.userKey {α β : Type} : WriteOp α β → α
  | .put userKey _ => userKey
  | .delete userKey => userKey

def WriteOp.value : WriteOp UserKey Bytes → Bytes
  | .put _ value => value
  | .delete _ => []

def WriteOp.type {α β : Type} : WriteOp α β → ValueType
  | .put _ _ => .kTypeValue
  | .delete _ => .kTypeDeletion

/-- Key and value are shorter than a length prefix can say. -/
structure WriteOp.Fits (op : WriteOp UserKey Bytes) : Prop where
  key : op.userKey.bytes.length < 2 ^ 32
  value : op.value.length < 2 ^ 32

/-- `rep_` of a batch. -/
def WriteBatch.encode (batch : WriteBatch UserKey Bytes) : BatchContents :=
  ⟨encodeFixed64 batch.sequence ++ (encodeFixed32 batch.count ++
    batch.ops.flatMap WriteOp.encode)⟩

/-- The batch with one more operation. -/
def WriteBatch.record (batch : WriteBatch UserKey Bytes) (op : WriteOp UserKey Bytes) :
    WriteBatch UserKey Bytes :=
  { batch with count := batch.count + 1, ops := batch.ops ++ [op] }

namespace BatchContents

@[simp] theorem clear_eq : clear = WriteBatch.clear.encode := rfl

@[simp] theorem drop_kHeader_encode (batch : WriteBatch UserKey Bytes) :
    batch.encode.rep.drop kHeader = batch.ops.flatMap WriteOp.encode := by
  have header : (encodeFixed64 batch.sequence ++ encodeFixed32 batch.count).length = kHeader := by
    rw [List.length_append, length_encodeFixed64, length_encodeFixed32]
    rfl
  rw [WriteBatch.encode, ← List.append_assoc, ← header, List.drop_left]

@[simp] theorem take_encode (batch : WriteBatch UserKey Bytes) :
    batch.encode.rep.take 8 = encodeFixed64 batch.sequence :=
  List.take_left' (length_encodeFixed64 _)

@[simp] theorem drop_encode (batch : WriteBatch UserKey Bytes) :
    batch.encode.rep.drop 8 = encodeFixed32 batch.count ++ batch.ops.flatMap WriteOp.encode :=
  List.drop_left' (length_encodeFixed64 _)

theorem length_encode (batch : WriteBatch UserKey Bytes) :
    batch.encode.rep.length = kHeader + (batch.ops.flatMap WriteOp.encode).length := by
  rw [WriteBatch.encode, List.length_append, List.length_append, length_encodeFixed64,
    length_encodeFixed32, ← Nat.add_assoc]
  rfl

theorem encodeFixed32_mod (value : Nat) : encodeFixed32 (value % 2 ^ 32) = encodeFixed32 value :=
  encodeFixed_mod 4 value

@[simp] theorem count_encode (batch : WriteBatch UserKey Bytes) :
    batch.encode.count = Int.bmod batch.count (2 ^ 32) := by
  have wrapped : batch.count % 2 ^ 32 < 2 ^ 32 := Nat.mod_lt _ (Nat.two_pow_pos 32)
  have stored : decodeFixed32 (batch.encode.rep.drop 8) = batch.count % 2 ^ 32 := by
    rw [drop_encode, ← encodeFixed32_mod, decodeFixed32_encodeFixed32 wrapped]
  unfold count
  rw [stored, Int.natCast_mod]
  exact Int.emod_bmod batch.count (2 ^ 32)

theorem bmod_emod (n : Int) : Int.bmod n (2 ^ 32) % 2 ^ 32 = n % 2 ^ 32 := Int.bmod_emod

/-- The count that is stored wraps with 32 bits, and so does what is added to it. -/
theorem setCount_encode (batch : WriteBatch UserKey Bytes) {n : Int} {added : Nat}
    (same : n % 2 ^ 32 = (batch.count + added : Nat) % 2 ^ 32) :
    batch.encode.setCount n = WriteBatch.encode { batch with count := batch.count + added } := by
  have stored : (n % 2 ^ 32).toNat = (batch.count + added) % 2 ^ 32 := by
    rw [same]
    norm_cast
  rw [setCount, take_encode, drop_kHeader_encode, stored, encodeFixed32_mod, List.append_assoc]
  rfl

theorem setCount_succ (batch : WriteBatch UserKey Bytes) :
    batch.encode.setCount (batch.encode.count + 1) =
      WriteBatch.encode { batch with count := batch.count + 1 } := by
  refine setCount_encode batch ?_
  rw [count_encode, Nat.cast_add, Nat.cast_one, Int.add_emod, bmod_emod, ← Int.add_emod]

theorem record_encode (batch : WriteBatch UserKey Bytes) (op : WriteOp UserKey Bytes) :
    batch.encode.record op = (batch.record op).encode := by
  cases op with
  | put userKey value =>
    rw [record, put, setCount_succ]
    simp [WriteBatch.encode, WriteBatch.record, WriteOp.encode]
  | delete userKey =>
    rw [record, delete, setCount_succ]
    simp [WriteBatch.encode, WriteBatch.record, WriteOp.encode]

theorem foldl_record_encode (batch : WriteBatch UserKey Bytes)
    (ops : List (WriteOp UserKey Bytes)) :
    ops.foldl record batch.encode =
      WriteBatch.encode ⟨batch.sequence, batch.count + ops.length, batch.ops ++ ops⟩ := by
  induction ops generalizing batch with
  | nil => rw [List.append_nil]; rfl
  | cons op rest inductionHypothesis =>
    rw [List.foldl_cons, record_encode, inductionHypothesis, WriteBatch.record,
      List.length_cons, List.append_assoc, List.singleton_append, Nat.add_assoc,
      Nat.add_comm 1]

theorem setSequence_encode (batch : WriteBatch UserKey Bytes) (seq : Nat) :
    batch.encode.setSequence seq = WriteBatch.encode { batch with sequence := seq } := by
  rw [setSequence, drop_encode]
  rfl

/-- What `Put`, `Delete` and `SetSequence` build is the encoding of the batch. -/
theorem build_eq (seq : Nat) (ops : List (WriteOp UserKey Bytes)) :
    build seq ops = WriteBatch.encode ⟨seq, ops.length, ops⟩ := by
  rw [build, clear_eq, foldl_record_encode, setSequence_encode]
  simp [WriteBatch.clear]

theorem sequence_encode {batch : WriteBatch UserKey Bytes} (isSequence : batch.sequence < 2 ^ 64) :
    batch.encode.sequence = batch.sequence :=
  decodeFixed64_encodeFixed64 isSequence _

/-- `Append` on the bytes is the append of the abstract batches, whatever the bytes are. -/
theorem append_encode (dst src : WriteBatch UserKey Bytes) :
    dst.encode.append src.encode = (dst.append src).encode := by
  have counts : dst.encode.setCount (dst.encode.count + src.encode.count) =
      WriteBatch.encode { dst with count := dst.count + src.count } := by
    refine setCount_encode dst ?_
    rw [count_encode, count_encode, Nat.cast_add, Int.add_emod, bmod_emod, bmod_emod,
      ← Int.add_emod]
  rw [append, counts, drop_kHeader_encode]
  simp [WriteBatch.encode, WriteBatch.append]

/-! ### Parsing the records -/

variable {State : Type}

theorem iterateLoop_encode (handler : BatchHandler State) {op : WriteOp UserKey Bytes}
    (fits : op.Fits) (state : State) (found : Nat) (rest : Bytes) :
    iterateLoop handler state found (op.encode ++ rest) =
      iterateLoop handler (handler.call state op) (found + 1) rest := by
  cases op with
  | put userKey value =>
    have keyRead := getLengthPrefixedSlice_putLengthPrefixedSlice fits.key
      (putLengthPrefixedSlice value ++ rest)
    have valueRead := getLengthPrefixedSlice_putLengthPrefixedSlice fits.value rest
    rw [WriteOp.userKey] at keyRead
    rw [WriteOp.value] at valueRead
    rw [WriteOp.encode, List.cons_append, List.append_assoc, iterateLoop, if_pos rfl]
    split
    · next missing => rw [keyRead] at missing; cases missing
    · next found =>
      rw [keyRead] at found
      cases found
      split
      · next missing => rw [valueRead] at missing; cases missing
      · next found => rw [valueRead] at found; cases found; rfl
  | delete userKey =>
    have keyRead := getLengthPrefixedSlice_putLengthPrefixedSlice fits.key rest
    rw [WriteOp.userKey] at keyRead
    rw [WriteOp.encode, List.cons_append, iterateLoop, if_neg (by decide), if_pos rfl]
    split
    · next missing => rw [keyRead] at missing; cases missing
    · next found => rw [keyRead] at found; cases found; rfl

theorem iterateLoop_encodes (handler : BatchHandler State) {ops : List (WriteOp UserKey Bytes)}
    (fits : ∀ op ∈ ops, op.Fits) (state : State) (found : Nat) :
    iterateLoop handler state found (ops.flatMap WriteOp.encode) =
      (ops.foldl handler.call state, .ok (found + ops.length)) := by
  induction ops generalizing state found with
  | nil => rw [List.flatMap_nil, iterateLoop]; rfl
  | cons op rest inductionHypothesis =>
    obtain ⟨first, later⟩ := List.forall_mem_cons.mp fits
    rw [List.flatMap_cons, iterateLoop_encode handler first, inductionHypothesis later,
      List.foldl_cons, List.length_cons, Nat.add_assoc, Nat.add_comm 1]

/-- `Iterate` hands over the operations of a batch in order, and compares the count in the header
with how many they are. -/
theorem iterate_encode {batch : WriteBatch UserKey Bytes} (fits : ∀ op ∈ batch.ops, op.Fits)
    (handler : BatchHandler State) (state : State) :
    batch.encode.iterate handler state =
      (batch.ops.foldl handler.call state,
        if (batch.ops.length : Int) = Int.bmod batch.count (2 ^ 32) then none
        else some "WriteBatch has wrong count") := by
  have long : ¬ batch.encode.rep.length < kHeader := by
    rw [length_encode]
    exact Nat.not_lt.mpr (Nat.le_add_right _ _)
  rw [iterate, if_neg long, drop_kHeader_encode, iterateLoop_encodes handler fits, Nat.zero_add,
    count_encode]
  dsimp only
  by_cases same : (batch.ops.length : Int) = Int.bmod batch.count (2 ^ 32)
  · rw [if_neg (not_not.mpr same), if_pos same]
  · rw [if_pos same, if_neg same]

end BatchContents

/-! ### Operations in the memtable -/

namespace WriteOp

/-- The entry a memtable holds once the operation was added at a sequence number. -/
def stored (sequence : Nat) (op : WriteOp UserKey Bytes) : Entry UserKey Bytes :=
  MemTable.readEntry (MemTable.encodeEntry sequence op.type op.userKey.bytes op.value)

/-- The length of the internal key fits its prefix. -/
def KeyFits (op : WriteOp UserKey Bytes) : Prop := op.userKey.bytes.length + 8 < 2 ^ 32

end WriteOp

namespace MemTable

theorem getLengthPrefixedSlice_encode {length : Nat} (fits : length < 2 ^ 32) (rest : Bytes) :
    getLengthPrefixedSlice (encodeVarint32 length ++ rest) =
      (rest.take length, rest.drop length) := by
  rw [getLengthPrefixedSlice, getVarint32_encodeVarint32 fits]

theorem encodeFixed64_mod (value : Nat) : encodeFixed64 (value % 2 ^ 64) = encodeFixed64 value :=
  encodeFixed_mod 8 value

end MemTable

namespace WriteOp

variable {op : WriteOp UserKey Bytes}

/-- `sequence_` wraps with 64 bits, which is more than an entry stores of it. -/
theorem stored_mod (sequence : Nat) (op : WriteOp UserKey Bytes) :
    op.stored (sequence % 2 ^ 64) = op.stored sequence := by
  have same : packSequenceAndType (sequence % 2 ^ 64) op.type % 2 ^ 64 =
      packSequenceAndType sequence op.type % 2 ^ 64 := by
    rw [packSequenceAndType, packSequenceAndType, Nat.add_mod, Nat.mod_mul_mod, ← Nat.add_mod]
  rw [stored, stored, MemTable.encodeEntry, MemTable.encodeEntry, ← MemTable.encodeFixed64_mod,
    same, MemTable.encodeFixed64_mod]

/-- What is read from an entry whose key fits is the operation, but for a tag of 64 bits. -/
theorem stored_eq (sequence : Nat) (fits : op.Fits) (keyFits : op.KeyFits) :
    op.stored sequence =
      ⟨⟨op.userKey, packSequenceAndType sequence op.type % 2 ^ 64⟩, op.value⟩ := by
  obtain ⟨tag, isTag⟩ : ∃ tag, tag = packSequenceAndType sequence op.type % 2 ^ 64 := ⟨_, rfl⟩
  have small : tag < 2 ^ 64 := isTag ▸ Nat.mod_lt _ (Nat.two_pow_pos 64)
  have key : op.userKey.bytes ++ encodeFixed64 tag = InternalKey.encode ⟨op.userKey, tag⟩ := rfl
  have length : op.userKey.bytes.length + 8 = (InternalKey.encode ⟨op.userKey, tag⟩).length := by
    rw [← key, List.length_append, length_encodeFixed64]
  rw [stored, MemTable.encodeEntry, ← MemTable.encodeFixed64_mod, ← isTag,
    Nat.mod_eq_of_lt keyFits, Nat.mod_eq_of_lt fits.value, List.append_assoc, List.append_assoc,
    List.append_assoc, MemTable.readEntry, MemTable.getLengthPrefixedSlice_encode keyFits,
    ← List.append_assoc op.userKey.bytes, key, length]
  dsimp only
  rw [List.take_left, List.drop_left, InternalKey.decodeFrom_encode small,
    MemTable.getLengthPrefixedSlice_encode fits.value, List.take_length]

theorem entry_eq (sequence : Nat) (op : WriteOp UserKey Bytes) :
    op.entry sequence = ⟨⟨op.userKey, packSequenceAndType sequence op.type⟩, op.value⟩ := by
  cases op <;> rfl

/-- A key that does not fit is not read back: the internal key found is too short for a tag. -/
theorem bytes_stored (sequence : Nat) (fits : op.Fits) (tooLong : ¬ op.KeyFits) :
    (op.stored sequence).userKey.bytes = [] := by
  have wrapped : (op.userKey.bytes.length + 8) % 2 ^ 32 ≤ 8 := by
    have key := fits.key
    rw [KeyFits] at tooLong
    omega
  have short : (op.userKey.bytes.length + 8) % 2 ^ 32 < 2 ^ 32 :=
    Nat.mod_lt _ (Nat.two_pow_pos 32)
  rw [stored, MemTable.encodeEntry, List.append_assoc, List.append_assoc, List.append_assoc,
    MemTable.readEntry, MemTable.getLengthPrefixedSlice_encode short]
  dsimp only [Entry.userKey, InternalKey.decodeFrom]
  rw [Nat.sub_eq_zero_of_le, List.take_zero]
  exact (List.length_take_le _ _).trans wrapped

end WriteOp

/-! ### Replaying a batch -/

namespace BatchContents

variable [LinearOrder UserKey]

theorem call_memTableInserter (sequence : Nat) (mem : List (Entry UserKey Bytes))
    (op : WriteOp UserKey Bytes) :
    memTableInserter.call (sequence, mem) op =
      ((sequence + 1) % 2 ^ 64, memTableAdd mem (op.stored sequence)) := by
  cases op <;> rfl

theorem foldl_memTableInserter (sequence : Nat) (mem : List (Entry UserKey Bytes))
    (ops : List (WriteOp UserKey Bytes)) :
    (ops.foldl memTableInserter.call (sequence % 2 ^ 64, mem)).2 =
      LevelDb.insertInto mem ((ops.zipIdx sequence).map fun pair => pair.1.stored pair.2) := by
  induction ops generalizing sequence mem with
  | nil => rfl
  | cons op rest inductionHypothesis =>
    rw [List.foldl_cons, call_memTableInserter, WriteOp.stored_mod, Nat.mod_add_mod,
      inductionHypothesis]
    rfl

/-- What `InsertInto` makes of a batch that was built of operations. -/
theorem insertInto_build {seq : Nat} (isSequence : seq < 2 ^ 64)
    {ops : List (WriteOp UserKey Bytes)} (fits : ∀ op ∈ ops, op.Fits) (few : ops.length < 2 ^ 31)
    (mem : List (Entry UserKey Bytes)) :
    (build seq ops).insertInto mem =
      (LevelDb.insertInto mem ((ops.zipIdx seq).map fun pair => pair.1.stored pair.2), none) := by
  have counted : (ops.length : Int) = Int.bmod ops.length (2 ^ 32) :=
    (Int.bmod_eq_of_le (by omega) (by omega)).symm
  have inserted := foldl_memTableInserter seq mem ops
  rw [Nat.mod_eq_of_lt isSequence] at inserted
  rw [insertInto, build_eq, sequence_encode isSequence, iterate_encode fits, if_pos counted]
  dsimp only
  rw [inserted]

/-- A batch replays as the operations it was built of. -/
structure Replays (seq : Nat) (ops : List (WriteOp UserKey Bytes))
    (mem : List (Entry UserKey Bytes)) : Prop where
  iterates : ∀ (State : Type) (handler : BatchHandler State) (state : State),
    (build seq ops).iterate handler state = (ops.foldl handler.call state, none)
  appends : ∀ (dstSeq : Nat) (dstOps : List (WriteOp UserKey Bytes)),
    (build dstSeq dstOps).append (build seq ops) = build dstSeq (dstOps ++ ops)
  inserts : (build seq ops).insertInto mem =
    (LevelDb.insertInto mem (batchEntries seq ops), none)

omit [LinearOrder UserKey] in
theorem batchEntries_eq (seq : Nat) (ops : List (WriteOp UserKey Bytes)) :
    batchEntries seq ops = (ops.zipIdx seq).map fun pair => pair.1.entry pair.2 := by
  induction ops generalizing seq with
  | nil => rfl
  | cons op rest inductionHypothesis =>
    rw [batchEntries, inductionHypothesis, List.zipIdx_cons, List.map_cons]

/-- If the memtable is what the operations say, no measure of an entry that storing it can only
lower is lowered for any of them. -/
theorem Replays.stored_measure {seq : Nat} (isSequence : seq < 2 ^ 64)
    {ops : List (WriteOp UserKey Bytes)} (fits : ∀ op ∈ ops, op.Fits) (few : ops.length < 2 ^ 31)
    {mem : List (Entry UserKey Bytes)} (replays : Replays seq ops mem)
    (measure : Entry UserKey Bytes → Nat)
    (lower : ∀ pair ∈ ops.zipIdx seq,
      measure (pair.1.stored pair.2) ≤ measure (pair.1.entry pair.2))
    {pair : WriteOp UserKey Bytes × Nat} (member : pair ∈ ops.zipIdx seq) :
    measure (pair.1.stored pair.2) = measure (pair.1.entry pair.2) := by
  have same := congrArg Prod.fst (replays.inserts.symm.trans
    (insertInto_build isSequence fits few mem))
  dsimp only at same
  have perm := (List.perm_append_left_iff mem).mp
    ((insertInto_perm mem _).symm.trans (same ▸ insertInto_perm mem _))
  rw [batchEntries_eq] at perm
  have sums := (perm.map measure).sum_eq
  rw [List.map_map, List.map_map] at sums
  by_contra different
  exact (List.sum_lt_sum _ _ lower ⟨pair, member, lt_of_le_of_ne (lower pair member) different⟩).ne
    sums

theorem Replays.keyFits {seq : Nat} (isSequence : seq < 2 ^ 64)
    {ops : List (WriteOp UserKey Bytes)} (fits : ∀ op ∈ ops, op.Fits) (few : ops.length < 2 ^ 31)
    {mem : List (Entry UserKey Bytes)} (replays : Replays seq ops mem)
    {op : WriteOp UserKey Bytes} (member : op ∈ ops) : op.KeyFits := by
  have length : ∀ (sequence : Nat) {op : WriteOp UserKey Bytes}, op.Fits → ¬ op.KeyFits →
      (op.stored sequence).userKey.bytes.length < op.userKey.bytes.length := by
    intro sequence op opFits tooLong
    rw [WriteOp.bytes_stored sequence opFits tooLong]
    rw [WriteOp.KeyFits] at tooLong
    simp only [List.length_nil]
    omega
  obtain ⟨index, found⟩ := List.getElem?_of_mem member
  have inBatch : (op, seq + index) ∈ ops.zipIdx seq :=
    List.mk_add_mem_zipIdx_iff_getElem?.mpr found
  have same := replays.stored_measure isSequence fits few
    (fun entry => entry.userKey.bytes.length) ?_ inBatch
  · by_contra tooLong
    rw [WriteOp.entry_eq] at same
    exact (length (seq + index) (fits op member) tooLong).ne same
  · intro pair pairMember
    have pairFits := fits pair.1 (List.fst_mem_of_mem_zipIdx pairMember)
    rw [WriteOp.entry_eq]
    by_cases keyFits : pair.1.KeyFits
    · rw [WriteOp.stored_eq pair.2 pairFits keyFits]
      exact le_refl _
    · exact (length pair.2 pairFits keyFits).le

/-- A sequence number from `2 ^ 56` on loses its high bits beside the value type. -/
theorem Replays.sequences {seq : Nat} (isSequence : seq < 2 ^ 64)
    {ops : List (WriteOp UserKey Bytes)} (fits : ∀ op ∈ ops, op.Fits) (few : ops.length < 2 ^ 31)
    {mem : List (Entry UserKey Bytes)} (replays : Replays seq ops mem) {index : Nat}
    (inside : index < ops.length) : seq + index ≤ kMaxSequenceNumber := by
  have inBatch : (ops[index], seq + index) ∈ ops.zipIdx seq :=
    List.mk_add_mem_zipIdx_iff_getElem?.mpr (List.getElem?_eq_getElem inside)
  have stored : ∀ pair ∈ ops.zipIdx seq, (pair.1.stored pair.2).key.tag =
      packSequenceAndType pair.2 pair.1.type % 2 ^ 64 := by
    intro pair pairMember
    have opMember := List.fst_mem_of_mem_zipIdx pairMember
    rw [WriteOp.stored_eq pair.2 (fits pair.1 opMember)
      (replays.keyFits isSequence fits few opMember)]
  have same := replays.stored_measure isSequence fits few (fun entry => entry.key.tag) ?_ inBatch
  · have isTag := stored _ inBatch
    dsimp only at same isTag
    rw [isTag, WriteOp.entry_eq] at same
    have small : packSequenceAndType (seq + index) ops[index].type < 2 ^ 64 :=
      same.symm.trans_lt (Nat.mod_lt _ (Nat.two_pow_pos 64))
    rw [packSequenceAndType] at small
    rw [kMaxSequenceNumber]
    omega
  · intro pair pairMember
    rw [stored pair pairMember, WriteOp.entry_eq]
    exact Nat.mod_le _ _

/-- A batch replays as its operations exactly when their keys leave room for a tag in 32 bits of
length and their sequence numbers are at most the largest one. -/
theorem replays_iff {seq : Nat} (isSequence : seq < 2 ^ 64) {ops : List (WriteOp UserKey Bytes)}
    (fits : ∀ op ∈ ops, op.Fits) (few : ops.length < 2 ^ 31)
    (mem : List (Entry UserKey Bytes)) :
    Replays seq ops mem ↔
      (∀ op ∈ ops, op.KeyFits) ∧ ∀ index < ops.length, seq + index ≤ kMaxSequenceNumber := by
  refine ⟨fun replays => ⟨fun op member => replays.keyFits isSequence fits few member,
    fun index inside => replays.sequences isSequence fits few inside⟩, ?_⟩
  rintro ⟨keysFit, sequences⟩
  refine ⟨fun State handler state => ?_, fun dstSeq dstOps => ?_, ?_⟩
  · have counted : (ops.length : Int) = Int.bmod ops.length (2 ^ 32) :=
      (Int.bmod_eq_of_le (by omega) (by omega)).symm
    rw [build_eq, iterate_encode fits, if_pos counted]
  · rw [build_eq, build_eq, build_eq, append_encode, WriteBatch.append, List.length_append]
  · rw [insertInto_build isSequence fits few, batchEntries_eq]
    refine congrArg (fun entries => (LevelDb.insertInto mem entries, none)) ?_
    refine List.map_congr_left fun pair member => ?_
    have opMember := List.fst_mem_of_mem_zipIdx member
    obtain ⟨index, inside, isNumber⟩ : ∃ index < ops.length, pair.2 = seq + index :=
      ⟨pair.2 - seq, Nat.sub_lt_left_of_lt_add (List.le_snd_of_mem_zipIdx member)
        (List.snd_lt_add_of_mem_zipIdx member),
        (Nat.add_sub_cancel' (List.le_snd_of_mem_zipIdx member)).symm⟩
    have small : packSequenceAndType pair.2 pair.1.type < 2 ^ 64 := by
      have bound := sequences index inside
      rw [← isNumber, kMaxSequenceNumber] at bound
      rw [packSequenceAndType]
      cases pair.1.type <;> simp only [ValueType.code] <;> omega
    rw [WriteOp.stored_eq pair.2 (fits pair.1 opMember) (keysFit pair.1 opMember),
      WriteOp.entry_eq, Nat.mod_eq_of_lt small]

omit [LinearOrder UserKey] in
theorem replays_small :
    @Replays bytewise 100
      [.put ⟨[1, 0]⟩ [98, 97, 114], .delete ⟨[]⟩, .put ⟨[98]⟩ [1, 1, 97]] [] := by
  let _ := bytewise
  refine (replays_iff (by decide) ?_ (by decide) []).mpr ⟨?_, ?_⟩
  · simp only [List.forall_mem_cons]
    exact ⟨⟨by decide, by decide⟩, ⟨by decide, by decide⟩, ⟨by decide, by decide⟩, nofun⟩
  · simp only [List.forall_mem_cons]
    exact ⟨by unfold WriteOp.KeyFits; decide, by unfold WriteOp.KeyFits; decide,
      by unfold WriteOp.KeyFits; decide, nofun⟩
  · intro index inside
    simp only [List.length_cons, List.length_nil] at inside
    rw [kMaxSequenceNumber]
    omega

omit [LinearOrder UserKey] in
/-- A batch of one deletion whose key is four bytes shorter than a batch allows. -/
theorem long_key_not_replayed :
    ∃ ops : List (WriteOp UserKey Bytes),
      ops = [.delete ⟨List.replicate (2 ^ 32 - 4) 0⟩] ∧ (∀ op ∈ ops, op.Fits) ∧
        ops.length < 2 ^ 31 ∧ ¬ @Replays bytewise 1 ops [] := by
  let _ := bytewise
  obtain ⟨key, isLength⟩ : ∃ key : Bytes, key = List.replicate (2 ^ 32 - 4) 0 := ⟨_, rfl⟩
  have length : key.length = 2 ^ 32 - 4 := by rw [isLength, List.length_replicate]
  have fits : ∀ op ∈ [(.delete ⟨key⟩ : WriteOp UserKey Bytes)], op.Fits := by
    intro op member
    cases List.mem_singleton.mp member
    exact ⟨by rw [WriteOp.userKey, length]; decide, Nat.two_pow_pos 32⟩
  refine ⟨[.delete ⟨key⟩], by rw [isLength], fits, by rw [List.length_singleton]; decide, ?_⟩
  intro replays
  have keyFits := replays.keyFits (by decide) fits (by rw [List.length_singleton]; decide)
    List.mem_cons_self
  rw [WriteOp.KeyFits, WriteOp.userKey, length] at keyFits
  exact absurd keyFits (by decide)

/-! ### The write path's batches -/

omit [LinearOrder UserKey] in
theorem length_encode_eq_byteSize (batch : WriteBatch UserKey Bytes) :
    batch.encode.rep.length = batch.byteSize fun op => op.encode.length := by
  rw [length_encode, WriteBatch.byteSize, List.length_flatMap]

omit [LinearOrder UserKey] in
/-- `Iterate` on the bytes is OK exactly when it is for the abstract batch. -/
theorem iterate_encode_eq_none_iff {State : Type} {batch : WriteBatch UserKey Bytes}
    (fits : ∀ op ∈ batch.ops, op.Fits) (few : batch.count < 2 ^ 31)
    (handler : BatchHandler State) (state : State) :
    (batch.encode.iterate handler state).2 = none ↔ batch.iterateStatus = .ok := by
  have counted : Int.bmod batch.count (2 ^ 32) = batch.count :=
    Int.bmod_eq_of_le (by omega) (by omega)
  rw [iterate_encode fits, counted, WriteBatch.iterateStatus]
  by_cases same : batch.ops.length = batch.count
  · rw [if_pos (congrArg Nat.cast same), if_pos same]
    simp
  · rw [if_neg fun equal => same (Nat.cast_inj.mp equal), if_neg same]
    simp

end BatchContents

end LevelDb
