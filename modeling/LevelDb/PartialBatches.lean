/-
This file describes what `InsertInto` leaves in a memtable when the contents of a batch are
malformed. The records are applied one by one while they are parsed, so those in front of the first
malformed one stay, and the count is compared when all of them have been applied.

The replay of a log without `paranoid_checks` ignores the status that is returned.
-/

import LevelDb.BatchContents

namespace LevelDb

/-! ### Records -/

/-- A record at the start of some bytes, as `Iterate` reads it, and the bytes behind it. -/
inductive ReadsRecord : Bytes → WriteOp UserKey Bytes → Bytes → Prop
  | put {input afterKey rest key value : Bytes}
      (readsKey : getLengthPrefixedSlice input = some (key, afterKey))
      (readsValue : getLengthPrefixedSlice afterKey = some (value, rest)) :
      ReadsRecord (1 :: input) (.put ⟨key⟩ value) rest
  | delete {input rest key : Bytes}
      (readsKey : getLengthPrefixedSlice input = some (key, rest)) :
      ReadsRecord (0 :: input) (.delete ⟨key⟩) rest

/-- Records at the start of some bytes, and the bytes behind them. -/
inductive ReadsRecords : Bytes → List (WriteOp UserKey Bytes) → Bytes → Prop
  | nil (input : Bytes) : ReadsRecords input [] input
  | cons {input middle rest : Bytes} {op : WriteOp UserKey Bytes}
      {ops : List (WriteOp UserKey Bytes)} (reads : ReadsRecord input op middle)
      (later : ReadsRecords middle ops rest) : ReadsRecords input (op :: ops) rest

/-- There is no record at the start of some bytes. -/
def NoRecord (input : Bytes) : Prop := ∀ op rest, ¬ ReadsRecord input op rest

theorem ReadsRecord.length_lt {input rest : Bytes} {op : WriteOp UserKey Bytes}
    (reads : ReadsRecord input op rest) : rest.length < input.length := by
  cases reads with
  | put readsKey readsValue =>
    exact ((length_getLengthPrefixedSlice readsValue).trans
      (length_getLengthPrefixedSlice readsKey)).trans (Nat.lt_succ_self _)
  | delete readsKey => exact (length_getLengthPrefixedSlice readsKey).trans (Nat.lt_succ_self _)

namespace BatchContents

variable {State : Type} (handler : BatchHandler State)

/-- `Iterate` hands a record over and goes on behind it. -/
theorem iterateLoop_of_readsRecord {input rest : Bytes} {op : WriteOp UserKey Bytes}
    (reads : ReadsRecord input op rest) (state : State) (found : Nat) :
    iterateLoop handler state found input =
      iterateLoop handler (handler.call state op) (found + 1) rest := by
  cases reads with
  | put readsKey readsValue =>
    rw [iterateLoop, if_pos rfl]
    split
    · next missing => rw [readsKey] at missing; cases missing
    · next isKey =>
      rw [readsKey] at isKey
      cases isKey
      split
      · next missing => rw [readsValue] at missing; cases missing
      · next isValue => rw [readsValue] at isValue; cases isValue; rfl
  | delete readsKey =>
    rw [iterateLoop, if_neg (by decide), if_pos rfl]
    split
    · next missing => rw [readsKey] at missing; cases missing
    · next isKey => rw [readsKey] at isKey; cases isKey; rfl

theorem iterateLoop_of_readsRecords {input rest : Bytes} {ops : List (WriteOp UserKey Bytes)}
    (reads : ReadsRecords input ops rest) (state : State) (found : Nat) :
    iterateLoop handler state found input =
      iterateLoop handler (ops.foldl handler.call state) (found + ops.length) rest := by
  induction reads generalizing state found with
  | nil input => rfl
  | cons first later inductionHypothesis =>
    rw [iterateLoop_of_readsRecord handler first, inductionHypothesis, List.foldl_cons,
      List.length_cons, Nat.add_assoc, Nat.add_comm 1]

theorem decodeFixed64_lt (bytes : Bytes) : decodeFixed64 bytes < 2 ^ 64 :=
  (decodeFixed_lt _).trans_le (Nat.pow_le_pow_right Nat.two_pos
    (Nat.mul_le_mul_left 8 (List.length_take_le 8 bytes)))

/-- Where there is no record, `Iterate` stops. -/
theorem iterateLoop_of_noRecord {input : Bytes} (stuck : NoRecord input) (state : State)
    (found : Nat) :
    (iterateLoop handler state found input).1 = state ∧
      ((iterateLoop handler state found input).2 = .ok found ↔ input = []) ∧
      ((iterateLoop handler state found input).2 ≠ .ok found →
        ∃ message, (iterateLoop handler state found input).2 = .error message) := by
  cases input with
  | nil =>
    rw [iterateLoop]
    exact ⟨rfl, iff_of_true rfl rfl, fun differs => absurd rfl differs⟩
  | cons tag input =>
    suffices ∃ message, iterateLoop handler state found (tag :: input) = (state, .error message) by
      obtain ⟨message, result⟩ := this
      rw [result]
      exact ⟨rfl, iff_of_false (fun same => by cases same) (List.cons_ne_nil _ _),
        fun _ => ⟨message, rfl⟩⟩
    rw [iterateLoop]
    split
    · next isPut =>
      subst isPut
      split
      · exact ⟨_, rfl⟩
      · next key afterKey readsKey =>
        split
        · exact ⟨_, rfl⟩
        · next readsValue => exact absurd (ReadsRecord.put readsKey readsValue) (stuck _ _)
    · split
      · next isDelete =>
        subst isDelete
        split
        · exact ⟨_, rfl⟩
        · next readsKey => exact absurd (ReadsRecord.delete readsKey) (stuck _ _)
      · exact ⟨_, rfl⟩

/-- There are records up to where there is none. -/
theorem exists_readsRecords (input : Bytes) :
    ∃ ops rest, ReadsRecords input ops rest ∧ NoRecord rest := by
  induction isLength : input.length using Nat.strongRecOn generalizing input with
  | ind length inductionHypothesis =>
    by_cases stuck : NoRecord input
    · exact ⟨[], input, .nil input, stuck⟩
    · obtain ⟨op, middle, reads⟩ : ∃ op middle, ReadsRecord input op middle := by
        by_contra nothing
        exact stuck fun op middle reads => nothing ⟨op, middle, reads⟩
      obtain ⟨ops, rest, later, last⟩ :=
        inductionHypothesis _ (isLength ▸ reads.length_lt) middle rfl
      exact ⟨op :: ops, rest, .cons reads later, last⟩

/-! ### What is left in the memtable -/

variable [LinearOrder UserKey]

/-- The entries of records, with the sequence numbers from that of the batch on. -/
def storedEntries (batch : BatchContents) (ops : List (WriteOp UserKey Bytes)) :
    List (Entry UserKey Bytes) :=
  (ops.zipIdx batch.sequence).map fun pair => pair.1.stored pair.2

omit [LinearOrder UserKey] in
theorem sequence_lt (batch : BatchContents) : batch.sequence < 2 ^ 64 := decodeFixed64_lt batch.rep

/-- The inserter adds the entries of records. -/
theorem foldl_storedEntries (batch : BatchContents) (mem : List (Entry UserKey Bytes))
    (ops : List (WriteOp UserKey Bytes)) :
    (ops.foldl memTableInserter.call (batch.sequence, mem)).2 =
      LevelDb.insertInto mem (batch.storedEntries ops) := by
  have folded := foldl_memTableInserter batch.sequence mem ops
  rw [Nat.mod_eq_of_lt batch.sequence_lt] at folded
  exact folded

/-- The status of `Iterate` after its loop. -/
def loopStatus (batch : BatchContents) : Except String Nat → Option String
  | .error message => some message
  | .ok found => if (found : Int) = batch.count then none else some "WriteBatch has wrong count"

theorem insertInto_of_iterateLoop {batch : BatchContents} (whole : kHeader ≤ batch.rep.length)
    {mem : List (Entry UserKey Bytes)} {after : Nat × List (Entry UserKey Bytes)}
    {outcome : Except String Nat} (isResult : iterateLoop memTableInserter (batch.sequence, mem) 0
      (batch.rep.drop kHeader) = (after, outcome)) :
    batch.insertInto mem = (after.2, batch.loopStatus outcome) := by
  rw [insertInto, iterate, if_neg (not_lt.mpr whole), isResult]
  cases outcome with
  | error message => rfl
  | ok found =>
    dsimp only
    rw [loopStatus]
    by_cases counted : (found : Int) = batch.count
    · rw [if_neg (not_not.mpr counted), if_pos counted]
    · rw [if_pos counted, if_neg counted]

/-- The records in front of the first malformed one are inserted, and the status is OK exactly when
there is nothing behind them and they are as many as the header says. -/
theorem insertInto_of_readsRecords {batch : BatchContents} (whole : kHeader ≤ batch.rep.length)
    {ops : List (WriteOp UserKey Bytes)} {rest : Bytes}
    (reads : ReadsRecords (batch.rep.drop kHeader) ops rest) (stuck : NoRecord rest)
    (mem : List (Entry UserKey Bytes)) :
    (batch.insertInto mem).1 = LevelDb.insertInto mem (batch.storedEntries ops) ∧
      ((batch.insertInto mem).2 = none ↔ rest = [] ∧ (ops.length : Int) = batch.count) := by
  obtain ⟨⟨after, outcome⟩, isResult⟩ : ∃ result, iterateLoop memTableInserter
    (batch.sequence, mem) 0 (batch.rep.drop kHeader) = result := ⟨_, rfl⟩
  rw [insertInto_of_iterateLoop whole isResult]
  rw [iterateLoop_of_readsRecords _ reads, Nat.zero_add] at isResult
  obtain ⟨sameState, ended, fails⟩ := iterateLoop_of_noRecord memTableInserter stuck
    (ops.foldl memTableInserter.call (batch.sequence, mem)) ops.length
  rw [isResult] at sameState ended fails
  dsimp only at sameState ended fails ⊢
  refine ⟨?_, ?_⟩
  · rw [sameState]
    exact batch.foldl_storedEntries mem ops
  · cases outcome with
    | error message =>
      refine iff_of_false nofun fun both => ?_
      cases ended.mpr both.1
    | ok found =>
      have same : (Except.ok found : Except String Nat) = .ok ops.length := by
        by_contra differs
        obtain ⟨message, impossible⟩ := fails differs
        cases impossible
      have nothing := ended.mp same
      rw [Except.ok.inj same, loopStatus]
      by_cases counted : (ops.length : Int) = batch.count
      · rw [if_pos counted]
        exact iff_of_true rfl ⟨nothing, counted⟩
      · rw [if_neg counted]
        exact iff_of_false nofun fun both => counted both.2

end BatchContents

/-! ### Replaying a record of a log -/

/-- What `RecoverLogFile` does with a record of a log: the memtable, and the status it goes on
with. A record that is too short is dropped; `MaybeIgnoreError` ignores a status unless
`paranoid_checks` is set. -/
def replayRecord [LinearOrder UserKey] (paranoidChecks : Bool) (mem : List (Entry UserKey Bytes))
    (record : Bytes) : List (Entry UserKey Bytes) × Option String :=
  if record.length < kHeader then
    (mem, if paranoidChecks then some "log record too small" else none)
  else
    let result := BatchContents.insertInto ⟨record⟩ mem
    (result.1, if paranoidChecks then result.2 else none)

theorem insertInto_eq_self_iff [LinearOrder UserKey] (mem entries : List (Entry UserKey Bytes)) :
    insertInto mem entries = mem ↔ entries = [] := by
  refine ⟨fun same => ?_, fun empty => by rw [empty]; rfl⟩
  have length := (insertInto_perm mem entries).length_eq
  rw [same, List.length_append] at length
  exact List.length_eq_zero_iff.mp (Nat.left_eq_add.mp length)

/-- A batch is applied up to its first malformed record. When the status is not OK the memtable is
unchanged exactly if there is no record in front of that one, and a replay that ignores the status
goes on with what was applied. -/
theorem insertInto_up_to_malformed [LinearOrder UserKey] {contents : Bytes}
    (whole : kHeader ≤ contents.length) (mem : List (Entry UserKey Bytes)) :
    ∃ ops rest, ReadsRecords (contents.drop kHeader) ops rest ∧ NoRecord rest ∧
      (BatchContents.insertInto ⟨contents⟩ mem).1 =
        insertInto mem (BatchContents.storedEntries ⟨contents⟩ ops) ∧
      ((BatchContents.insertInto ⟨contents⟩ mem).2 = none ↔
        rest = [] ∧ (ops.length : Int) = BatchContents.count ⟨contents⟩) ∧
      ((BatchContents.insertInto ⟨contents⟩ mem).1 = mem ↔ ops = []) ∧
      replayRecord false mem contents =
        (insertInto mem (BatchContents.storedEntries ⟨contents⟩ ops), none) := by
  obtain ⟨ops, rest, reads, stuck⟩ := BatchContents.exists_readsRecords (contents.drop kHeader)
  obtain ⟨inserted, status⟩ := BatchContents.insertInto_of_readsRecords whole reads stuck mem
  refine ⟨ops, rest, reads, stuck, inserted, status, ?_, ?_⟩
  · rw [inserted, insertInto_eq_self_iff, BatchContents.storedEntries, List.map_eq_nil_iff,
      List.zipIdx_eq_nil_iff]
  · rw [replayRecord, if_neg (not_lt.mpr whole)]
    exact congrArg (·, none) inserted

/-- The batch of the operations `Put(foo, bar)` and `Delete(box)` at sequence number 200, without its
last byte. -/
def cutBatch : Bytes :=
  encodeFixed64 200 ++ encodeFixed32 2 ++ [1, 3, 102, 111, 111, 3, 98, 97, 114, 0, 3, 98, 111]

theorem insertInto_up_to_malformed_cutBatch :
    ∃ ops rest, ReadsRecords (cutBatch.drop kHeader) ops rest ∧ NoRecord rest ∧
      (@BatchContents.insertInto bytewise ⟨cutBatch⟩ []).1 =
        @insertInto _ _ bytewise [] (BatchContents.storedEntries ⟨cutBatch⟩ ops) := by
  let _ := bytewise
  obtain ⟨ops, rest, reads, stuck, inserted, -⟩ :=
    insertInto_up_to_malformed (show kHeader ≤ cutBatch.length by decide) []
  exact ⟨ops, rest, reads, stuck, inserted⟩

/-- The first operation of the batch is in the memtable although the status is not OK, and a replay
goes on with it. -/
theorem cutBatch_applied_in_part :
    kHeader ≤ cutBatch.length ∧ (@BatchContents.insertInto bytewise ⟨cutBatch⟩ []).2 ≠ none ∧
      (@BatchContents.insertInto bytewise ⟨cutBatch⟩ []).1 ≠ [] ∧
      (@replayRecord bytewise false [] cutBatch).1 ≠ [] := by
  let _ := bytewise
  have whole : kHeader ≤ cutBatch.length := by decide
  have readsPut : ReadsRecord (cutBatch.drop kHeader) (.put ⟨[102, 111, 111]⟩ [98, 97, 114])
      [0, 3, 98, 111] :=
    @ReadsRecord.put _ [3, 98, 97, 114, 0, 3, 98, 111] _ _ _ (by decide) (by decide)
  have stuck : NoRecord [0, 3, 98, 111] := by
    intro op rest reads
    cases reads with
    | delete readsKey =>
      have missing : getLengthPrefixedSlice [3, 98, 111] = none := by decide
      rw [missing] at readsKey
      cases readsKey
  obtain ⟨inserted, status⟩ := @BatchContents.insertInto_of_readsRecords _ ⟨cutBatch⟩ whole _ _
    (.cons readsPut (.nil _)) stuck []
  have kept : (BatchContents.insertInto ⟨cutBatch⟩ []).1 ≠ [] := by
    rw [inserted, Ne, insertInto_eq_self_iff]
    exact List.cons_ne_nil _ _
  refine ⟨whole, fun isOk => absurd (status.mp isOk).1 (List.cons_ne_nil _ _), kept, ?_⟩
  rw [replayRecord, if_neg (not_lt.mpr whole)]
  exact kept

end LevelDb
