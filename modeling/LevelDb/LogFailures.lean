/-
This file proves what becomes of acknowledged writes when appends to the log fail. `AddRecord`
counts the bytes of a fragment in its block offset whether or not they reached the file, and
`DBImpl::Write` goes on after a failed append. As long as no byte is missing from the file, the
reader finds the record of every acknowledged write, also behind the fragments of records that
failed halfway. One missing byte is enough to lose a later record.
-/

import LevelDb.LogRoundTrip

namespace LevelDb.Log

/-! ### Writes to a log that fails -/

/-- Calls of `DBImpl::Write` without a failing sync, one log record each: their statuses, and the
writer after them. A failed append is returned to the caller and otherwise forgotten. -/
def Writer.logWrites (writer : Writer) : List Bytes → List Bool × Writer
  | [] => ([], writer)
  | record :: rest =>
    let added := writer.addRecord record
    let others := added.2.logWrites rest
    (added.1 :: others.1, others.2)

/-- The records of the writes that returned OK. -/
def acknowledged (records : List Bytes) (statuses : List Bool) : List Bytes :=
  ((records.zip statuses).filter Prod.snd).map Prod.fst

/-- No write returns OK once a byte that the block offset counts is missing from the file. -/
def Writer.Sound (writer : Writer) : List Bytes → Prop
  | [] => True
  | record :: rest =>
    (writer.Whole record ∧ (writer.addRecord record).2.Sound rest) ∨
      ∀ status ∈ (writer.logWrites (record :: rest)).1, status = false

/-! ### The file only grows -/

theorem WritableFile.contents_isPrefix_append (file : WritableFile) (data : Bytes) :
    file.contents <+: (file.append data).2.contents := by
  rw [WritableFile.append]
  split
  · exact List.prefix_append _ _
  · exact List.prefix_append _ _
  · exact List.prefix_append _ _

theorem Writer.contents_isPrefix_startBlock (writer : Writer) :
    writer.dest.contents <+: writer.startBlock.dest.contents := by
  rw [Writer.startBlock]
  split
  · show writer.dest.contents <+: (ite _ _ _ : WritableFile).contents
    split
    · exact WritableFile.contents_isPrefix_append _ _
    · exact List.prefix_rfl
  · exact List.prefix_rfl

theorem Writer.contents_isPrefix_emitPhysicalRecord (writer : Writer) (type : RecordType)
    (payload : Bytes) :
    writer.dest.contents <+: (writer.emitPhysicalRecord type payload).2.dest.contents := by
  rw [Writer.emitPhysicalRecord]
  have headed := WritableFile.contents_isPrefix_append writer.dest (header type payload)
  show writer.dest.contents <+: (ite _ _ _ : Bool × WritableFile).2.contents
  split
  · exact headed.trans (WritableFile.contents_isPrefix_append _ _)
  · exact headed

theorem Writer.contents_isPrefix_addRecordLoop (turns : Nat) (begins : Bool) (left : Bytes)
    (writer : Writer) :
    writer.dest.contents <+: (writer.addRecordLoop turns begins left).2.dest.contents := by
  induction turns generalizing begins left writer with
  | zero => exact List.prefix_rfl
  | succ turns inductionHypothesis =>
    have emitted : ∀ type payload, writer.dest.contents <+:
        (writer.startBlock.emitPhysicalRecord type payload).2.dest.contents := fun type payload =>
      writer.contents_isPrefix_startBlock.trans
        (writer.startBlock.contents_isPrefix_emitPhysicalRecord type payload)
    rw [Writer.addRecordLoop_succ]
    split
    · exact emitted _ _
    · simp only
      split
      · exact (emitted _ _).trans (inductionHypothesis _ _ _)
      · exact emitted _ _

theorem Writer.contents_isPrefix_logWrites (writer : Writer) (records : List Bytes) :
    writer.dest.contents <+: (writer.logWrites records).2.dest.contents := by
  induction records generalizing writer with
  | nil => exact List.prefix_rfl
  | cons record rest inductionHypothesis =>
    exact (writer.contents_isPrefix_addRecordLoop _ true record).trans
      (inductionHypothesis (writer.addRecord record).2)

/-! ### Reading past a record without its end -/

/-- A turn consumes bytes. -/
theorem length_lt_of_fragment {offset turns : Nat} {fragment : Fragment} {rest : Bytes}
    (enough : (trailer offset ++ fragment.bytes ++ rest).length < turns + 1) :
    rest.length < turns := by
  have positive : 0 < kHeaderSize := by decide
  rw [List.length_append, List.length_append, Fragment.length_bytes] at enough
  omega

/-- The first fragments of the rest of a record leave it without its end. -/
theorem Reader.At.readRecordLoop_continues_take {rest : Bytes} {fragments : List Fragment}
    (continues : Continues rest fragments) {count : Nat} (proper : count < fragments.length)
    {turns : Nat} {pending : Partial} {reader : Reader} {tail : Bytes} {offset : Nat}
    (isPending : pending.inFragmentedRecord = true) (fit : Fit offset fragments)
    (enough : (layout offset (fragments.take count) ++ tail).length < turns)
    (position : reader.At (layout offset (fragments.take count) ++ tail) offset) :
    ∃ turns' pending' reader', reader.readRecordLoop turns pending =
        Reader.readRecordLoop turns' pending' reader' ∧ tail.length < turns' ∧
      reader'.At tail (endOffset offset (fragments.take count)) := by
  induction continues generalizing turns pending reader offset count with
  | last payload =>
    have none : count = 0 := Nat.lt_one_iff.mp proper
    subst none
    exact ⟨turns, pending, reader, rfl, enough, position⟩
  | middle payload more inductionHypothesis =>
    cases count with
    | zero => exact ⟨turns, pending, reader, rfl, enough, position⟩
    | succ count =>
      obtain ⟨turns, rfl⟩ :=
        Nat.exists_eq_add_of_le' (Nat.succ_le_of_lt (Nat.zero_lt_of_lt enough))
      rw [List.take_succ_cons, layout, List.append_assoc] at position enough
      obtain ⟨after, reads, afterAt, _⟩ :=
        position.readPhysicalRecord_fragment fit.1 (fun same => by cases same)
      obtain ⟨next, goesOn, nextAt, _⟩ := Reader.readRecordLoop_middle turns isPending reads afterAt
      have stillPending : ({ pending with scratch := pending.scratch ++ payload } :
          Partial).inFragmentedRecord = true := isPending
      obtain ⟨turns', pending', last, loops, left, lastAt⟩ := inductionHypothesis
        (Nat.lt_of_succ_lt_succ proper) stillPending fit.2 (length_lt_of_fragment enough) nextAt
      exact ⟨turns', pending', last, goesOn.trans loops, left, lastAt⟩

/-- The first fragments of a record leave it without its end. -/
theorem Reader.At.readRecordLoop_carries_take {record : Bytes} {fragments : List Fragment}
    (carries : Carries record fragments) {count : Nat} (proper : count < fragments.length)
    {turns : Nat} {pending : Partial} {reader : Reader} {tail : Bytes} {offset : Nat}
    (fit : Fit offset fragments)
    (enough : (layout offset (fragments.take count) ++ tail).length < turns)
    (position : reader.At (layout offset (fragments.take count) ++ tail) offset) :
    ∃ turns' pending' reader', reader.readRecordLoop turns pending =
        Reader.readRecordLoop turns' pending' reader' ∧ tail.length < turns' ∧
      reader'.At tail (endOffset offset (fragments.take count)) := by
  cases count with
  | zero => exact ⟨turns, pending, reader, rfl, enough, position⟩
  | succ count =>
    cases carries with
    | full => exact absurd (Nat.lt_of_succ_lt_succ proper) (Nat.not_lt_zero _)
    | first payload continues =>
      obtain ⟨turns, rfl⟩ :=
        Nat.exists_eq_add_of_le' (Nat.succ_le_of_lt (Nat.zero_lt_of_lt enough))
      rw [List.take_succ_cons, layout, List.append_assoc] at position enough
      obtain ⟨after, reads, afterAt, _⟩ :=
        position.readPhysicalRecord_fragment fit.1 (fun same => by cases same)
      obtain ⟨pending', next, goesOn, isPending, _, nextAt, _⟩ :=
        Reader.readRecordLoop_first turns pending reads afterAt
      obtain ⟨turns', pending'', last, loops, left, lastAt⟩ := nextAt.readRecordLoop_continues_take
        continues (Nat.lt_of_succ_lt_succ proper) isPending fit.2 (length_lt_of_fragment enough)
      exact ⟨turns', pending'', last, goesOn.trans loops, left, lastAt⟩

/-! ### Acknowledged records are read back -/

/-- The records of a call of `ReadRecord` that is already under way, and of further calls. -/
def Reader.readRest (turns : Nat) (pending : Partial) (calls : Nat) (reader : Reader) :
    List Bytes :=
  match reader.readRecordLoop turns pending with
  | (none, _) => []
  | (some record, reader) => record :: (reader.readRecords calls).1

theorem Reader.At.readRecords_succ {reader : Reader} {stream : Bytes} {offset : Nat}
    (position : reader.At stream offset) (calls : Nat) :
    (reader.readRecords (calls + 1)).1 = reader.readRest (stream.length + 1) {} calls := by
  rw [Reader.readRecords, Reader.readRest, position.readRecord_eq]
  rcases reader.readRecordLoop (stream.length + 1) {} with ⟨_ | record, next⟩
  · rfl
  · rfl

theorem acknowledged_cons (record : Bytes) (rest : List Bytes) (status : Bool)
    (statuses : List Bool) :
    acknowledged (record :: rest) (status :: statuses) =
      if status then record :: acknowledged rest statuses else acknowledged rest statuses := by
  cases status <;> rfl

theorem acknowledged_eq_nil {records : List Bytes} {statuses : List Bool}
    (failed : ∀ status ∈ statuses, status = false) : acknowledged records statuses = [] := by
  unfold acknowledged
  rw [List.map_eq_nil_iff, List.filter_eq_nil_iff]
  intro pair member isTrue
  rw [failed pair.2 (List.of_mem_zip member).2] at isTrue
  cases isTrue

theorem Reader.At.acknowledged_sublist_readRest {writer : Writer} {records : List Bytes}
    (sound : writer.Sound records) {tail : Bytes}
    (contents : (writer.logWrites records).2.dest.contents = writer.dest.contents ++ tail)
    {reader : Reader} (position : reader.At tail writer.blockOffset) {turns : Nat}
    (enough : tail.length < turns) (pending : Partial) {calls : Nat}
    (many : records.length ≤ calls + 1) :
    (acknowledged records (writer.logWrites records).1).Sublist
      (reader.readRest turns pending calls) := by
  induction records generalizing writer tail reader turns pending calls with
  | nil => exact List.nil_sublist _
  | cons record rest inductionHypothesis =>
    rcases sound with ⟨whole, restSound⟩ | failed
    · obtain ⟨count, wrote, complete⟩ := Writer.addRecord_wrote whole
      obtain ⟨restBytes, grown⟩ := (writer.addRecord record).2.contents_isPrefix_logWrites rest
      have tailEq : tail = layout writer.blockOffset
          ((fragments record writer.blockOffset).take count) ++ restBytes := by
        rw [wrote.contents, List.append_assoc] at grown
        exact List.append_cancel_left (contents.symm.trans grown.symm)
      subst tailEq
      have fit := fragments_fit record writer.blockOffset
      have carries := fragments_carry record writer.blockOffset
      have statuses : (writer.logWrites (record :: rest)).1 =
          (writer.addRecord record).1 :: ((writer.addRecord record).2.logWrites rest).1 := rfl
      rw [statuses, acknowledged_cons]
      rcases Nat.lt_or_ge count (fragments record writer.blockOffset).length with proper | all
      · have failed : ¬ (writer.addRecord record).1 = true := fun succeeded =>
          Nat.not_lt.mpr (complete succeeded) proper
        obtain ⟨turns', pending', next, loops, left, nextAt⟩ :=
          position.readRecordLoop_carries_take carries proper fit enough
        rw [← wrote.offset] at nextAt
        rw [if_neg failed, Reader.readRest, loops]
        exact inductionHypothesis restSound grown.symm nextAt left pending'
          ((Nat.le_succ _).trans many)
      · rw [List.take_of_length_le all] at position wrote enough
        have turnsEnough : (fragments record writer.blockOffset).length ≤ turns := by
          have bound := length_le_layout writer.blockOffset (fragments record writer.blockOffset)
          rw [List.length_append] at enough
          omega
        obtain ⟨next, returns, nextAt, _⟩ :=
          position.readRecordLoop_carries carries pending fit turnsEnough
        rw [← wrote.offset] at nextAt
        have others : (acknowledged rest ((writer.addRecord record).2.logWrites rest).1).Sublist
            (next.readRecords calls).1 := by
          cases calls with
          | zero =>
            rw [List.eq_nil_of_length_eq_zero (Nat.le_zero.mp (Nat.le_of_succ_le_succ many))]
            exact List.nil_sublist _
          | succ calls =>
            rw [nextAt.readRecords_succ]
            exact inductionHypothesis restSound grown.symm nextAt (Nat.lt_succ_self _) {}
              (Nat.le_of_succ_le_succ many)
        rw [Reader.readRest, returns]
        split
        · exact List.Sublist.cons_cons record others
        · exact List.Sublist.cons record others
    · rw [acknowledged_eq_nil failed]
      exact List.nil_sublist _

/-- As long as no write returns OK once a byte is missing from the file, the record of every
write that returned OK is read back, in order. -/
theorem acknowledged_read_back (records : List Bytes) (outcomes : List (Option Nat))
    (sound : (Writer.new ⟨[], outcomes⟩).Sound records) (calls : Nat) :
    (acknowledged records ((Writer.new ⟨[], outcomes⟩).logWrites records).1).Sublist
      ((Reader.new { remaining :=
        ((Writer.new ⟨[], outcomes⟩).logWrites records).2.dest.contents } true 0).readRecords
          (records.length + calls + 1)).1 := by
  have position := Reader.new_at ((Writer.new ⟨[], outcomes⟩).logWrites records).2.dest.contents true
  rw [position.readRecords_succ]
  exact position.acknowledged_sublist_readRest sound (List.nil_append _).symm (Nat.lt_succ_self _) {}
    (Nat.le_succ_of_le (Nat.le_add_right _ _))

instance decidableWholeLoop : ∀ (turns : Nat) (begins : Bool) (left : Bytes) (writer : Writer),
    Decidable (writer.WholeLoop turns begins left)
  | 0, _, _, _ => isTrue trivial
  | turns + 1, begins, left, writer =>
    have := decidableWholeLoop turns false (left.drop (avail writer.blockOffset))
      (writer.startBlock.emitPhysicalRecord (fragmentType begins false)
        (left.take (avail writer.blockOffset))).2
    inferInstanceAs (Decidable (if left.length ≤ avail writer.blockOffset then _ else _))

instance (writer : Writer) (record : Bytes) : Decidable (writer.Whole record) :=
  inferInstanceAs (Decidable (writer.WholeLoop _ _ _))

instance decidableSound : ∀ (records : List Bytes) (writer : Writer),
    Decidable (writer.Sound records)
  | [], _ => isTrue trivial
  | record :: rest, writer =>
    have := decidableSound rest (writer.addRecord record).2
    inferInstanceAs (Decidable (_ ∨ _))

/-- The log record of a batch that puts one key. -/
def putRecord (sequence key value : UInt8) : Bytes :=
  [sequence, 0, 0, 0, 0, 0, 0, 0, 1, 0, 0, 0, 1, 1, key, 1, value]

/-- The second write fails although its payload is in the file; the third one succeeds. -/
theorem acknowledged_read_back_after_failure :
    (Writer.new ⟨[], [none, none, none, some 17]⟩).Sound
        [putRecord 1 97 98, putRecord 2 97 99, putRecord 3 97 100] ∧
      [putRecord 1 97 98, putRecord 3 97 100].Sublist
        ((Reader.new { remaining := ((Writer.new ⟨[], [none, none, none, some 17]⟩).logWrites
          [putRecord 1 97 98, putRecord 2 97 99, putRecord 3 97 100]).2.dest.contents }
            true 0).readRecords 4).1 := by
  have sound : (Writer.new ⟨[], [none, none, none, some 17]⟩).Sound
      [putRecord 1 97 98, putRecord 2 97 99, putRecord 3 97 100] := by decide +kernel
  exact ⟨sound, acknowledged_read_back _ _ sound 0⟩

/-- The payload of the first write does not reach the file and the write fails. The second one
returns OK, but its record is taken for the payload of the first and dropped. -/
theorem acknowledged_write_lost :
    ((Writer.new ⟨[], [none, some 0]⟩).logWrites [putRecord 1 97 98, putRecord 2 97 99]).1 =
        [false, true] ∧
      let read := (Reader.new { remaining := ((Writer.new ⟨[], [none, some 0]⟩).logWrites
        [putRecord 1 97 98, putRecord 2 97 99]).2.dest.contents } true 0).readRecords 3
      putRecord 2 97 99 ∉ read.1 ∧ read.2.1 = true := by decide +kernel

end LevelDb.Log
