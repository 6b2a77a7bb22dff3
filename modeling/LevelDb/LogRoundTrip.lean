/-
This file proves that the log reader returns what the log writer wrote: all records of any
number of writers that append to one file in turn, and, when the file is cut off at any byte,
exactly the records that are still there completely. Nothing is reported in either case.
-/

import LevelDb.LogReader

namespace LevelDb.Log

/-! ### One record -/

theorem Reader.At.reportPartial {reader : Reader} {stream : Bytes} {offset : Nat}
    (position : reader.At stream offset) (pending : Partial) (message : String) :
    (reader.reportPartial pending message).At stream offset := by
  unfold Reader.reportPartial Reader.reportCorruption Reader.reportDrop
  split
  · split
    · exact ⟨position.stream, position.block, position.reliable, position.initial, position.synced⟩
    · exact position
  · exact position

theorem Reader.reportPartial_of_not_pending {reader : Reader} {pending : Partial}
    (notPending : pending.inFragmentedRecord = false) (message : String) :
    reader.reportPartial pending message = reader := by
  rw [Reader.reportPartial, if_neg]
  rintro ⟨isPending, _⟩
  rw [notPending] at isPending
  cases isPending

section Turn

variable {reader after : Reader} {payload stream : Bytes} {offset : Nat}

theorem Reader.readRecordLoop_full (turns : Nat) (pending : Partial)
    (reads : reader.readPhysicalRecord = (RecordType.kFullType.code, payload, after))
    (afterAt : after.At stream offset) :
    ∃ reader', reader.readRecordLoop (turns + 1) pending = (some payload, reader') ∧
      reader'.At stream offset ∧
        (pending.inFragmentedRecord = false → reader'.reports = after.reports) := by
  have synced : ({ after with resyncing := false } : Reader).At stream offset :=
    ⟨afterAt.stream, afterAt.block, afterAt.reliable, afterAt.initial, rfl⟩
  have reported := synced.reportPartial pending "partial record without end(1)"
  rw [Reader.readRecordLoop, reads]
  simp only [afterAt.synced, Bool.false_eq_true, false_and, if_false, if_true]
  refine ⟨_, rfl, ⟨reported.stream, reported.block, reported.reliable, reported.initial,
    reported.synced⟩, fun notPending => ?_⟩
  rw [Reader.reportPartial_of_not_pending notPending]

theorem Reader.readRecordLoop_first (turns : Nat) (pending : Partial)
    (reads : reader.readPhysicalRecord = (RecordType.kFirstType.code, payload, after))
    (afterAt : after.At stream offset) :
    ∃ pending' reader', reader.readRecordLoop (turns + 1) pending =
        Reader.readRecordLoop turns pending' reader' ∧
      pending'.inFragmentedRecord = true ∧ pending'.scratch = payload ∧
      reader'.At stream offset ∧
        (pending.inFragmentedRecord = false → reader'.reports = after.reports) := by
  have synced : ({ after with resyncing := false } : Reader).At stream offset :=
    ⟨afterAt.stream, afterAt.block, afterAt.reliable, afterAt.initial, rfl⟩
  rw [Reader.readRecordLoop, reads]
  simp only [afterAt.synced, Bool.false_eq_true, false_and, if_false, if_true,
    show RecordType.kFirstType.code ≠ RecordType.kFullType.code by decide]
  refine ⟨_, _, rfl, rfl, rfl, synced.reportPartial pending _, fun notPending => ?_⟩
  rw [Reader.reportPartial_of_not_pending notPending]

theorem Reader.readRecordLoop_middle (turns : Nat) {pending : Partial}
    (isPending : pending.inFragmentedRecord = true)
    (reads : reader.readPhysicalRecord = (RecordType.kMiddleType.code, payload, after))
    (afterAt : after.At stream offset) :
    ∃ reader', reader.readRecordLoop (turns + 1) pending =
        Reader.readRecordLoop turns { pending with scratch := pending.scratch ++ payload } reader' ∧
      reader'.At stream offset ∧ reader'.reports = after.reports := by
  rw [Reader.readRecordLoop, reads]
  simp only [afterAt.synced, Bool.false_eq_true, false_and, if_false, if_true, isPending,
    show RecordType.kMiddleType.code ≠ RecordType.kFullType.code by decide,
    show RecordType.kMiddleType.code ≠ RecordType.kFirstType.code by decide]
  exact ⟨_, rfl, ⟨afterAt.stream, afterAt.block, afterAt.reliable, afterAt.initial, rfl⟩, rfl⟩

theorem Reader.readRecordLoop_last (turns : Nat) {pending : Partial}
    (isPending : pending.inFragmentedRecord = true)
    (reads : reader.readPhysicalRecord = (RecordType.kLastType.code, payload, after))
    (afterAt : after.At stream offset) :
    ∃ reader', reader.readRecordLoop (turns + 1) pending =
        (some (pending.scratch ++ payload), reader') ∧
      reader'.At stream offset ∧ reader'.reports = after.reports := by
  rw [Reader.readRecordLoop, reads]
  simp only [afterAt.synced, Bool.false_eq_true, false_and, if_false, if_true, isPending,
    show RecordType.kLastType.code ≠ RecordType.kFullType.code by decide,
    show RecordType.kLastType.code ≠ RecordType.kFirstType.code by decide,
    show RecordType.kLastType.code ≠ RecordType.kMiddleType.code by decide]
  exact ⟨_, rfl, ⟨afterAt.stream, afterAt.block, afterAt.reliable, afterAt.initial, rfl⟩, rfl⟩

theorem Reader.readRecordLoop_eof (turns : Nat) (pending : Partial)
    (reads : reader.readPhysicalRecord = (kEof, [], after)) :
    ∃ reader', reader.readRecordLoop (turns + 1) pending = (none, reader') ∧
      reader'.reports = after.reports := by
  rw [Reader.readRecordLoop, reads]
  simp only [if_true,
    show kEof ≠ RecordType.kFullType.code by decide,
    show kEof ≠ RecordType.kFirstType.code by decide,
    show kEof ≠ RecordType.kMiddleType.code by decide,
    show kEof ≠ RecordType.kLastType.code by decide, and_false, if_false]
  exact ⟨_, rfl, rfl⟩

end Turn

/-- The fragments after the first one complete the record. -/
theorem Reader.At.readRecordLoop_continues {rest : Bytes} {fragments : List Fragment}
    (continues : Continues rest fragments) {turns : Nat} {pending : Partial} {reader : Reader}
    {tail : Bytes} {offset : Nat} (isPending : pending.inFragmentedRecord = true)
    (fit : Fit offset fragments) (enough : fragments.length ≤ turns)
    (position : reader.At (layout offset fragments ++ tail) offset) :
    ∃ reader', reader.readRecordLoop turns pending = (some (pending.scratch ++ rest), reader') ∧
      reader'.At tail (endOffset offset fragments) ∧ reader'.reports = reader.reports := by
  induction continues generalizing turns pending reader offset with
  | last payload =>
    obtain ⟨turns, rfl⟩ := Nat.exists_eq_add_of_le' enough
    rw [layout, layout, List.append_nil] at position
    obtain ⟨after, reads, afterAt, reports⟩ :=
      position.readPhysicalRecord_fragment fit.1 (fun same => by cases same)
    obtain ⟨last, ends, lastAt, same⟩ := Reader.readRecordLoop_last turns isPending reads afterAt
    exact ⟨last, ends, lastAt, same.trans reports⟩
  | middle payload more inductionHypothesis =>
    obtain ⟨turns, rfl⟩ := Nat.exists_eq_add_of_le' (Nat.succ_le_of_lt (Nat.lt_of_lt_of_le
      (Nat.succ_pos _) enough))
    rw [layout, List.append_assoc] at position
    obtain ⟨after, reads, afterAt, reports⟩ :=
      position.readPhysicalRecord_fragment fit.1 (fun same => by cases same)
    obtain ⟨next, goesOn, nextAt, same⟩ := Reader.readRecordLoop_middle turns isPending reads afterAt
    have stillPending : ({ pending with scratch := pending.scratch ++ payload } :
        Partial).inFragmentedRecord = true := isPending
    obtain ⟨last, ends, lastAt, kept⟩ := inductionHypothesis stillPending fit.2
      (Nat.le_of_succ_le_succ enough) nextAt
    refine ⟨last, ?_, lastAt, kept.trans (same.trans reports)⟩
    rw [goesOn, ends, List.append_assoc]

/-- The fragments of a record return it. Nothing is reported unless an earlier record was left
without its end. -/
theorem Reader.At.readRecordLoop_carries {record : Bytes} {fragments : List Fragment}
    (carries : Carries record fragments) {turns : Nat} (pending : Partial) {reader : Reader}
    {tail : Bytes} {offset : Nat} (fit : Fit offset fragments) (enough : fragments.length ≤ turns)
    (position : reader.At (layout offset fragments ++ tail) offset) :
    ∃ reader', reader.readRecordLoop turns pending = (some record, reader') ∧
      reader'.At tail (endOffset offset fragments) ∧
        (pending.inFragmentedRecord = false → reader'.reports = reader.reports) := by
  cases carries with
  | full =>
    obtain ⟨turns, rfl⟩ := Nat.exists_eq_add_of_le' enough
    rw [layout, layout, List.append_nil] at position
    obtain ⟨after, reads, afterAt, reports⟩ :=
      position.readPhysicalRecord_fragment fit.1 (fun same => by cases same)
    obtain ⟨last, ends, lastAt, same⟩ := Reader.readRecordLoop_full turns pending reads afterAt
    exact ⟨last, ends, lastAt, fun notPending => (same notPending).trans reports⟩
  | first payload continues =>
    obtain ⟨turns, rfl⟩ := Nat.exists_eq_add_of_le' (Nat.succ_le_of_lt (Nat.lt_of_lt_of_le
      (Nat.succ_pos _) enough))
    rw [layout, List.append_assoc] at position
    obtain ⟨after, reads, afterAt, reports⟩ :=
      position.readPhysicalRecord_fragment fit.1 (fun same => by cases same)
    obtain ⟨pending', next, goesOn, isPending, scratch, nextAt, same⟩ :=
      Reader.readRecordLoop_first turns pending reads afterAt
    obtain ⟨last, ends, lastAt, kept⟩ := nextAt.readRecordLoop_continues continues isPending
      fit.2 (Nat.le_of_succ_le_succ enough)
    refine ⟨last, ?_, lastAt, fun notPending => kept.trans ((same notPending).trans reports)⟩
    rw [goesOn, ends, scratch]

/-- A cut falls into the first piece or behind it. -/
theorem take_append_cases (kept : Nat) (head rest : Bytes) :
    (kept < head.length ∧ (head ++ rest).take kept = head.take kept) ∨
      (head.length ≤ kept ∧ (head ++ rest).take kept = head ++ rest.take (kept - head.length)) := by
  rcases Nat.lt_or_ge kept head.length with inside | behind
  · exact Or.inl ⟨inside, List.take_append_of_le_length inside.le⟩
  · refine Or.inr ⟨behind, ?_⟩
    rw [List.take_append, List.take_of_length_le behind]

theorem length_pos_of_fragment (offset : Nat) (fragment : Fragment) {kept : Nat}
    (behind : (trailer offset ++ fragment.bytes).length ≤ kept) :
    kept - (trailer offset ++ fragment.bytes).length < kept := by
  have positive : 0 < kHeaderSize := by decide
  rw [List.length_append, Fragment.length_bytes] at behind ⊢
  omega

/-- Fragments after the first one that are cut off by the end of the file end the input. -/
theorem Reader.At.readRecordLoop_continues_cut {rest : Bytes} {fragments : List Fragment}
    (continues : Continues rest fragments) {turns kept : Nat} {pending : Partial}
    {reader : Reader} {offset : Nat} (isPending : pending.inFragmentedRecord = true)
    (fit : Fit offset fragments) (enough : kept < turns)
    (cut : kept < (layout offset fragments).length)
    (position : reader.At ((layout offset fragments).take kept) offset) :
    ∃ reader', reader.readRecordLoop turns pending = (none, reader') ∧
      reader'.reports = reader.reports := by
  induction continues generalizing turns pending reader offset kept with
  | last payload =>
    obtain ⟨turns, rfl⟩ := Nat.exists_eq_add_of_le' (Nat.succ_le_of_lt (Nat.zero_lt_of_lt enough))
    rw [layout, layout, List.append_nil] at position cut
    obtain ⟨after, reads, reports⟩ := position.readPhysicalRecord_cut cut fit.1
    obtain ⟨last, ends, same⟩ := Reader.readRecordLoop_eof turns pending reads
    exact ⟨last, ends, same.trans reports⟩
  | middle payload more inductionHypothesis =>
    obtain ⟨turns, rfl⟩ := Nat.exists_eq_add_of_le' (Nat.succ_le_of_lt (Nat.zero_lt_of_lt enough))
    rw [layout] at position cut
    rcases take_append_cases kept _ _ with ⟨inside, isCut⟩ | ⟨behind, isCut⟩
    · rw [isCut] at position
      obtain ⟨after, reads, reports⟩ := position.readPhysicalRecord_cut inside fit.1
      obtain ⟨last, ends, same⟩ := Reader.readRecordLoop_eof turns pending reads
      exact ⟨last, ends, same.trans reports⟩
    · rw [isCut] at position
      rw [List.length_append] at cut
      have size := length_pos_of_fragment offset _ behind
      obtain ⟨after, reads, afterAt, reports⟩ :=
        position.readPhysicalRecord_fragment fit.1 (fun same => by cases same)
      obtain ⟨next, goesOn, nextAt, same⟩ :=
        Reader.readRecordLoop_middle turns isPending reads afterAt
      have stillPending : ({ pending with scratch := pending.scratch ++ payload } :
          Partial).inFragmentedRecord = true := isPending
      obtain ⟨last, ends, reported⟩ := inductionHypothesis stillPending fit.2
        (size.trans_le (Nat.le_of_lt_succ enough)) (by omega) nextAt
      exact ⟨last, goesOn.trans ends, reported.trans (same.trans reports)⟩

/-- A record that is cut off by the end of the file ends the input, and nothing is reported. -/
theorem Reader.At.readRecordLoop_carries_cut {record : Bytes} {fragments : List Fragment}
    (carries : Carries record fragments) {turns kept : Nat} {pending : Partial} {reader : Reader}
    {offset : Nat} (notPending : pending.inFragmentedRecord = false) (fit : Fit offset fragments)
    (enough : kept < turns) (cut : kept < (layout offset fragments).length)
    (position : reader.At ((layout offset fragments).take kept) offset) :
    ∃ reader', reader.readRecordLoop turns pending = (none, reader') ∧
      reader'.reports = reader.reports := by
  cases carries with
  | full =>
    obtain ⟨turns, rfl⟩ := Nat.exists_eq_add_of_le' (Nat.succ_le_of_lt (Nat.zero_lt_of_lt enough))
    rw [layout, layout, List.append_nil] at position cut
    obtain ⟨after, reads, reports⟩ := position.readPhysicalRecord_cut cut fit.1
    obtain ⟨last, ends, same⟩ := Reader.readRecordLoop_eof turns pending reads
    exact ⟨last, ends, same.trans reports⟩
  | first payload continues =>
    obtain ⟨turns, rfl⟩ := Nat.exists_eq_add_of_le' (Nat.succ_le_of_lt (Nat.zero_lt_of_lt enough))
    rw [layout] at position cut
    rcases take_append_cases kept _ _ with ⟨inside, isCut⟩ | ⟨behind, isCut⟩
    · rw [isCut] at position
      obtain ⟨after, reads, reports⟩ := position.readPhysicalRecord_cut inside fit.1
      obtain ⟨last, ends, same⟩ := Reader.readRecordLoop_eof turns pending reads
      exact ⟨last, ends, same.trans reports⟩
    · rw [isCut] at position
      rw [List.length_append] at cut
      have size := length_pos_of_fragment offset _ behind
      obtain ⟨after, reads, afterAt, reports⟩ :=
        position.readPhysicalRecord_fragment fit.1 (fun same => by cases same)
      obtain ⟨pending', next, goesOn, isPending, _, nextAt, same⟩ :=
        Reader.readRecordLoop_first turns pending reads afterAt
      obtain ⟨last, ends, reported⟩ := nextAt.readRecordLoop_continues_cut continues isPending
        fit.2 (size.trans_le (Nat.le_of_lt_succ enough)) (by omega)
      exact ⟨last, goesOn.trans ends, reported.trans ((same notPending).trans reports)⟩

/-! ### `ReadRecord` -/

theorem length_le_layout (offset : Nat) (fragments : List Fragment) :
    fragments.length ≤ (layout offset fragments).length := by
  induction fragments generalizing offset with
  | nil => exact le_rfl
  | cons fragment rest inductionHypothesis =>
    have positive : 0 < kHeaderSize := by decide
    have next := inductionHypothesis (fragment.endOffset offset)
    rw [layout, List.length_append, List.length_append, Fragment.length_bytes, List.length_cons]
    omega

theorem Reader.At.readRecord_eq {reader : Reader} {stream : Bytes} {offset : Nat}
    (position : reader.At stream offset) :
    reader.readRecord = reader.readRecordLoop (stream.length + 1) {} := by
  have notBelow : ¬ reader.lastRecordOffset < reader.initialOffset := by
    rw [position.initial]
    exact Nat.not_lt_zero _
  rw [Reader.readRecord, if_neg notBelow, if_pos rfl, ← List.length_append, position.stream]

/-- `ReadRecord` returns the record laid out at its position. -/
theorem Reader.At.readRecord_carries {reader : Reader} {record tail : Bytes}
    {fragments : List Fragment} {offset : Nat}
    (position : reader.At (layout offset fragments ++ tail) offset)
    (carries : Carries record fragments) (fit : Fit offset fragments) :
    ∃ reader', reader.readRecord = (some record, reader') ∧
      reader'.At tail (endOffset offset fragments) ∧ reader'.reports = reader.reports := by
  have enough : fragments.length ≤ (layout offset fragments ++ tail).length + 1 := by
    have bound := length_le_layout offset fragments
    rw [List.length_append]
    omega
  obtain ⟨next, returns, nextAt, reports⟩ :=
    position.readRecordLoop_carries carries {} fit enough
  exact ⟨next, position.readRecord_eq.trans returns, nextAt, reports rfl⟩

/-- `ReadRecord` reports the end of the input at a record that is cut off. -/
theorem Reader.At.readRecord_cut {reader : Reader} {record : Bytes} {fragments : List Fragment}
    {offset kept : Nat} (position : reader.At ((layout offset fragments).take kept) offset)
    (carries : Carries record fragments) (fit : Fit offset fragments)
    (cut : kept < (layout offset fragments).length) :
    ∃ reader', reader.readRecord = (none, reader') ∧ reader'.reports = reader.reports := by
  have length : ((layout offset fragments).take kept).length = kept :=
    List.length_take_of_le cut.le
  have reads := position.readRecord_eq
  rw [length] at reads
  have notPending : ({} : Partial).inFragmentedRecord = false := rfl
  obtain ⟨next, ends, reports⟩ := position.readRecordLoop_carries_cut carries notPending fit
    (Nat.lt_succ_self kept) cut
  exact ⟨next, reads.trans ends, reports⟩

/-- `ReadRecord` reports the end of the input when nothing is left. -/
theorem Reader.At.readRecord_nil {reader : Reader} {offset : Nat} (position : reader.At [] offset) :
    ∃ reader', reader.readRecord = (none, reader') ∧ reader'.reports = reader.reports := by
  rcases position.readPhysicalRecord_cases with ⟨_, after, reads, reports⟩ | ⟨long, _⟩
  · obtain ⟨last, ends, same⟩ := Reader.readRecordLoop_eof 0 {} reads
    exact ⟨last, position.readRecord_eq.trans ends, same.trans reports⟩
  · rw [List.drop_nil, List.length_nil] at long
    exact absurd long (by decide)

/-! ### Lists of records -/

/-- The fragments of records written one after the other. -/
def recordFragments : Nat → List Bytes → List Fragment
  | _, [] => []
  | offset, record :: rest =>
    fragments record offset ++ recordFragments (endOffset offset (fragments record offset)) rest

theorem recordFragments_append (offset : Nat) (first second : List Bytes) :
    recordFragments offset (first ++ second) = recordFragments offset first ++
      recordFragments (endOffset offset (recordFragments offset first)) second := by
  induction first generalizing offset with
  | nil => rfl
  | cons record rest inductionHypothesis =>
    rw [List.cons_append, recordFragments, recordFragments, inductionHypothesis,
      List.append_assoc, endOffset, endOffset, endOffset, List.foldl_append]

/-- The first calls of `ReadRecord` return the records laid out at the position. -/
theorem Reader.At.readRecords_laid {reader : Reader} {records : List Bytes} {tail : Bytes}
    {offset : Nat} (position : reader.At (layout offset (recordFragments offset records) ++ tail)
      offset) (calls : Nat) :
    ∃ reader' : Reader, reader.readRecords (records.length + calls) =
        (records ++ (reader'.readRecords calls).1, (reader'.readRecords calls).2) ∧
      reader'.At tail (endOffset offset (recordFragments offset records)) ∧
        reader'.reports = reader.reports := by
  induction records generalizing reader offset with
  | nil =>
    refine ⟨reader, ?_, position, rfl⟩
    rw [List.length_nil, Nat.zero_add, List.nil_append]
  | cons record rest inductionHypothesis =>
    rw [recordFragments, layout_append, List.append_assoc] at position
    obtain ⟨next, returns, nextAt, reports⟩ :=
      position.readRecord_carries (fragments_carry record offset) (fragments_fit record offset)
    obtain ⟨last, restReads, lastAt, same⟩ := inductionHypothesis nextAt
    refine ⟨last, ?_, ?_, same.trans reports⟩
    · rw [List.length_cons, Nat.succ_add, Reader.readRecords, returns]
      simp only [restReads, List.cons_append]
    · rw [recordFragments, endOffset, List.foldl_append]
      exact lastAt

/-- At the end of the input `ReadRecord` is called once more. -/
theorem Reader.readRecords_succ_of_none {reader reader' : Reader}
    (ends : reader.readRecord = (none, reader')) (calls : Nat) :
    reader.readRecords (calls + 1) = ([], true, reader') := by
  rw [Reader.readRecords, ends]

/-! ### What writers leave behind -/

/-- Several calls of `AddRecord`: whether all succeeded, and the writer after them. -/
def Writer.addRecords (writer : Writer) : List Bytes → Bool × Writer
  | [] => (true, writer)
  | record :: rest =>
    let added := writer.addRecord record
    let others := added.2.addRecords rest
    (added.1 && others.1, others.2)

/-- Several writers in turn, each opened with the length of the file so far: whether all
records were added, and the file after them. -/
def writeSessions (file : WritableFile) : List (List Bytes) → Bool × WritableFile
  | [] => (true, file)
  | session :: rest =>
    let written := (Writer.resume file file.contents.length).addRecords session
    let others := writeSessions written.2.dest rest
    (written.1 && others.1, others.2)

theorem Writer.addRecords_of_outcomes {writer : Writer} (reliable : writer.dest.outcomes = [])
    (records : List Bytes) :
    (writer.addRecords records).1 = true ∧ (writer.addRecords records).2.dest.outcomes = [] ∧
      writer.Wrote (recordFragments writer.blockOffset records) (writer.addRecords records).2 := by
  induction records generalizing writer with
  | nil => exact ⟨rfl, reliable, (List.append_nil _).symm, rfl⟩
  | cons record rest inductionHypothesis =>
    obtain ⟨succeeded, stillReliable, wrote⟩ := Writer.addRecord_of_outcomes reliable record
    obtain ⟨restSucceeded, restReliable, restWrote⟩ := inductionHypothesis stillReliable
    refine ⟨?_, restReliable, ?_⟩
    · rw [Writer.addRecords, succeeded, restSucceeded]
      rfl
    · rw [recordFragments, ← wrote.offset]
      exact wrote.append restWrote

/-- The start of a block can be told as its offset 0 or as the end of the block before. -/
theorem blockStart_mod {offset : Nat} (bound : offset ≤ kBlockSize) :
    blockStart (offset % kBlockSize) = blockStart offset ∧
      trailer (offset % kBlockSize) = trailer offset := by
  rcases Nat.lt_or_eq_of_le bound with below | rfl
  · rw [Nat.mod_eq_of_lt below]
    exact ⟨rfl, rfl⟩
  · rw [Nat.mod_self]
    exact ⟨by decide, by decide⟩

/-- What is written from an offset in the block depends on where the next fragment starts
only. -/
theorem recordFragments_congr {offset other : Nat} (start : blockStart offset = blockStart other)
    (records : List Bytes) : recordFragments offset records = recordFragments other records := by
  have endSame : Fragment.endOffset offset = Fragment.endOffset other := by
    funext fragment
    rw [Fragment.endOffset, Fragment.endOffset, start]
  have room : avail offset = avail other := by
    rw [avail, avail, start]
  have one : ∀ turns begins left,
      fragmentsLoop turns begins left offset = fragmentsLoop turns begins left other := by
    intro turns begins left
    cases turns with
    | zero => rfl
    | succ turns => rw [fragmentsLoop, fragmentsLoop, room, endSame]
  cases records with
  | nil => rfl
  | cons record rest =>
    have same : fragments record offset = fragments record other := one _ _ _
    have carried := fragments_carry record other
    have ends : endOffset offset (fragments record other) =
        endOffset other (fragments record other) := by
      generalize fragments record other = carrier at carried
      cases carried with
      | full => exact congrFun endSame _
      | first payload more =>
        rw [endOffset, endOffset, List.foldl_cons, List.foldl_cons, endSame]
    rw [recordFragments, recordFragments, same, ends]

theorem layout_congr {offset other : Nat} (start : blockStart offset = blockStart other)
    (zeros : trailer offset = trailer other) (fragments : List Fragment) :
    layout offset fragments = layout other fragments := by
  cases fragments with
  | nil => rfl
  | cons fragment rest =>
    rw [layout, layout, zeros, Fragment.endOffset, Fragment.endOffset, start]

theorem recordFragments_fit (offset : Nat) (records : List Bytes) :
    Fit offset (recordFragments offset records) := by
  induction records generalizing offset with
  | nil => trivial
  | cons record rest inductionHypothesis =>
    exact fit_append.mpr ⟨fragments_fit record offset, inductionHypothesis _⟩

theorem endOffset_le {offset : Nat} (bound : offset ≤ kBlockSize) {fragments : List Fragment}
    (fit : Fit offset fragments) : endOffset offset fragments ≤ kBlockSize := by
  induction fragments generalizing offset with
  | nil => exact bound
  | cons fragment rest inductionHypothesis => exact inductionHypothesis fit.1 fit.2

/-- The offset after fragments agrees with the length of the file. -/
theorem length_layout_mod {offset : Nat} (bound : offset ≤ kBlockSize)
    {fragments : List Fragment} (fit : Fit offset fragments) :
    (offset + (layout offset fragments).length) % kBlockSize =
      endOffset offset fragments % kBlockSize := by
  induction fragments generalizing offset with
  | nil => rfl
  | cons fragment rest inductionHypothesis =>
    have next := inductionHypothesis fit.1 fit.2
    have start : (offset + (trailer offset).length) % kBlockSize =
        blockStart offset % kBlockSize := by
      rw [length_trailer, blockStart]
      split
      · rw [Nat.add_sub_cancel' bound, Nat.mod_self, Nat.zero_mod]
      · rfl
    have sum : offset + (layout offset (fragment :: rest)).length =
        (offset + (trailer offset).length) + (kHeaderSize + fragment.payload.length +
          (layout (fragment.endOffset offset) rest).length) := by
      rw [layout, List.length_append, List.length_append, Fragment.length_bytes]
      omega
    rw [sum, Nat.add_mod, start, ← Nat.add_mod, ← Nat.add_assoc, ← Nat.add_assoc]
    exact next

/-- The file after any number of writers holds the records as one writer would lay them out. -/
theorem writeSessions_contents (sessions : List (List Bytes)) (before : List Bytes)
    {file : WritableFile} (reliable : file.outcomes = [])
    (contents : file.contents = layout 0 (recordFragments 0 before)) :
    (writeSessions file sessions).1 = true ∧
      (writeSessions file sessions).2.contents =
        layout 0 (recordFragments 0 (before ++ sessions.flatten)) := by
  induction sessions generalizing before file with
  | nil =>
    rw [List.flatten_nil, List.append_nil]
    exact ⟨rfl, contents⟩
  | cons session rest inductionHypothesis =>
    set writer := Writer.resume file file.contents.length with isWriter
    obtain ⟨succeeded, stillReliable, wrote⟩ :=
      Writer.addRecords_of_outcomes (show writer.dest.outcomes = [] from reliable) session
    have fit := recordFragments_fit 0 before
    have bound := endOffset_le (Nat.zero_le kBlockSize) fit
    have offset : writer.blockOffset =
        endOffset 0 (recordFragments 0 before) % kBlockSize := by
      rw [← length_layout_mod (Nat.zero_le _) fit, Nat.zero_add, ← contents]
      rfl
    obtain ⟨start, zeros⟩ := blockStart_mod bound
    rw [← offset] at start zeros
    have laid : (writer.addRecords session).2.dest.contents =
        layout 0 (recordFragments 0 (before ++ session)) := by
      rw [wrote.contents, recordFragments_congr start, layout_congr start zeros,
        recordFragments_append, layout_append]
      exact congrArg (· ++ _) contents
    obtain ⟨restSucceeded, restContents⟩ := inductionHypothesis (before ++ session) stillReliable laid
    rw [List.flatten_cons, ← List.append_assoc]
    refine ⟨?_, restContents⟩
    rw [writeSessions, ← isWriter, succeeded, restSucceeded]
    rfl

theorem Reader.new_at (contents : Bytes) (checksum : Bool) :
    (Reader.new { remaining := contents } checksum 0).At contents 0 :=
  ⟨rfl, Or.inl ⟨rfl, Or.inr ⟨rfl, rfl⟩⟩, rfl, rfl, rfl⟩

/-- The records of any number of writers that append to one file in turn are read back in order,
then the end of the input is reported, and nothing is dropped. -/
theorem readRecords_writeSessions (sessions : List (List Bytes)) (checksum : Bool) (calls : Nat) :
    (writeSessions ⟨[], []⟩ sessions).1 = true ∧
      ∃ reader : Reader,
        (Reader.new { remaining := (writeSessions ⟨[], []⟩ sessions).2.contents } checksum 0).readRecords
            (sessions.flatten.length + 1 + calls) = (sessions.flatten, true, reader) ∧
          reader.reports = [] := by
  obtain ⟨succeeded, contents⟩ := writeSessions_contents sessions []
    (show (⟨[], []⟩ : WritableFile).outcomes = [] from rfl) rfl
  refine ⟨succeeded, ?_⟩
  rw [List.nil_append] at contents
  have position := Reader.new_at (writeSessions ⟨[], []⟩ sessions).2.contents checksum
  rw [contents] at position ⊢
  rw [← List.append_nil (layout 0 (recordFragments 0 sessions.flatten))] at position
  obtain ⟨next, reads, nextAt, reports⟩ := position.readRecords_laid (1 + calls)
  obtain ⟨last, ends, same⟩ := nextAt.readRecord_nil
  refine ⟨last, ?_, same.trans reports⟩
  rw [Nat.add_comm 1 calls, Reader.readRecords_succ_of_none ends, List.append_nil] at reads
  rw [List.append_nil] at reads
  rw [Nat.add_assoc, Nat.add_comm 1 calls]
  exact reads

/-! ### A file cut off at any byte -/

/-- Of records laid out at the position and cut off after `kept` bytes, those that end within
them are read back. -/
theorem Reader.At.readRecords_cut {reader : Reader} {records : List Bytes} {offset kept : Nat}
    (position : reader.At ((layout offset (recordFragments offset records)).take kept) offset)
    (calls : Nat) :
    ∃ count ≤ records.length,
      (∀ index < records.length, index < count ↔
        (layout offset (recordFragments offset (records.take (index + 1)))).length ≤ kept) ∧
      ∃ reader', reader.readRecords (records.length + 1 + calls) =
          (records.take count, true, reader') ∧ reader'.reports = reader.reports := by
  induction records generalizing reader offset kept with
  | nil =>
    rw [recordFragments, layout, List.take_nil] at position
    obtain ⟨last, ends, reports⟩ := position.readRecord_nil
    refine ⟨0, le_rfl, fun index bound => absurd bound (Nat.not_lt_zero _), last, ?_, reports⟩
    rw [List.length_nil, Nat.zero_add, Nat.add_comm, Reader.readRecords_succ_of_none ends]
    rfl
  | cons record rest inductionHypothesis =>
    have lengths : ∀ others : List Bytes,
        (layout offset (recordFragments offset (record :: others))).length =
          (layout offset (fragments record offset)).length +
            (layout (endOffset offset (fragments record offset))
              (recordFragments (endOffset offset (fragments record offset)) others)).length := by
      intro others
      rw [recordFragments, layout_append, List.length_append]
    rw [recordFragments, layout_append] at position
    rcases take_append_cases kept _ _ with ⟨inside, isCut⟩ | ⟨behind, isCut⟩
    · rw [isCut] at position
      obtain ⟨last, ends, reports⟩ := position.readRecord_cut (fragments_carry record offset)
        (fragments_fit record offset) inside
      refine ⟨0, Nat.zero_le _, fun index _ => ?_, last, ?_, reports⟩
      · rw [List.take_succ_cons, lengths]
        exact ⟨fun below => absurd below (Nat.not_lt_zero _), fun within => by omega⟩
      · rw [Nat.add_right_comm, Reader.readRecords_succ_of_none ends]
        rfl
    · rw [isCut] at position
      obtain ⟨next, returns, nextAt, reports⟩ := position.readRecord_carries
        (fragments_carry record offset) (fragments_fit record offset)
      obtain ⟨count, bound, complete, last, restReads, same⟩ := inductionHypothesis nextAt
      refine ⟨count + 1, Nat.succ_le_succ bound, fun index below => ?_, last, ?_,
        same.trans reports⟩
      · rw [List.take_succ_cons, lengths]
        cases index with
        | zero =>
          rw [List.take_zero, recordFragments, layout, List.length_nil, Nat.add_zero]
          exact ⟨fun _ => behind, fun _ => Nat.succ_pos _⟩
        | succ index =>
          have within := complete index (Nat.lt_of_succ_lt_succ below)
          rw [Nat.succ_lt_succ_iff, within]
          omega
      · have calls' : (record :: rest).length + 1 + calls = rest.length + 1 + calls + 1 := by
          rw [List.length_cons]
          omega
        rw [calls', Reader.readRecords, returns]
        simp only [restReads, List.take_succ_cons]

/-- The file one writer leaves behind. -/
def written (records : List Bytes) : Bytes :=
  ((Writer.new ⟨[], []⟩).addRecords records).2.dest.contents

theorem written_eq (records : List Bytes) : written records = layout 0 (recordFragments 0 records) := by
  obtain ⟨_, _, wrote⟩ := Writer.addRecords_of_outcomes
    (show (Writer.new ⟨[], []⟩).dest.outcomes = [] from rfl) records
  exact wrote.contents

/-- From a log cut off after any number of bytes exactly the records that end within them are
read back in order, then the end of the input is reported, and nothing is dropped. -/
theorem readRecords_take_written (records : List Bytes) (checksum : Bool) (kept calls : Nat) :
    ∃ count ≤ records.length,
      (∀ index < records.length,
        index < count ↔ (written (records.take (index + 1))).length ≤ kept) ∧
      ∃ reader : Reader,
        (Reader.new { remaining := (written records).take kept } checksum 0).readRecords
            (records.length + 1 + calls) = (records.take count, true, reader) ∧
          reader.reports = [] := by
  have position := Reader.new_at ((written records).take kept) checksum
  rw [written_eq] at position ⊢
  obtain ⟨count, bound, complete, last, reads, reports⟩ := position.readRecords_cut calls
  refine ⟨count, bound, fun index below => ?_, last, reads, reports⟩
  rw [complete index below, written_eq]

end LevelDb.Log
