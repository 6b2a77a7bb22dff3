/-
This file models the log reader (`db/log_reader`). The reader fetches one block at a time; a
short block is the last one. It checks the checksum of every physical record, joins the
fragments of a record, and reports what it has to drop.

The position of a reader is described by the bytes it has not consumed and their offset in the
block. From this description follows what it returns for fragments laid out there, whole or
cut off by the end of the file.
-/

import LevelDb.LogWriter

namespace LevelDb.Log

/-! ### The reader -/

/-- `SequentialFile`: the bytes not read yet, the number of reads before one fails, and
whether skipping past the end fails. -/
structure SequentialFile where
  remaining : Bytes
  readsUntilError : Option Nat := none
  skipPastEndFails : Bool := true

/-- `SequentialFile::Read`: the bytes read, or `none` when the read fails. -/
def SequentialFile.read (file : SequentialFile) (n : Nat) : Option Bytes × SequentialFile :=
  match file.readsUntilError with
  | some 0 => (none, file)
  | some (reads + 1) =>
    (some (file.remaining.take n),
      { file with remaining := file.remaining.drop n, readsUntilError := some reads })
  | none => (some (file.remaining.take n), { file with remaining := file.remaining.drop n })

/-- `SequentialFile::Skip`; `none` when it fails. -/
def SequentialFile.skip (file : SequentialFile) (n : Nat) : Option SequentialFile :=
  if file.remaining.length < n ∧ file.skipPastEndFails then none
  else some { file with remaining := file.remaining.drop n }

/-- Why the reader drops bytes. -/
inductive DropReason
  | corruption (message : String)
  | readError
  | skipError
  deriving DecidableEq, Repr

/-- `Reader` with what it has told its reporter. -/
structure Reader where
  file : SequentialFile
  checksum : Bool
  buffer : Bytes := []
  eof : Bool := false
  lastRecordOffset : Nat := 0
  endOfBufferOffset : Nat := 0
  initialOffset : Nat
  resyncing : Bool
  reports : List (Nat × DropReason) := []

/-- The constructor of `Reader`. -/
def Reader.new (file : SequentialFile) (checksum : Bool) (initialOffset : Nat) : Reader :=
  { file, checksum, initialOffset, resyncing := 0 < initialOffset }

/-- Subtraction of unsigned 64-bit numbers. -/
def sub64 (first second : Nat) : Nat := (first + (2 ^ 64 - second % 2 ^ 64)) % 2 ^ 64

/-- `Reader::ReportDrop`. -/
def Reader.reportDrop (reader : Reader) (bytes : Nat) (reason : DropReason) : Reader :=
  if reader.initialOffset ≤
      sub64 (sub64 reader.endOfBufferOffset reader.buffer.length) bytes then
    { reader with reports := reader.reports ++ [(bytes, reason)] }
  else reader

/-- `Reader::ReportCorruption`. -/
def Reader.reportCorruption (reader : Reader) (bytes : Nat) (message : String) : Reader :=
  reader.reportDrop bytes (.corruption message)

/-- The values that extend the record types. -/
def kEof : Nat := kMaxRecordType + 1

def kBadRecord : Nat := kMaxRecordType + 2

/-- The type byte of a header as an `unsigned int`: a `char` is signed. -/
def typeOfByte (byte : UInt8) : Nat := if byte.toNat < 128 then byte.toNat else 2 ^ 32 - 256 + byte.toNat

/-- The part of `Reader::ReadPhysicalRecord` after the buffer holds a header: the type or a
special value, the fragment, and the reader after it. -/
def Reader.parsePhysicalRecord (reader : Reader) : Nat × Bytes × Reader :=
  let a := (reader.buffer.getD 4 0).toNat
  let b := (reader.buffer.getD 5 0).toNat
  let type := typeOfByte (reader.buffer.getD 6 0)
  let length := a ||| (b <<< 8)
  let dropSize := reader.buffer.length
  if reader.buffer.length < kHeaderSize + length then
    let reader := { reader with buffer := [] }
    if reader.eof then (kEof, [], reader)
    else (kBadRecord, [], reader.reportCorruption dropSize "bad record length")
  else if type = RecordType.kZeroType.code ∧ length = 0 then
    (kBadRecord, [], { reader with buffer := [] })
  else if reader.checksum ∧ Crc32c.value 0 ((reader.buffer.drop 6).take (1 + length)) ≠
      Crc32c.unmask (BitVec.ofNat 32 (decodeFixed32 reader.buffer)) then
    (kBadRecord, [],
      { reader with buffer := [] }.reportCorruption dropSize "checksum mismatch")
  else
    let fragment := (reader.buffer.drop kHeaderSize).take length
    let reader := { reader with buffer := reader.buffer.drop (kHeaderSize + length) }
    if sub64 (sub64 (sub64 reader.endOfBufferOffset reader.buffer.length) kHeaderSize) length <
        reader.initialOffset then
      (kBadRecord, [], reader)
    else (type, fragment, reader)

/-- `Reader::ReadPhysicalRecord`. A block that was just read and has no header is short, so the
second turn of the loop ends in the branch for the end of the file. -/
def Reader.readPhysicalRecord (reader : Reader) : Nat × Bytes × Reader :=
  if reader.buffer.length < kHeaderSize then
    if reader.eof then (kEof, [], { reader with buffer := [] })
    else
      match reader.file.read kBlockSize with
      | (none, file) =>
        (kEof, [], { reader with file, buffer := [], eof := true }.reportDrop kBlockSize .readError)
      | (some data, file) =>
        let reader := { reader with
          file
          buffer := data
          endOfBufferOffset := reader.endOfBufferOffset + data.length
          eof := data.length < kBlockSize }
        if data.length < kHeaderSize then (kEof, [], { reader with buffer := [] })
        else reader.parsePhysicalRecord
  else reader.parsePhysicalRecord

/-- `Reader::SkipToInitialBlock`: whether it succeeded, and the reader after it. The location of the
block is a number of 64 bits. -/
def Reader.skipToInitialBlock (reader : Reader) : Bool × Reader :=
  let offsetInBlock := reader.initialOffset % kBlockSize
  let blockStartLocation := (reader.initialOffset - offsetInBlock +
    if kBlockSize - 6 < offsetInBlock then kBlockSize else 0) % 2 ^ 64
  let reader := { reader with endOfBufferOffset := blockStartLocation }
  if 0 < blockStartLocation then
    match reader.file.skip blockStartLocation with
    | none => (false, reader.reportDrop blockStartLocation .skipError)
    | some file => (true, { reader with file })
  else (true, reader)

/-- What `Reader::ReadRecord` remembers between physical records. -/
structure Partial where
  inFragmentedRecord : Bool := false
  prospectiveRecordOffset : Nat := 0
  scratch : Bytes := []

/-- The report about a record whose end is missing when another one begins. -/
def Reader.reportPartial (reader : Reader) (pending : Partial) (message : String) : Reader :=
  if pending.inFragmentedRecord ∧ pending.scratch ≠ [] then
    reader.reportCorruption pending.scratch.length message
  else reader

/-- The loop of `Reader::ReadRecord`. Every turn but the last consumes bytes of the file, so one
turn more than there are bytes is enough. -/
def Reader.readRecordLoop : Nat → Partial → Reader → Option Bytes × Reader
  | 0, _, reader => (none, reader)
  | turns + 1, pending, reader =>
    let (recordType, fragment, reader) := reader.readPhysicalRecord
    let physicalRecordOffset :=
      sub64 (sub64 (sub64 reader.endOfBufferOffset reader.buffer.length) kHeaderSize) fragment.length
    if reader.resyncing ∧ recordType = RecordType.kMiddleType.code then
      Reader.readRecordLoop turns pending reader
    else if reader.resyncing ∧ recordType = RecordType.kLastType.code then
      Reader.readRecordLoop turns pending { reader with resyncing := false }
    else
      let reader := { reader with resyncing := false }
      if recordType = RecordType.kFullType.code then
        let reader := reader.reportPartial pending "partial record without end(1)"
        (some fragment, { reader with lastRecordOffset := physicalRecordOffset })
      else if recordType = RecordType.kFirstType.code then
        let reader := reader.reportPartial pending "partial record without end(2)"
        Reader.readRecordLoop turns ⟨true, physicalRecordOffset, fragment⟩ reader
      else if recordType = RecordType.kMiddleType.code then
        if pending.inFragmentedRecord then
          Reader.readRecordLoop turns
            { pending with scratch := pending.scratch ++ fragment } reader
        else
          Reader.readRecordLoop turns pending
            (reader.reportCorruption fragment.length "missing start of fragmented record(1)")
      else if recordType = RecordType.kLastType.code then
        if pending.inFragmentedRecord then
          (some (pending.scratch ++ fragment),
            { reader with lastRecordOffset := pending.prospectiveRecordOffset })
        else
          Reader.readRecordLoop turns pending
            (reader.reportCorruption fragment.length "missing start of fragmented record(2)")
      else if recordType = kEof then (none, reader)
      else if recordType = kBadRecord then
        if pending.inFragmentedRecord then
          Reader.readRecordLoop turns { pending with inFragmentedRecord := false, scratch := [] }
            (reader.reportCorruption pending.scratch.length "error in middle of record")
        else Reader.readRecordLoop turns pending reader
      else
        Reader.readRecordLoop turns { pending with inFragmentedRecord := false, scratch := [] }
          (reader.reportCorruption
            (fragment.length + if pending.inFragmentedRecord then pending.scratch.length else 0)
            ("unknown record type " ++ toString recordType))

/-- `Reader::ReadRecord`: the record, or `none` at the end of the input. -/
def Reader.readRecord (reader : Reader) : Option Bytes × Reader :=
  let skipped :=
    if reader.lastRecordOffset < reader.initialOffset then reader.skipToInitialBlock
    else (true, reader)
  if skipped.1 then
    skipped.2.readRecordLoop (skipped.2.buffer.length + skipped.2.file.remaining.length + 1) {}
  else (none, skipped.2)

/-- The records of the first calls of `ReadRecord`, whether the end of the input was reported
within them, and the reader after them. -/
def Reader.readRecords : Nat → Reader → List Bytes × Bool × Reader
  | 0, reader => ([], false, reader)
  | calls + 1, reader =>
    match reader.readRecord with
    | (none, reader) => ([], true, reader)
    | (some record, reader) =>
      let rest := Reader.readRecords calls reader
      (record :: rest.1, rest.2)

/-! ### Reading a fragment -/

theorem header_getD (type : RecordType) (payload rest : Bytes) :
    (header type payload ++ rest).getD 4 0 = UInt8.ofNat (payload.length &&& 0xff) ∧
      (header type payload ++ rest).getD 5 0 = UInt8.ofNat (payload.length >>> 8) ∧
        (header type payload ++ rest).getD 6 0 = UInt8.ofNat type.code := by
  simp [header, List.getD_eq_getElem?_getD, List.getElem?_append]

/-- The length bytes of a header hold the length of the payload. -/
theorem length_of_bytes {length : Nat} (fits : length < 2 ^ 16) :
    (UInt8.ofNat (length &&& 0xff)).toNat ||| ((UInt8.ofNat (length >>> 8)).toNat <<< 8) =
      length := by
  have low : (UInt8.ofNat (length &&& 0xff)).toNat = length % 2 ^ 8 := by
    rw [UInt8.toNat_ofNat', show length &&& 0xff = length % 2 ^ 8 from
      Nat.and_two_pow_sub_one_eq_mod length 8, Nat.mod_mod]
  have high : (UInt8.ofNat (length >>> 8)).toNat = length / 2 ^ 8 := by
    rw [UInt8.toNat_ofNat', Nat.shiftRight_eq_div_pow]
    exact Nat.mod_eq_of_lt (Nat.div_lt_of_lt_mul fits)
  rw [toNat_or_shiftLeft, high, low]
  exact Nat.div_add_mod length (2 ^ 8)

theorem typeOfByte_code (type : RecordType) : typeOfByte (UInt8.ofNat type.code) = type.code := by
  cases type <;> decide

/-- The checksum in a header is that of the type and the payload. -/
theorem unmask_header (type : RecordType) (payload rest : Bytes) :
    Crc32c.unmask (BitVec.ofNat 32 (decodeFixed32 (header type payload ++ rest))) =
      Crc32c.value 0 (UInt8.ofNat type.code :: payload) := by
  rw [header, List.append_assoc, decodeFixed32_encodeFixed32 (BitVec.isLt _), BitVec.ofNat_toNat,
    BitVec.setWidth_eq, Crc32c.unmask_mask, typeCrc, Crc32c.value, Crc32c.value,
    Crc32c.extend_append 0 0 0]
  rfl

theorem drop_header (type : RecordType) (payload rest : Bytes) :
    (header type payload ++ rest).drop 6 = UInt8.ofNat type.code :: rest := by
  rw [header, List.append_assoc, List.drop_append, length_encodeFixed32,
    List.drop_eq_nil_of_le (by rw [length_encodeFixed32]; decide)]
  rfl

theorem RecordType.code_injective {type other : RecordType} (same : type.code = other.code) :
    type = other := by
  cases type <;> cases other <;> first | rfl | cases same

/-- A whole physical record at the start of the buffer is returned, unless it starts before the
initial offset. -/
theorem Reader.parsePhysicalRecord_whole {reader : Reader} {type : RecordType}
    {payload rest : Bytes} (buffer : reader.buffer = header type payload ++ (payload ++ rest))
    (fits : payload.length < 2 ^ 16) (typed : type ≠ .kZeroType) :
    reader.parsePhysicalRecord =
      if sub64 (sub64 (sub64 reader.endOfBufferOffset rest.length) kHeaderSize) payload.length <
          reader.initialOffset then
        (kBadRecord, [], { reader with buffer := rest })
      else (type.code, payload, { reader with buffer := rest }) := by
  have bytes := header_getD type payload (payload ++ rest)
  rw [← buffer] at bytes
  have length := length_of_bytes fits
  have notZero : type.code ≠ RecordType.kZeroType.code := fun same =>
    typed (RecordType.code_injective same)
  have size : ¬ reader.buffer.length < kHeaderSize + payload.length := by
    rw [buffer, List.length_append, List.length_append, length_header]
    omega
  have crc : Crc32c.value 0 ((reader.buffer.drop 6).take (1 + payload.length)) =
      Crc32c.unmask (BitVec.ofNat 32 (decodeFixed32 reader.buffer)) := by
    rw [buffer, unmask_header, drop_header, Nat.add_comm, List.take_succ_cons, List.take_left]
  have payloadEq : (reader.buffer.drop kHeaderSize).take payload.length = payload := by
    rw [buffer, List.drop_left' (length_header type payload), List.take_left]
  have restEq : reader.buffer.drop (kHeaderSize + payload.length) = rest := by
    rw [buffer, ← List.append_assoc, List.drop_left']
    rw [List.length_append, length_header]
  rw [Reader.parsePhysicalRecord]
  simp only [bytes, length, typeOfByte_code, size, notZero, crc, payloadEq, restEq, if_false,
    false_and, ne_eq, not_true_eq_false, and_false]

/-- A physical record whose payload is cut off by the end of the file ends the input. -/
theorem Reader.parsePhysicalRecord_cut {reader : Reader} {type : RecordType} {payload : Bytes}
    {kept : Nat} (buffer : reader.buffer = header type payload ++ payload.take kept)
    (cut : kept < payload.length) (last : reader.eof = true) (fits : payload.length < 2 ^ 16) :
    reader.parsePhysicalRecord = (kEof, [], { reader with buffer := [] }) := by
  have bytes := header_getD type payload (payload.take kept)
  rw [← buffer] at bytes
  have length := length_of_bytes fits
  have size : reader.buffer.length < kHeaderSize + payload.length := by
    rw [buffer, List.length_append, length_header, List.length_take]
    omega
  rw [Reader.parsePhysicalRecord]
  simp only [bytes, length, size, if_true, last]

/-- The reader has yet to consume `stream`, whose first byte is at `offset` in its block. The
rest of the block is in the buffer, or the block was not fetched yet; a block that is shorter
than that was the last one. -/
structure Reader.At (reader : Reader) (stream : Bytes) (offset : Nat) : Prop where
  stream : reader.buffer ++ reader.file.remaining = stream
  block : (reader.eof = false ∧
      (reader.buffer.length = kBlockSize - offset ∨ (reader.buffer = [] ∧ offset = 0))) ∨
    (reader.eof = true ∧ reader.file.remaining = [] ∧ reader.buffer.length < kBlockSize - offset)
  reliable : reader.file.readsUntilError = none
  initial : reader.initialOffset = 0
  synced : reader.resyncing = false

theorem length_trailer (offset : Nat) :
    (trailer offset).length = if kBlockSize - offset < kHeaderSize then kBlockSize - offset else 0 := by
  unfold trailer
  split
  · exact List.length_replicate
  · rfl

theorem SequentialFile.read_of_reliable {file : SequentialFile}
    (reliable : file.readsUntilError = none) (n : Nat) :
    file.read n = (some (file.remaining.take n),
      { file with remaining := file.remaining.drop n }) := by
  obtain ⟨remaining, reads, fails⟩ := file
  cases reliable
  rfl

/-- The reader has yet to consume `stream`, wherever it started to read. -/
structure Reader.Holds (reader : Reader) (stream : Bytes) (offset : Nat) : Prop where
  stream : reader.buffer ++ reader.file.remaining = stream
  block : (reader.eof = false ∧
      (reader.buffer.length = kBlockSize - offset ∨ (reader.buffer = [] ∧ offset = 0))) ∨
    (reader.eof = true ∧ reader.file.remaining = [] ∧ reader.buffer.length < kBlockSize - offset)
  reliable : reader.file.readsUntilError = none

theorem Reader.At.holds {reader : Reader} {stream : Bytes} {offset : Nat}
    (position : reader.At stream offset) : reader.Holds stream offset :=
  ⟨position.stream, position.block, position.reliable⟩

/-- What fetching a block and consuming bytes leaves alone. -/
structure Reader.Kept (reader reader' : Reader) : Prop where
  initialOffset : reader'.initialOffset = reader.initialOffset
  resyncing : reader'.resyncing = reader.resyncing
  lastRecordOffset : reader'.lastRecordOffset = reader.lastRecordOffset
  reports : reader'.reports = reader.reports

theorem Reader.Holds.at_of_kept {reader reader' : Reader} {stream stream' : Bytes}
    {offset offset' : Nat} (holds : reader'.Holds stream' offset') (kept : reader.Kept reader')
    (position : reader.At stream offset) : reader'.At stream' offset' :=
  ⟨holds.stream, holds.block, holds.reliable, kept.initialOffset.trans position.initial,
    kept.resyncing.trans position.synced⟩

/-- Consuming bytes of the buffer moves the reader on. -/
theorem Reader.Holds.consume {reader : Reader} {stream bytes rest : Bytes} {offset : Nat}
    (position : reader.Holds (bytes ++ stream) offset) (buffer : reader.buffer = bytes ++ rest)
    (loaded : reader.buffer ≠ []) :
    ({ reader with buffer := rest } : Reader).Holds stream (offset + bytes.length) := by
  have stream' := position.stream
  rw [buffer, List.append_assoc] at stream'
  refine ⟨List.append_cancel_left stream', ?_, position.reliable⟩
  have length : reader.buffer.length = bytes.length + rest.length := by
    rw [buffer, List.length_append]
  rcases position.block with ⟨more, full | ⟨empty, _⟩⟩ | ⟨last, empty, short⟩
  · exact Or.inl ⟨more, Or.inl (show rest.length = _ by omega)⟩
  · exact absurd empty loaded
  · exact Or.inr ⟨last, empty, show rest.length < _ by omega⟩

/-- A reader without a header in its buffer fetches the next block. When that has no header
either, the input ends. -/
theorem Reader.readPhysicalRecord_fetch {reader : Reader}
    (small : reader.buffer.length < kHeaderSize) (more : reader.eof = false)
    (reliable : reader.file.readsUntilError = none) :
    (reader.file.remaining.length < kHeaderSize ∧
      ∃ reader', reader.readPhysicalRecord = (kEof, [], reader') ∧ reader.Kept reader') ∨
    (kHeaderSize ≤ reader.file.remaining.length ∧
      ∃ reader' : Reader, reader.readPhysicalRecord = reader'.parsePhysicalRecord ∧
        reader'.Holds reader.file.remaining 0 ∧ kHeaderSize ≤ reader'.buffer.length ∧
          reader.Kept reader' ∧
            reader'.endOfBufferOffset = reader.endOfBufferOffset + reader'.buffer.length) := by
  have smaller : kHeaderSize ≤ kBlockSize := by decide
  have notLast : ¬ reader.eof = true := by
    rw [more]
    exact Bool.false_ne_true
  rw [Reader.readPhysicalRecord, if_pos small, if_neg notLast,
    SequentialFile.read_of_reliable reliable]
  by_cases headerLeft : reader.file.remaining.length < kHeaderSize
  · have short : (reader.file.remaining.take kBlockSize).length < kHeaderSize := by
      rw [List.length_take]
      omega
    refine Or.inl ⟨headerLeft, ?_⟩
    simp only [if_pos short]
    exact ⟨_, rfl, rfl, rfl, rfl, rfl⟩
  · have long : ¬ (reader.file.remaining.take kBlockSize).length < kHeaderSize := by
      rw [List.length_take]
      omega
    refine Or.inr ⟨Nat.le_of_not_lt headerLeft, ?_⟩
    simp only [if_neg long]
    refine ⟨_, rfl, ⟨List.take_append_drop _ _, ?_, reliable⟩, Nat.le_of_not_lt long,
      ⟨rfl, rfl, rfl, rfl⟩, rfl⟩
    by_cases whole : kBlockSize ≤ reader.file.remaining.length
    · refine Or.inl ⟨?_, Or.inl (List.length_take_of_le whole)⟩
      show decide ((reader.file.remaining.take kBlockSize).length < kBlockSize) = false
      rw [List.length_take_of_le whole]
      exact decide_eq_false (Nat.lt_irrefl _)
    · have rest : (reader.file.remaining.take kBlockSize).length < kBlockSize := by
        rw [List.length_take]
        omega
      exact Or.inr ⟨decide_eq_true rest, List.drop_eq_nil_of_le (Nat.le_of_not_le whole), rest⟩

/-- Reading a physical record skips the trailer of the block, and fetches the next block after
it. Without a header behind it the input ends. -/
theorem Reader.Holds.readPhysicalRecord_cases {reader : Reader} {stream : Bytes} {offset : Nat}
    (position : reader.Holds stream offset) :
    ((stream.drop (trailer offset).length).length < kHeaderSize ∧
      ∃ reader', reader.readPhysicalRecord = (kEof, [], reader') ∧ reader.Kept reader') ∨
    (kHeaderSize ≤ (stream.drop (trailer offset).length).length ∧
      ∃ reader' : Reader, reader.readPhysicalRecord = reader'.parsePhysicalRecord ∧
        reader'.Holds (stream.drop (trailer offset).length) (blockStart offset) ∧
          kHeaderSize ≤ reader'.buffer.length ∧ reader.Kept reader' ∧
            reader'.endOfBufferOffset + reader.buffer.length =
              reader.endOfBufferOffset + (trailer offset).length + reader'.buffer.length) := by
  have positive : 0 < kHeaderSize := by decide
  have smaller : kHeaderSize ≤ kBlockSize := by decide
  have total : stream.length = reader.buffer.length + reader.file.remaining.length := by
    rw [← position.stream, List.length_append]
  have ends : reader.buffer.length < kHeaderSize → reader.eof = true →
      ∃ reader', reader.readPhysicalRecord = (kEof, [], reader') ∧ reader.Kept reader' := by
    intro short last
    rw [Reader.readPhysicalRecord, if_pos short, if_pos last]
    exact ⟨_, rfl, rfl, rfl, rfl, rfl⟩
  rw [length_trailer, blockStart]
  by_cases atTrailer : kBlockSize - offset < kHeaderSize
  · rw [if_pos atTrailer, if_pos atTrailer]
    rcases position.block with ⟨more, full | ⟨_, atStart⟩⟩ | ⟨last, empty, short⟩
    · have rest : stream.drop (kBlockSize - offset) = reader.file.remaining := by
        rw [← position.stream, ← full, List.drop_left]
      rw [rest]
      refine (Reader.readPhysicalRecord_fetch (full ▸ atTrailer) more position.reliable).imp_right ?_
      rintro ⟨long, reader', reads, holds, loaded, kept, fetched⟩
      exact ⟨long, reader', reads, holds, loaded, kept, by omega⟩
    · omega
    · refine Or.inl ⟨?_, ends (short.trans atTrailer) last⟩
      rw [List.length_drop, total, empty, List.length_nil]
      omega
  · rw [if_neg atTrailer, if_neg atTrailer, List.drop_zero]
    by_cases small : reader.buffer.length < kHeaderSize
    · rcases position.block with ⟨more, full | ⟨isEmpty, atStart⟩⟩ | ⟨last, empty, _⟩
      · exact absurd (full ▸ small) atTrailer
      · have rest : stream = reader.file.remaining := by
          rw [← position.stream, isEmpty, List.nil_append]
        rw [rest, atStart]
        refine (Reader.readPhysicalRecord_fetch small more position.reliable).imp_right ?_
        rintro ⟨long, reader', reads, holds, loaded, kept, fetched⟩
        refine ⟨long, reader', reads, holds, loaded, kept, ?_⟩
        rw [isEmpty, fetched]
        rfl
      · refine Or.inl ⟨?_, ends small last⟩
        rw [total, empty, List.length_nil]
        exact small
    · refine Or.inr ⟨by omega, reader, ?_, position, Nat.le_of_not_lt small, ⟨rfl, rfl, rfl, rfl⟩,
        rfl⟩
      rw [Reader.readPhysicalRecord, if_neg small]

/-- A fragment laid out at the position of the reader is returned, unless it starts before the
initial offset. -/
theorem Reader.Holds.readPhysicalRecord_fragment {reader : Reader} {fragment : Fragment}
    {rest : Bytes} {offset : Nat}
    (position : reader.Holds (trailer offset ++ fragment.bytes ++ rest) offset)
    (fits : fragment.endOffset offset ≤ kBlockSize) (typed : fragment.type ≠ .kZeroType) :
    ∃ reader' : Reader, reader'.Holds rest (fragment.endOffset offset) ∧ reader.Kept reader' ∧
      reader'.endOfBufferOffset + reader.buffer.length = reader.endOfBufferOffset +
        (trailer offset ++ fragment.bytes).length + reader'.buffer.length ∧
      reader.readPhysicalRecord =
        if sub64 (sub64 (sub64 reader'.endOfBufferOffset reader'.buffer.length) kHeaderSize)
            fragment.payload.length < reader.initialOffset then (kBadRecord, [], reader')
        else (fragment.type.code, fragment.payload, reader') := by
  have behind : (trailer offset ++ fragment.bytes ++ rest).drop (trailer offset).length =
      fragment.bytes ++ rest := by
    rw [List.append_assoc, List.drop_left]
  have positive : 0 < kHeaderSize := by decide
  rcases position.readPhysicalRecord_cases with
    ⟨short, _⟩ | ⟨_, loaded, reads, loadedAt, isLoaded, kept, fetched⟩
  · rw [behind, List.length_append, Fragment.length_bytes] at short
    omega
  rw [behind] at loadedAt
  have inBuffer : fragment.bytes.length ≤ loaded.buffer.length := by
    rw [Fragment.length_bytes]
    rw [Fragment.endOffset] at fits
    rcases loadedAt.block with ⟨_, full | ⟨empty, _⟩⟩ | ⟨_, empty, _⟩
    · omega
    · rw [empty, List.length_nil] at isLoaded
      omega
    · have all := loadedAt.stream
      rw [empty, List.append_nil] at all
      rw [all, List.length_append, Fragment.length_bytes]
      exact Nat.le_add_right _ _
  obtain ⟨left, buffer⟩ : ∃ left, loaded.buffer = fragment.bytes ++ left := by
    have start : loaded.buffer.take fragment.bytes.length = fragment.bytes := by
      have both := congrArg (List.take fragment.bytes.length) loadedAt.stream
      rwa [List.take_append_of_le_length inBuffer, List.take_left] at both
    refine ⟨loaded.buffer.drop fragment.bytes.length, ?_⟩
    conv_lhs => rw [← List.take_append_drop fragment.bytes.length loaded.buffer, start]
  have small : fragment.payload.length < 2 ^ 16 := by
    rw [Fragment.endOffset] at fits
    have block : kBlockSize < 2 ^ 16 := by decide
    omega
  refine ⟨{ loaded with buffer := left }, ?_,
    ⟨kept.initialOffset, kept.resyncing, kept.lastRecordOffset, kept.reports⟩, ?_, ?_⟩
  · have next := loadedAt.consume buffer (List.ne_nil_of_length_pos (positive.trans_le isLoaded))
    rwa [Fragment.length_bytes, ← Nat.add_assoc] at next
  · rw [buffer, List.length_append] at fetched
    rw [List.length_append]
    show loaded.endOfBufferOffset + _ = _ + left.length
    omega
  · have headed : loaded.buffer =
        header fragment.type fragment.payload ++ (fragment.payload ++ left) := by
      rw [buffer, Fragment.bytes, List.append_assoc]
    rw [reads, Reader.parsePhysicalRecord_whole headed small typed, kept.initialOffset]

/-- A reader that starts at the beginning of the file finds the end of the input, or the next
header. -/
theorem Reader.At.readPhysicalRecord_cases {reader : Reader} {stream : Bytes} {offset : Nat}
    (position : reader.At stream offset) :
    ((stream.drop (trailer offset).length).length < kHeaderSize ∧
      ∃ reader', reader.readPhysicalRecord = (kEof, [], reader') ∧
        reader'.reports = reader.reports) ∨
    (kHeaderSize ≤ (stream.drop (trailer offset).length).length ∧
      ∃ reader' : Reader, reader.readPhysicalRecord = reader'.parsePhysicalRecord ∧
        reader'.At (stream.drop (trailer offset).length) (blockStart offset) ∧
          kHeaderSize ≤ reader'.buffer.length ∧ reader'.reports = reader.reports) := by
  rcases position.holds.readPhysicalRecord_cases with
    ⟨short, reader', reads, kept⟩ | ⟨long, reader', reads, holds, loaded, kept, _⟩
  · exact Or.inl ⟨short, reader', reads, kept.reports⟩
  · exact Or.inr ⟨long, reader', reads, holds.at_of_kept kept position, loaded, kept.reports⟩

/-- A fragment laid out at the position of a reader that started at the beginning of the file is
returned. -/
theorem Reader.At.readPhysicalRecord_fragment {reader : Reader} {fragment : Fragment}
    {rest : Bytes} {offset : Nat}
    (position : reader.At (trailer offset ++ fragment.bytes ++ rest) offset)
    (fits : fragment.endOffset offset ≤ kBlockSize) (typed : fragment.type ≠ .kZeroType) :
    ∃ reader', reader.readPhysicalRecord = (fragment.type.code, fragment.payload, reader') ∧
      reader'.At rest (fragment.endOffset offset) ∧ reader'.reports = reader.reports := by
  obtain ⟨reader', holds, kept, _, reads⟩ := position.holds.readPhysicalRecord_fragment fits typed
  rw [position.initial, if_neg (Nat.not_lt_zero _)] at reads
  exact ⟨reader', reads, holds.at_of_kept kept position, kept.reports⟩

/-- A fragment that is cut off by the end of the file ends the input, and nothing is
reported. -/
theorem Reader.At.readPhysicalRecord_cut {reader : Reader} {fragment : Fragment} {offset kept : Nat}
    (position : reader.At ((trailer offset ++ fragment.bytes).take kept) offset)
    (cut : kept < (trailer offset ++ fragment.bytes).length)
    (fits : fragment.endOffset offset ≤ kBlockSize) :
    ∃ reader', reader.readPhysicalRecord = (kEof, [], reader') ∧
      reader'.reports = reader.reports := by
  have positive : 0 < kHeaderSize := by decide
  rcases position.readPhysicalRecord_cases with
    ⟨_, ends⟩ | ⟨long, loaded, reads, loadedAt, isLoaded, reports⟩
  · exact ends
  have behind : ((trailer offset ++ fragment.bytes).take kept).drop (trailer offset).length =
      fragment.bytes.take (kept - (trailer offset).length) := by
    rw [List.drop_take, List.drop_left]
  rw [behind] at long loadedAt
  rw [List.length_append, Fragment.length_bytes] at cut
  rw [List.length_take, Fragment.length_bytes] at long
  have headed : fragment.bytes.take (kept - (trailer offset).length) =
      header fragment.type fragment.payload ++
        fragment.payload.take (kept - (trailer offset).length - kHeaderSize) := by
    rw [Fragment.bytes, List.take_append, length_header,
      List.take_of_length_le (by rw [length_header]; omega)]
  have small : fragment.payload.length < 2 ^ 16 := by
    rw [Fragment.endOffset] at fits
    have block : kBlockSize < 2 ^ 16 := by decide
    omega
  rcases loadedAt.block with ⟨_, full | ⟨empty, _⟩⟩ | ⟨last, empty, _⟩
  · have total := congrArg List.length loadedAt.stream
    rw [List.length_append, List.length_take, Fragment.length_bytes] at total
    rw [Fragment.endOffset] at fits
    omega
  · rw [empty, List.length_nil] at isLoaded
    omega
  · have all := loadedAt.stream
    rw [empty, List.append_nil, headed] at all
    refine ⟨{ loaded with buffer := [] }, ?_, reports⟩
    rw [reads]
    exact Reader.parsePhysicalRecord_cut all (by omega) last small

end LevelDb.Log
