/-
This file describes what the log reader makes of any file at all. A file falls into pieces: the
physical records in reading order, with the places where the reader gives up the rest of a block
among them. Each turn of the loop of `ReadRecord` consumes one piece.

With checksums on, a record is returned only if its fragments are physical records whose checksums
hold and that follow each other without another piece between them. The type byte of a physical
record shares its values with the codes for the end of the input and for a bad record, so a record
with one of these two types is not treated as one of an unknown type.
-/

import LevelDb.LogRoundTrip

namespace LevelDb.Log

/-! ### Pieces -/

/-- The length field of a header at the start of the bytes. -/
def headerLength (bytes : Bytes) : Nat :=
  (bytes.getD 4 0).toNat ||| ((bytes.getD 5 0).toNat <<< 8)

/-- The type byte of a header at the start of the bytes. -/
def headerType (bytes : Bytes) : UInt8 := bytes.getD 6 0

/-- The checksum in the header is that of the type byte and the payload. -/
def ChecksumHolds (bytes : Bytes) : Prop :=
  Crc32c.value 0 ((bytes.drop 6).take (1 + headerLength bytes)) =
    Crc32c.unmask (BitVec.ofNat 32 (decodeFixed32 bytes))

instance (bytes : Bytes) : Decidable (ChecksumHolds bytes) :=
  inferInstanceAs (Decidable (_ = _))

/-- What becomes of a physical record. A record of type and length zero and one that fails a check
take the rest of their block with them; `size` is the number of bytes dropped. -/
inductive Verdict
  | accepted (payload : Bytes)
  | zeroLength
  | badLength (size : Nat)
  | badChecksum (size : Nat)
  deriving DecidableEq, Repr

/-- A physical record as the reader finds it at a position of the file. -/
structure Piece where
  position : Nat
  typeByte : UInt8
  verdict : Verdict
  deriving DecidableEq, Repr

/-- What `ReadPhysicalRecord` returns for a piece. -/
def Piece.code (piece : Piece) : Nat :=
  match piece.verdict with
  | .accepted _ => typeOfByte piece.typeByte
  | .zeroLength | .badLength _ | .badChecksum _ => kBadRecord

def Piece.payload (piece : Piece) : Bytes :=
  match piece.verdict with
  | .accepted payload => payload
  | .zeroLength | .badLength _ | .badChecksum _ => []

/-- What `ReadPhysicalRecord` reports about a piece. -/
def Piece.reports (piece : Piece) : List (Nat × DropReason) :=
  match piece.verdict with
  | .accepted _ | .zeroLength => []
  | .badLength size => [(size, .corruption "bad record length")]
  | .badChecksum size => [(size, .corruption "checksum mismatch")]

/-- The piece at the start of what is left of a block, and what is left after it. There is none
when no header is left, or when the file ends inside the record. -/
def pieceAt (checksum last : Bool) (position : Nat) (block : Bytes) : Option (Piece × Bytes) :=
  let length := headerLength block
  if block.length < kHeaderSize then none
  else if block.length < kHeaderSize + length then
    if last then none else some (⟨position, headerType block, .badLength block.length⟩, [])
  else if typeOfByte (headerType block) = RecordType.kZeroType.code ∧ length = 0 then
    some (⟨position, headerType block, .zeroLength⟩, [])
  else if checksum ∧ ¬ ChecksumHolds block then
    some (⟨position, headerType block, .badChecksum block.length⟩, [])
  else
    some (⟨position, headerType block, .accepted ((block.drop kHeaderSize).take length)⟩,
      block.drop (kHeaderSize + length))

/-- The pieces of what is left of a block. -/
def blockPiecesLoop (checksum last : Bool) : Nat → Nat → Bytes → List Piece
  | 0, _, _ => []
  | turns + 1, position, block =>
    match pieceAt checksum last position block with
    | none => []
    | some (piece, rest) =>
      piece :: blockPiecesLoop checksum last turns (position + (block.length - rest.length)) rest

def blockPieces (checksum last : Bool) (position : Nat) (block : Bytes) : List Piece :=
  blockPiecesLoop checksum last block.length position block

/-- The pieces of the blocks not read yet. A short block is the last one. -/
def filePiecesLoop (checksum : Bool) : Nat → Nat → SequentialFile → List Piece
  | 0, _, _ => []
  | turns + 1, position, file =>
    match file.read kBlockSize with
    | (none, _) => []
    | (some data, file) =>
      if data.length < kBlockSize then blockPieces checksum true position data
      else
        blockPieces checksum false position data ++
          filePiecesLoop checksum turns (position + data.length) file

def filePieces (checksum : Bool) (position : Nat) (file : SequentialFile) : List Piece :=
  filePiecesLoop checksum (file.remaining.length + 1) position file

/-- The pieces a reader has yet to consume. -/
def Reader.pieces (reader : Reader) : List Piece :=
  blockPieces reader.checksum reader.eof (reader.endOfBufferOffset - reader.buffer.length)
      reader.buffer ++
    if reader.eof then [] else filePieces reader.checksum reader.endOfBufferOffset reader.file

theorem headerSize_pos : 0 < kHeaderSize := by decide

variable {checksum last : Bool} {position : Nat} {piece : Piece}

theorem pieceAt_length {block rest : Bytes}
    (found : pieceAt checksum last position block = some (piece, rest)) :
    rest.length < block.length := by
  have positive := headerSize_pos
  rw [pieceAt] at found
  split at found
  · cases found
  rename_i headed
  have nonempty : 0 < block.length := positive.trans_le (Nat.le_of_not_lt headed)
  split at found
  · split at found
    · cases found
    · cases found
      exact nonempty
  split at found
  · cases found
    exact nonempty
  split at found
  · cases found
    exact nonempty
  · cases found
    rw [List.length_drop]
    omega

variable {block : Bytes}

theorem blockPiecesLoop_of_le {turns : Nat} (enough : block.length ≤ turns) :
    blockPiecesLoop checksum last turns position block = blockPieces checksum last position block := by
  rw [blockPieces]
  induction turns using Nat.strong_induction_on generalizing position block with
  | _ turns inductionHypothesis =>
    cases turns with
    | zero => rw [Nat.le_zero.mp enough]
    | succ turns =>
      cases isLength : block.length with
      | zero =>
        have short : block.length < kHeaderSize := by
          rw [isLength]
          exact headerSize_pos
        rw [blockPiecesLoop, blockPiecesLoop, pieceAt]
        simp only [if_pos short]
      | succ length =>
        rw [blockPiecesLoop, blockPiecesLoop]
        cases found : pieceAt checksum last position block with
        | none => rfl
        | some pair =>
          have shorter := pieceAt_length found
          have within : length ≤ turns := by omega
          simp only
          rw [inductionHypothesis turns (Nat.lt_succ_self turns) (by omega)]
          rcases Nat.lt_or_eq_of_le within with less | same
          · rw [inductionHypothesis length (by omega) (by omega)]
          · rw [same, inductionHypothesis turns (Nat.lt_succ_self turns) (by omega)]

theorem blockPieces_eq (checksum last : Bool) (position : Nat) (block : Bytes) :
    blockPieces checksum last position block =
      match pieceAt checksum last position block with
      | none => []
      | some (piece, rest) =>
        piece :: blockPieces checksum last (position + (block.length - rest.length)) rest := by
  rw [← blockPiecesLoop_of_le (Nat.le_succ block.length), blockPiecesLoop]
  cases found : pieceAt checksum last position block with
  | none => rfl
  | some pair =>
    simp only
    rw [blockPiecesLoop_of_le (pieceAt_length found).le]

theorem pieceAt_of_short (short : block.length < kHeaderSize)
    (checksum last : Bool) (position : Nat) : pieceAt checksum last position block = none := by
  rw [pieceAt]
  simp only [if_pos short]

theorem blockPieces_of_short (short : block.length < kHeaderSize)
    (checksum last : Bool) (position : Nat) : blockPieces checksum last position block = [] := by
  rw [blockPieces_eq, pieceAt_of_short short]

theorem SequentialFile.read_length {file after : SequentialFile} {data : Bytes} {count : Nat}
    (reads : file.read count = (some data, after)) :
    data = file.remaining.take count ∧ after.remaining = file.remaining.drop count := by
  rw [SequentialFile.read] at reads
  split at reads
  · cases reads
  · cases reads
    exact ⟨rfl, rfl⟩
  · cases reads
    exact ⟨rfl, rfl⟩

theorem filePiecesLoop_of_le {checksum : Bool} {turns position : Nat} {file : SequentialFile}
    (enough : file.remaining.length < turns) :
    filePiecesLoop checksum turns position file = filePieces checksum position file := by
  have positive : 0 < kBlockSize := by decide
  rw [filePieces]
  induction turns using Nat.strong_induction_on generalizing position file with
  | _ turns inductionHypothesis =>
    cases turns with
    | zero => exact absurd enough (Nat.not_lt_zero _)
    | succ turns =>
      rw [filePiecesLoop, filePiecesLoop]
      cases reads : file.read kBlockSize with
      | mk read after =>
        cases read with
        | none => rfl
        | some data =>
          simp only
          split
          · rfl
          · rename_i whole
            obtain ⟨isData, isRest⟩ := SequentialFile.read_length reads
            have shorter : after.remaining.length < file.remaining.length := by
              rw [isData, List.length_take] at whole
              rw [isRest, List.length_drop]
              omega
            have within : file.remaining.length ≤ turns := Nat.le_of_lt_succ enough
            rw [inductionHypothesis turns (Nat.lt_succ_self turns) (by omega)]
            rcases Nat.lt_or_eq_of_le within with less | same
            · rw [inductionHypothesis file.remaining.length (by omega) shorter]
            · rw [same, inductionHypothesis turns (Nat.lt_succ_self turns) (by omega)]

theorem filePieces_eq (checksum : Bool) (position : Nat) (file : SequentialFile) :
    filePieces checksum position file =
      match file.read kBlockSize with
      | (none, _) => []
      | (some data, file) =>
        if data.length < kBlockSize then blockPieces checksum true position data
        else
          blockPieces checksum false position data ++
            filePieces checksum (position + data.length) file := by
  have positive : 0 < kBlockSize := by decide
  rw [filePieces, filePiecesLoop]
  cases reads : file.read kBlockSize with
  | mk read after =>
    cases read with
    | none => rfl
    | some data =>
      simp only
      split
      · rfl
      · rename_i whole
        obtain ⟨isData, isRest⟩ := SequentialFile.read_length reads
        rw [filePiecesLoop_of_le]
        rw [isData, List.length_take] at whole
        rw [isRest, List.length_drop]
        omega

/-! ### Reading a piece -/

/-- A reader that started at the beginning of the file. After a read that came up short there is
nothing left to read, unless a read failed. -/
structure Reader.Scanning (reader : Reader) : Prop where
  initial : reader.initialOffset = 0
  synced : reader.resyncing = false
  buffered : reader.buffer.length ≤ reader.endOfBufferOffset
  ended : reader.eof = true →
    reader.file.remaining = [] ∨ ∃ bytes, (bytes, DropReason.readError) ∈ reader.reports

variable {reader : Reader}

theorem Reader.reportDrop_of_initial (initial : reader.initialOffset = 0)
    (bytes : Nat) (reason : DropReason) :
    reader.reportDrop bytes reason =
      { reader with reports := reader.reports ++ [(bytes, reason)] } := by
  rw [Reader.reportDrop, if_pos]
  rw [initial]
  exact Nat.zero_le _

/-- A header in the buffer is read as the piece there. -/
theorem Reader.parsePhysicalRecord_pieceAt (initial : reader.initialOffset = 0)
    (headed : kHeaderSize ≤ reader.buffer.length) (position : Nat) :
    reader.parsePhysicalRecord =
      match pieceAt reader.checksum reader.eof position reader.buffer with
      | none => (kEof, [], { reader with buffer := [] })
      | some (piece, rest) => (piece.code, piece.payload,
          { reader with buffer := rest, reports := reader.reports ++ piece.reports }) := by
  have notShort : ¬ reader.buffer.length < kHeaderSize := Nat.not_lt.mpr headed
  have reported : ∀ message, ({ reader with buffer := [] } : Reader).reportCorruption
      reader.buffer.length message =
        { reader with
          buffer := []
          reports := reader.reports ++ [(reader.buffer.length, .corruption message)] } :=
    fun message => Reader.reportDrop_of_initial
      (show ({ reader with buffer := [] } : Reader).initialOffset = 0 from initial) _ _
  have notBefore : ∀ offset, ¬ offset < reader.initialOffset := by
    intro offset before
    rw [initial] at before
    exact Nat.not_lt_zero _ before
  rw [Reader.parsePhysicalRecord, pieceAt]
  simp only [if_neg notShort, reported, if_neg (notBefore _)]
  change (if reader.buffer.length < kHeaderSize + headerLength reader.buffer then _ else _) = _
  split
  · split
    · rfl
    · rfl
  change (if typeOfByte (headerType reader.buffer) = RecordType.kZeroType.code ∧
    headerLength reader.buffer = 0 then _ else _) = _
  split
  · simp only [Piece.code, Piece.payload, Piece.reports, List.append_nil]
  change (if reader.checksum = true ∧ ¬ ChecksumHolds reader.buffer then _ else _) = _
  split
  · rfl
  · simp only [Piece.code, Piece.payload, Piece.reports, List.append_nil]
    rfl

/-- What is left to read behind the trailer of a block. -/
def Reader.unread (reader : Reader) : Bytes :=
  if reader.buffer.length < kHeaderSize ∧ reader.eof = false then reader.file.remaining
  else reader.buffer ++ reader.file.remaining

/-- What is left is shorter than a header, or than the record its header announces. -/
def Reader.Exhausted (reader : Reader) : Prop :=
  reader.unread.length < kHeaderSize ∨
    reader.unread.length < kHeaderSize + headerLength reader.unread

/-- A reader that ends the input: the bytes are exhausted, or a read failed. -/
structure Reader.EndsInput (reader after : Reader) : Prop where
  nothing : reader.pieces = []
  scanning : after.Scanning
  stays : after.pieces = []
  reason : reader.Exhausted ∨ ∃ bytes, (bytes, DropReason.readError) ∈ after.reports

/-- A reader that consumes a piece. -/
structure Reader.Consumes (reader : Reader) (piece : Piece) (after : Reader) : Prop where
  pieces : reader.pieces = piece :: after.pieces
  scanning : after.Scanning
  reports : after.reports = reader.reports ++ piece.reports
  zero : piece.verdict = .zeroLength → piece.typeByte.toNat = 0

theorem typeOfByte_of_lt {byte : UInt8} (small : typeOfByte byte < 128) :
    typeOfByte byte = byte.toNat := by
  rw [typeOfByte] at small ⊢
  split
  · rfl
  · rename_i large
    rw [if_neg large] at small
    omega

theorem pieceAt_zeroLength {block rest : Bytes}
    (found : pieceAt checksum last position block = some (piece, rest))
    (isZero : piece.verdict = .zeroLength) : piece.typeByte.toNat = 0 := by
  rw [pieceAt] at found
  split at found
  · cases found
  split at found
  · split at found
    · cases found
    · cases found
      cases isZero
  split at found
  · rename_i zero
    cases found
    have value : typeOfByte (headerType block) = 0 := zero.1
    show (headerType block).toNat = 0
    rw [← @typeOfByte_of_lt (headerType block) (by rw [value]; decide), value]
  split at found
  · cases found
    cases isZero
  · cases found
    cases isZero

theorem pieceAt_none_of_headed (headed : kHeaderSize ≤ block.length)
    (nothing : pieceAt checksum last position block = none) :
    last = true ∧ block.length < kHeaderSize + headerLength block := by
  rw [pieceAt] at nothing
  simp only [if_neg (Nat.not_lt.mpr headed)] at nothing
  split at nothing
  · rename_i short
    split at nothing
    · rename_i isLast
      exact ⟨isLast, short⟩
    · cases nothing
  split at nothing
  · cases nothing
  split at nothing
  · cases nothing
  · cases nothing

/-- A reader with a header in its buffer consumes a piece or ends the input. -/
theorem Reader.Scanning.parsePhysicalRecord (scanning : reader.Scanning)
    (headed : kHeaderSize ≤ reader.buffer.length) :
    (∃ after, reader.parsePhysicalRecord = (kEof, [], after) ∧ reader.EndsInput after ∧
        after.reports = reader.reports) ∨
      ∃ piece after, reader.parsePhysicalRecord = (piece.code, piece.payload, after) ∧
        reader.Consumes piece after := by
  have parses := Reader.parsePhysicalRecord_pieceAt scanning.initial headed
    (reader.endOfBufferOffset - reader.buffer.length)
  have pieces := blockPieces_eq reader.checksum reader.eof
    (reader.endOfBufferOffset - reader.buffer.length) reader.buffer
  cases found : pieceAt reader.checksum reader.eof
      (reader.endOfBufferOffset - reader.buffer.length) reader.buffer with
  | none =>
    obtain ⟨last, short⟩ := pieceAt_none_of_headed headed found
    simp only [found] at parses pieces
    refine Or.inl ⟨_, parses, ⟨?_, ?_, ?_, ?_⟩, rfl⟩
    · rw [Reader.pieces, pieces, if_pos last]
      rfl
    · exact ⟨scanning.initial, scanning.synced, Nat.zero_le _, scanning.ended⟩
    · rw [Reader.pieces, blockPieces_of_short (show ([] : Bytes).length < kHeaderSize from headerSize_pos)]
      exact if_pos last
    · rcases scanning.ended last with empty | failed
      · refine Or.inl (Or.inr ?_)
        rw [Reader.unread, if_neg (fun both => absurd both.1 (Nat.not_lt.mpr headed)), empty,
          List.append_nil]
        exact short
      · exact Or.inr failed
  | some pair =>
    obtain ⟨piece, rest⟩ := pair
    simp only [found] at parses pieces
    have shorter := pieceAt_length found
    have buffered := scanning.buffered
    refine Or.inr ⟨piece, _, parses, ⟨?_, ?_, rfl, pieceAt_zeroLength found⟩⟩
    · rw [Reader.pieces, pieces, Reader.pieces]
      have position : reader.endOfBufferOffset - reader.buffer.length +
          (reader.buffer.length - rest.length) = reader.endOfBufferOffset - rest.length := by
        omega
      rw [position]
      rfl
    · refine ⟨scanning.initial, scanning.synced, shorter.le.trans buffered, fun isLast => ?_⟩
      refine (scanning.ended isLast).imp_right fun failed => ?_
      obtain ⟨bytes, member⟩ := failed
      exact ⟨bytes, List.mem_append_left _ member⟩

/-- The reader after a block was read. -/
def Reader.fetched (reader : Reader) (data : Bytes) (file : SequentialFile) : Reader :=
  { reader with
    file
    buffer := data
    endOfBufferOffset := reader.endOfBufferOffset + data.length
    eof := data.length < kBlockSize }

section Fetch

variable {reader : Reader} {data : Bytes} {file : SequentialFile}

theorem Reader.Scanning.fetched (scanning : reader.Scanning)
    (reads : reader.file.read kBlockSize = (some data, file)) :
    (reader.fetched data file).Scanning := by
  refine ⟨scanning.initial, scanning.synced, Nat.le_add_left _ _, fun last => Or.inl ?_⟩
  obtain ⟨isData, isRest⟩ := SequentialFile.read_length reads
  have short : data.length < kBlockSize := of_decide_eq_true last
  rw [isData, List.length_take] at short
  show file.remaining = []
  rw [isRest]
  exact List.drop_eq_nil_of_le (by omega)

theorem Reader.pieces_fetched (short : reader.buffer.length < kHeaderSize)
    (more : reader.eof = false) (reads : reader.file.read kBlockSize = (some data, file)) :
    (reader.fetched data file).pieces = reader.pieces := by
  have position : reader.endOfBufferOffset + data.length - data.length =
      reader.endOfBufferOffset := Nat.add_sub_cancel _ _
  have notLast : ¬ reader.eof = true := by
    rw [more]
    exact Bool.false_ne_true
  have before : reader.pieces = filePieces reader.checksum reader.endOfBufferOffset reader.file := by
    rw [Reader.pieces, blockPieces_of_short short, if_neg notLast, List.nil_append]
  rw [before, filePieces_eq, reads]
  show blockPieces reader.checksum (decide (data.length < kBlockSize))
    (reader.endOfBufferOffset + data.length - data.length) data ++
      (if decide (data.length < kBlockSize) = true then [] else
        filePieces reader.checksum (reader.endOfBufferOffset + data.length) file) = _
  rw [position]
  by_cases isLast : data.length < kBlockSize
  · simp only [isLast, decide_true, if_true, List.append_nil]
  · simp only [isLast, decide_false, if_false, Bool.false_eq_true]

theorem Reader.unread_fetched (short : reader.buffer.length < kHeaderSize)
    (more : reader.eof = false) (reads : reader.file.read kBlockSize = (some data, file))
    (headed : kHeaderSize ≤ data.length) :
    (reader.fetched data file).unread = reader.unread := by
  obtain ⟨isData, isRest⟩ := SequentialFile.read_length reads
  have before : reader.unread = reader.file.remaining := if_pos ⟨short, more⟩
  have after : (reader.fetched data file).unread = data ++ file.remaining :=
    if_neg fun both => absurd both.1 (Nat.not_lt.mpr headed)
  rw [before, after, isData, isRest, List.take_append_drop]

end Fetch

/-- `ReadPhysicalRecord` consumes a piece or ends the input. -/
theorem Reader.Scanning.readPhysicalRecord (scanning : reader.Scanning) :
    (∃ after, reader.readPhysicalRecord = (kEof, [], after) ∧ reader.EndsInput after) ∨
      ∃ piece after, reader.readPhysicalRecord = (piece.code, piece.payload, after) ∧
        reader.Consumes piece after := by
  rw [Reader.readPhysicalRecord]
  split
  · rename_i short
    have noPieces := blockPieces_of_short short reader.checksum reader.eof
      (reader.endOfBufferOffset - reader.buffer.length)
    split
    · rename_i last
      refine Or.inl ⟨_, rfl, ⟨?_, ?_, ?_, ?_⟩⟩
      · rw [Reader.pieces, noPieces, if_pos last]
        rfl
      · exact ⟨scanning.initial, scanning.synced, Nat.zero_le _, scanning.ended⟩
      · rw [Reader.pieces, blockPieces_of_short (show ([] : Bytes).length < kHeaderSize from headerSize_pos)]
        exact if_pos last
      · rcases scanning.ended last with empty | failed
        · refine Or.inl (Or.inl ?_)
          have notMore : ¬ (reader.buffer.length < kHeaderSize ∧ reader.eof = false) := by
            rw [last]
            exact fun both => absurd both.2 (by decide)
          rw [Reader.unread, if_neg notMore, empty, List.append_nil]
          exact short
        · exact Or.inr failed
    · rename_i notLast
      have more : reader.eof = false := Bool.eq_false_iff.mpr notLast
      split
      · rename_i file reads
        rw [Reader.reportDrop_of_initial
          (show ({ reader with file, buffer := [], eof := true } : Reader).initialOffset = 0 from
            scanning.initial)]
        have failed : (kBlockSize, DropReason.readError) ∈
            reader.reports ++ [(kBlockSize, DropReason.readError)] :=
          List.mem_append_right _ (List.mem_singleton.mpr rfl)
        refine Or.inl ⟨_, rfl, ⟨?_, ?_, ?_, Or.inr ⟨_, failed⟩⟩⟩
        · rw [Reader.pieces, noPieces, if_neg notLast, filePieces_eq, reads]
          rfl
        · exact ⟨scanning.initial, scanning.synced, Nat.zero_le _, fun _ => Or.inr ⟨_, failed⟩⟩
        · rw [Reader.pieces,
            blockPieces_of_short (show ([] : Bytes).length < kHeaderSize from headerSize_pos)]
          rfl
      · rename_i data file reads
        have loaded := scanning.fetched reads
        have pieces := Reader.pieces_fetched short more reads
        split
        · rename_i unheaded
          have small : kHeaderSize ≤ kBlockSize := by decide
          have isLast : (reader.fetched data file).eof = true :=
            decide_eq_true (unheaded.trans_le small)
          have nothing : (reader.fetched data file).pieces = [] := by
            rw [Reader.pieces, blockPieces_of_short
              (show (reader.fetched data file).buffer.length < kHeaderSize from unheaded),
              if_pos isLast]
            rfl
          refine Or.inl ⟨{ reader.fetched data file with buffer := [] }, rfl, ⟨?_, ?_, ?_, ?_⟩⟩
          · rw [← pieces, nothing]
          · exact ⟨loaded.initial, loaded.synced, Nat.zero_le _, loaded.ended⟩
          · rw [Reader.pieces,
              blockPieces_of_short (show ([] : Bytes).length < kHeaderSize from headerSize_pos)]
            exact if_pos isLast
          · refine Or.inl (Or.inl ?_)
            obtain ⟨isData, _⟩ := SequentialFile.read_length reads
            rw [Reader.unread, if_pos ⟨short, more⟩]
            rw [isData, List.length_take] at unheaded
            omega
        · rename_i headed
          have headed := Nat.le_of_not_lt headed
          rcases loaded.parsePhysicalRecord headed with
            ⟨after, parses, ends, _⟩ | ⟨piece, after, parses, consumes⟩
          · refine Or.inl ⟨after, parses, ⟨?_, ends.scanning, ends.stays, ?_⟩⟩
            · rw [← pieces, ends.nothing]
            · refine ends.reason.imp_left fun exhausted => ?_
              rw [Reader.Exhausted, Reader.unread_fetched short more reads headed] at exhausted
              exact exhausted
          · refine Or.inr ⟨piece, after, parses, ⟨?_, consumes.scanning, consumes.reports,
              consumes.zero⟩⟩
            rw [← pieces, consumes.pieces]
  · rename_i long
    rcases scanning.parsePhysicalRecord (Nat.le_of_not_lt long) with
      ⟨after, parses, ends, _⟩ | consumes
    · exact Or.inl ⟨after, parses, ends⟩
    · exact Or.inr consumes

/-! ### Turns of the loop -/

/-- What one turn of the loop of `ReadRecord` makes of the physical record it got: the result of the
call, or what the next turn starts from. -/
def Reader.dispatch (pending : Partial) (recordType : Nat) (fragment : Bytes) (reader : Reader) :
    (Option Bytes × Reader) ⊕ (Partial × Reader) :=
  let physicalRecordOffset :=
    sub64 (sub64 (sub64 reader.endOfBufferOffset reader.buffer.length) kHeaderSize) fragment.length
  let dropped : Partial := { pending with inFragmentedRecord := false, scratch := [] }
  if recordType = RecordType.kFullType.code then
    let reader := reader.reportPartial pending "partial record without end(1)"
    .inl (some fragment, { reader with lastRecordOffset := physicalRecordOffset })
  else if recordType = RecordType.kFirstType.code then
    .inr (⟨true, physicalRecordOffset, fragment⟩,
      reader.reportPartial pending "partial record without end(2)")
  else if recordType = RecordType.kMiddleType.code then
    if pending.inFragmentedRecord then
      .inr ({ pending with scratch := pending.scratch ++ fragment }, reader)
    else
      .inr (pending,
        reader.reportCorruption fragment.length "missing start of fragmented record(1)")
  else if recordType = RecordType.kLastType.code then
    if pending.inFragmentedRecord then
      .inl (some (pending.scratch ++ fragment),
        { reader with lastRecordOffset := pending.prospectiveRecordOffset })
    else
      .inr (pending,
        reader.reportCorruption fragment.length "missing start of fragmented record(2)")
  else if recordType = kEof then .inl (none, reader)
  else if recordType = kBadRecord then
    if pending.inFragmentedRecord then
      .inr (dropped, reader.reportCorruption pending.scratch.length "error in middle of record")
    else .inr (pending, reader)
  else
    .inr (dropped, reader.reportCorruption
      (fragment.length + if pending.inFragmentedRecord then pending.scratch.length else 0)
      ("unknown record type " ++ toString recordType))

/-- One turn of the loop of `ReadRecord` for a reader that started at the beginning of the file. -/
def Reader.turn (pending : Partial) (reader : Reader) :
    (Option Bytes × Reader) ⊕ (Partial × Reader) :=
  let (recordType, fragment, reader) := reader.readPhysicalRecord
  reader.dispatch pending recordType fragment

/-- The loop takes turns until one of them has a result. -/
theorem Reader.readRecordLoop_succ
    (synced : reader.readPhysicalRecord.2.2.resyncing = false) (turns : Nat) (pending : Partial) :
    reader.readRecordLoop (turns + 1) pending =
      match reader.turn pending with
      | .inl result => result
      | .inr (pending, reader) => reader.readRecordLoop turns pending := by
  rw [Reader.readRecordLoop, Reader.turn]
  generalize reader.readPhysicalRecord = got at synced ⊢
  obtain ⟨recordType, fragment, after⟩ := got
  obtain ⟨file, checksum, buffer, eof, lastRecordOffset, endOfBufferOffset, initialOffset,
    resyncing, reports⟩ := after
  cases synced
  simp only [Bool.false_eq_true, false_and, if_false, Reader.dispatch]
  split_ifs <;> rfl

/-- The states in which the turns of one call of `ReadRecord` start. -/
inductive Reader.Turns (reader : Reader) : Partial → Reader → Prop
  | start : Turns reader {} reader
  | next {pending pending' : Partial} {middle after : Reader} (before : Turns reader pending middle)
      (goesOn : middle.turn pending = .inr (pending', after)) : Turns reader pending' after

/-- The reader after a number of calls of `ReadRecord`. -/
def Reader.afterCalls (reader : Reader) (calls : Nat) : Reader :=
  (fun reader : Reader => reader.readRecord.2)^[calls] reader

/-- The reader has told its reporter more, and nothing else of it but the offset of the last record
has changed. -/
def Reader.Told (reader after : Reader) (more : List (Nat × DropReason)) : Prop :=
  ∃ offset, after = { reader with reports := reader.reports ++ more, lastRecordOffset := offset }

section Told

variable {reader after : Reader} {more : List (Nat × DropReason)}

theorem Reader.Told.pieces (told : reader.Told after more) : after.pieces = reader.pieces := by
  obtain ⟨offset, rfl⟩ := told
  rfl

theorem Reader.Told.reports (told : reader.Told after more) :
    after.reports = reader.reports ++ more := by
  obtain ⟨offset, rfl⟩ := told
  rfl

theorem Reader.Told.scanning (told : reader.Told after more) (scanning : reader.Scanning) :
    after.Scanning := by
  obtain ⟨offset, rfl⟩ := told
  refine ⟨scanning.initial, scanning.synced, scanning.buffered, fun last => ?_⟩
  refine (scanning.ended last).imp_right fun failed => ?_
  obtain ⟨bytes, member⟩ := failed
  exact ⟨bytes, List.mem_append_left _ member⟩

theorem Reader.told_nil (reader : Reader) (offset : Nat) :
    reader.Told { reader with lastRecordOffset := offset } [] := by
  refine ⟨offset, ?_⟩
  rw [List.append_nil]

theorem Reader.told_reportCorruption (initial : reader.initialOffset = 0) (bytes : Nat)
    (message : String) :
    reader.Told (reader.reportCorruption bytes message) [(bytes, .corruption message)] :=
  ⟨reader.lastRecordOffset, Reader.reportDrop_of_initial initial bytes _⟩

theorem Reader.told_reportPartial (initial : reader.initialOffset = 0) (pending : Partial)
    (message : String) (offset : Nat) :
    ∃ more, reader.Told
      { reader.reportPartial pending message with lastRecordOffset := offset } more := by
  rw [Reader.reportPartial]
  split
  · rw [Reader.reportCorruption, Reader.reportDrop_of_initial initial]
    exact ⟨_, offset, rfl⟩
  · exact ⟨[], reader.told_nil offset⟩

end Told

/-- A piece that is an accepted physical record. -/
def Piece.Holds (piece : Piece) (type : RecordType) (payload : Bytes) : Prop :=
  piece.typeByte = UInt8.ofNat type.code ∧ piece.verdict = .accepted payload

theorem Piece.holds_of_code {type : RecordType} (isCode : piece.code = type.code) :
    piece.Holds type piece.payload := by
  have small : type.code < 128 := by cases type <;> decide
  have notBad : type.code ≠ kBadRecord := by cases type <;> decide
  rw [Piece.code] at isCode
  rw [Piece.Holds, Piece.payload]
  cases isVerdict : piece.verdict with
  | accepted payload =>
    simp only [isVerdict] at isCode
    refine ⟨?_, rfl⟩
    have value := typeOfByte_of_lt (isCode ▸ small)
    rw [isCode] at value
    rw [value, UInt8.ofNat_toNat]
  | zeroLength =>
    simp only [isVerdict] at isCode
    exact absurd isCode.symm notBad
  | badLength size =>
    simp only [isVerdict] at isCode
    exact absurd isCode.symm notBad
  | badChecksum size =>
    simp only [isVerdict] at isCode
    exact absurd isCode.symm notBad

/-- A first fragment and the middle ones behind it, with their payloads taken together. -/
inductive Opened : Bytes → List Piece → Prop
  | first {piece : Piece} {payload : Bytes} (holds : piece.Holds .kFirstType payload) :
      Opened payload [piece]
  | middle {scratch payload : Bytes} {pieces : List Piece} {piece : Piece}
      (opened : Opened scratch pieces) (holds : piece.Holds .kMiddleType payload) :
      Opened (scratch ++ payload) (pieces ++ [piece])

/-- The pieces of a record: a full one, or a first fragment, middle ones and a last one. -/
inductive Joined : Bytes → List Piece → Prop
  | full {piece : Piece} {payload : Bytes} (holds : piece.Holds .kFullType payload) :
      Joined payload [piece]
  | last {scratch payload : Bytes} {pieces : List Piece} {piece : Piece}
      (opened : Opened scratch pieces) (holds : piece.Holds .kLastType payload) :
      Joined (scratch ++ payload) (pieces ++ [piece])

/-- The pieces that what is remembered between turns comes from. -/
def Partial.From (pending : Partial) (pieces : List Piece) : Prop :=
  (pending.inFragmentedRecord = false ∧ pieces = []) ∨
    (pending.inFragmentedRecord = true ∧ Opened pending.scratch pieces)

variable {pending : Partial}

/-- A turn with a piece returns a record whose last piece it is, ends the call, or goes on. What is
remembered comes from the last pieces. -/
theorem Reader.dispatch_from {pieces : List Piece} (isFrom : pending.From pieces)
    (piece : Piece) (initial : reader.initialOffset = 0) :
    (∃ record after more skipped joined,
      reader.dispatch pending piece.code piece.payload = .inl (some record, after) ∧
        reader.Told after more ∧ pieces ++ [piece] = skipped ++ joined ∧ Joined record joined) ∨
    (reader.dispatch pending piece.code piece.payload = .inl (none, reader)) ∨
    ∃ pending' after more skipped kept,
      reader.dispatch pending piece.code piece.payload = .inr (pending', after) ∧
        reader.Told after more ∧ pieces ++ [piece] = skipped ++ kept ∧ pending'.From kept := by
  have same : reader.Told reader [] := reader.told_nil reader.lastRecordOffset
  have none : ∀ other : List Piece, other = other ++ [] := fun other => (List.append_nil _).symm
  rw [Reader.dispatch]
  split
  · rename_i isFull
    obtain ⟨more, told⟩ := Reader.told_reportPartial initial pending "partial record without end(1)"
      (sub64 (sub64 (sub64 reader.endOfBufferOffset reader.buffer.length) kHeaderSize)
        piece.payload.length)
    exact Or.inl ⟨_, _, more, pieces, [piece], rfl, told, rfl, .full (Piece.holds_of_code isFull)⟩
  split
  · rename_i isFirst
    obtain ⟨more, told⟩ := Reader.told_reportPartial initial pending "partial record without end(2)"
      (reader.reportPartial pending "partial record without end(2)").lastRecordOffset
    exact Or.inr (Or.inr ⟨_, _, more, pieces, [piece], rfl, told, rfl,
      Or.inr ⟨rfl, .first (Piece.holds_of_code isFirst)⟩⟩)
  split
  · rename_i isMiddle
    rcases isFrom with ⟨notPending, rfl⟩ | ⟨isPending, opened⟩
    · rw [if_neg (by rw [notPending]; exact Bool.false_ne_true)]
      exact Or.inr (Or.inr ⟨_, _, _, [piece], [], rfl,
        Reader.told_reportCorruption initial _ _, none _, Or.inl ⟨notPending, rfl⟩⟩)
    · rw [if_pos isPending]
      exact Or.inr (Or.inr ⟨_, _, _, [], pieces ++ [piece], rfl, same, rfl,
        Or.inr ⟨isPending, .middle opened (Piece.holds_of_code isMiddle)⟩⟩)
  split
  · rename_i isLast
    rcases isFrom with ⟨notPending, rfl⟩ | ⟨isPending, opened⟩
    · rw [if_neg (by rw [notPending]; exact Bool.false_ne_true)]
      exact Or.inr (Or.inr ⟨_, _, _, [piece], [], rfl,
        Reader.told_reportCorruption initial _ _, none _, Or.inl ⟨notPending, rfl⟩⟩)
    · rw [if_pos isPending]
      exact Or.inl ⟨_, _, [], [], pieces ++ [piece], rfl, reader.told_nil _, rfl,
        .last opened (Piece.holds_of_code isLast)⟩
  split
  · exact Or.inr (Or.inl rfl)
  split
  · split
    · exact Or.inr (Or.inr ⟨_, _, _, pieces ++ [piece], [], rfl,
        Reader.told_reportCorruption initial _ _, none _, Or.inl ⟨rfl, rfl⟩⟩)
    · rename_i notPending
      exact Or.inr (Or.inr ⟨_, _, _, pieces ++ [piece], [], rfl, same, none _,
        Or.inl ⟨Bool.eq_false_iff.mpr notPending, rfl⟩⟩)
  · exact Or.inr (Or.inr ⟨_, _, _, pieces ++ [piece], [], rfl,
      Reader.told_reportCorruption initial _ _, none _, Or.inl ⟨rfl, rfl⟩⟩)

/-- A turn ends the input or dispatches the next piece. -/
theorem Reader.Scanning.turn (scanning : reader.Scanning) (pending : Partial) :
    (∃ after, reader.turn pending = .inl (none, after) ∧ reader.EndsInput after) ∨
      ∃ piece middle, reader.Consumes piece middle ∧
        reader.turn pending = middle.dispatch pending piece.code piece.payload := by
  rw [Reader.turn]
  rcases scanning.readPhysicalRecord with ⟨after, reads, ends⟩ | ⟨piece, middle, reads, consumes⟩
  · rw [reads]
    exact Or.inl ⟨after, rfl, ends⟩
  · rw [reads]
    exact Or.inr ⟨piece, middle, consumes, rfl⟩

theorem Reader.Scanning.synced_read (scanning : reader.Scanning) :
    reader.readPhysicalRecord.2.2.resyncing = false := by
  rcases scanning.readPhysicalRecord with ⟨after, reads, ends⟩ | ⟨piece, middle, reads, consumes⟩
  · rw [reads]
    exact ends.scanning.synced
  · rw [reads]
    exact consumes.scanning.synced

/-- How a call of `ReadRecord` ends: with a record whose pieces were just consumed, or without
one. -/
structure Reader.Returns (pieces : List Piece) (result : Option Bytes) (after : Reader) : Prop where
  scanning : after.Scanning
  record : ∀ record, result = some record →
    ∃ skipped joined, pieces = skipped ++ joined ++ after.pieces ∧ Joined record joined

/-- The loop of `ReadRecord` with enough turns returns what its last turn does. -/
theorem Reader.Scanning.readRecordLoop {turns : Nat} (scanning : reader.Scanning)
    {pieces : List Piece} (isFrom : pending.From pieces)
    (enough : reader.pieces.length < turns) {start : Reader} (turned : start.Turns pending reader) :
    Reader.Returns (pieces ++ reader.pieces) (reader.readRecordLoop turns pending).1
        (reader.readRecordLoop turns pending).2 ∧
      ∃ pending' last, start.Turns pending' last ∧
        last.turn pending' = .inl (reader.readRecordLoop turns pending) ∧ last.Scanning := by
  induction turns generalizing reader pending pieces with
  | zero => exact absurd enough (Nat.not_lt_zero _)
  | succ turns inductionHypothesis =>
    rw [Reader.readRecordLoop_succ scanning.synced_read]
    rcases scanning.turn pending with ⟨after, turns', ends⟩ | ⟨piece, middle, consumes, turns'⟩
    · rw [turns']
      exact ⟨⟨ends.scanning, fun record impossible => (by cases impossible)⟩, pending, reader, turned,
        turns', scanning⟩
    have split : pieces ++ reader.pieces = pieces ++ [piece] ++ middle.pieces := by
      rw [consumes.pieces, List.append_assoc]
      rfl
    rcases Reader.dispatch_from isFrom piece consumes.scanning.initial with
      ⟨record, after, more, skipped, joined, dispatches, told, isSplit, isJoined⟩ |
        dispatches |
          ⟨pending', after, more, skipped, kept, dispatches, told, isSplit, isFrom'⟩
    · rw [dispatches] at turns'
      rw [turns']
      refine ⟨⟨told.scanning consumes.scanning, fun other isRecord => ?_⟩, pending, reader, turned,
        turns', scanning⟩
      cases isRecord
      refine ⟨skipped, joined, ?_, isJoined⟩
      rw [split, isSplit, told.pieces]
    · rw [dispatches] at turns'
      rw [turns']
      exact ⟨⟨consumes.scanning, fun record impossible => (by cases impossible)⟩, pending, reader,
        turned, turns', scanning⟩
    · rw [dispatches] at turns'
      rw [turns']
      have fewer : after.pieces.length < turns := by
        rw [told.pieces]
        rw [consumes.pieces, List.length_cons] at enough
        exact Nat.lt_of_succ_lt_succ enough
      obtain ⟨returns, last⟩ := inductionHypothesis (told.scanning consumes.scanning) isFrom' fewer
        (.next turned turns')
      refine ⟨⟨returns.scanning, fun record isRecord => ?_⟩, last⟩
      obtain ⟨between, joined, isKept, isJoined⟩ := returns.record record isRecord
      refine ⟨skipped ++ between, joined, ?_, isJoined⟩
      rw [split, isSplit, ← told.pieces, List.append_assoc, isKept, List.append_assoc,
        List.append_assoc, List.append_assoc]

theorem length_blockPiecesLoop (checksum last : Bool) (turns position : Nat) (block : Bytes) :
    (blockPiecesLoop checksum last turns position block).length ≤ block.length := by
  induction turns generalizing position block with
  | zero => exact Nat.zero_le _
  | succ turns inductionHypothesis =>
    rw [blockPiecesLoop]
    cases found : pieceAt checksum last position block with
    | none => exact Nat.zero_le _
    | some pair =>
      simp only [List.length_cons]
      exact Nat.lt_of_le_of_lt (inductionHypothesis _ pair.2) (pieceAt_length found)

theorem length_filePiecesLoop (checksum : Bool) (turns position : Nat) (file : SequentialFile) :
    (filePiecesLoop checksum turns position file).length ≤ file.remaining.length := by
  induction turns generalizing position file with
  | zero => exact Nat.zero_le _
  | succ turns inductionHypothesis =>
    rw [filePiecesLoop]
    cases reads : file.read kBlockSize with
    | mk read after =>
      cases read with
      | none => exact Nat.zero_le _
      | some data =>
        obtain ⟨isData, isRest⟩ := SequentialFile.read_length reads
        have total : data.length + after.remaining.length = file.remaining.length := by
          rw [isData, isRest, ← List.length_append, List.take_append_drop]
        have block := fun last => length_blockPiecesLoop checksum last data.length position data
        simp only
        split
        · exact (block true).trans (total ▸ Nat.le_add_right _ _)
        · rw [List.length_append, ← total]
          exact Nat.add_le_add (block false) (inductionHypothesis _ after)

theorem Reader.length_pieces (reader : Reader) :
    reader.pieces.length ≤ reader.buffer.length + reader.file.remaining.length := by
  rw [Reader.pieces, List.length_append]
  refine Nat.add_le_add (length_blockPiecesLoop _ _ _ _ _) ?_
  split
  · exact Nat.zero_le _
  · exact length_filePiecesLoop _ _ _ _

theorem Reader.Scanning.readRecord_eq (scanning : reader.Scanning) :
    reader.readRecord = reader.readRecordLoop
      (reader.buffer.length + reader.file.remaining.length + 1) {} := by
  have notSkipped : ¬ reader.lastRecordOffset < reader.initialOffset := by
    rw [scanning.initial]
    exact Nat.not_lt_zero _
  rw [Reader.readRecord]
  simp only [if_neg notSkipped, if_true]

/-- A call of `ReadRecord` returns what its last turn does. -/
theorem Reader.Scanning.readRecord (scanning : reader.Scanning) :
    Reader.Returns reader.pieces reader.readRecord.1 reader.readRecord.2 ∧
      ∃ pending last, reader.Turns pending last ∧ last.turn pending = .inl reader.readRecord ∧
        last.Scanning := by
  rw [scanning.readRecord_eq]
  exact scanning.readRecordLoop (Or.inl ⟨rfl, rfl⟩) (Nat.lt_succ_of_le reader.length_pieces) .start

/-! ### No record is put together from pieces that do not belong together -/

/-- Records put together from stretches of the pieces, in order. -/
inductive Picks : List Bytes → List Piece → Prop
  | nil (pieces : List Piece) : Picks [] pieces
  | cons {record : Bytes} {records : List Bytes} (skipped : List Piece) {joined rest : List Piece}
      (isJoined : Joined record joined) (picks : Picks records rest) :
      Picks (record :: records) (skipped ++ joined ++ rest)

theorem Joined.length_pos {record : Bytes} {joined : List Piece} (isJoined : Joined record joined) :
    0 < joined.length := by
  cases isJoined with
  | full => exact Nat.one_pos
  | last => exact List.length_append ▸ Nat.succ_pos _

theorem Reader.Scanning.readRecords (scanning : reader.Scanning) (calls : Nat) :
    Picks (reader.readRecords calls).1 reader.pieces ∧
      (reader.pieces.length < calls → (reader.readRecords calls).2.1 = true) := by
  induction calls generalizing reader with
  | zero => exact ⟨.nil _, fun impossible => absurd impossible (Nat.not_lt_zero _)⟩
  | succ calls inductionHypothesis =>
    have returns := scanning.readRecord.1
    rw [Reader.readRecords]
    cases isResult : reader.readRecord with
    | mk result after =>
      rw [isResult] at returns
      cases result with
      | none => exact ⟨.nil _, fun _ => rfl⟩
      | some record =>
        obtain ⟨skipped, joined, split, isJoined⟩ := returns.record record rfl
        obtain ⟨picks, ends⟩ := inductionHypothesis returns.scanning
        rw [split]
        refine ⟨.cons skipped isJoined picks, fun enough => ends ?_⟩
        have positive := isJoined.length_pos
        rw [List.length_append, List.length_append] at enough
        omega

/-- A physical record of the file whose checksum holds. -/
structure PhysicalRecord (contents : Bytes) (position : Nat) (type : RecordType) (payload : Bytes) :
    Prop where
  typeByte : headerType (contents.drop position) = UInt8.ofNat type.code
  length : headerLength (contents.drop position) = payload.length
  whole : position + kHeaderSize + payload.length ≤ contents.length
  bytes : (contents.drop (position + kHeaderSize)).take payload.length = payload
  checksum : ChecksumHolds (contents.drop position)
  block : position % kBlockSize + kHeaderSize + payload.length ≤ kBlockSize

theorem getD_append_of_lt {bytes tail : Bytes} {index : Nat} (inside : index < bytes.length) :
    (bytes ++ tail).getD index 0 = bytes.getD index 0 := by
  rw [List.getD_eq_getElem?_getD, List.getD_eq_getElem?_getD, List.getElem?_append_left inside]

theorem headerLength_append (headed : kHeaderSize ≤ block.length) (tail : Bytes) :
    headerLength (block ++ tail) = headerLength block := by
  have size : kHeaderSize = 7 := rfl
  rw [headerLength, headerLength, getD_append_of_lt (by omega), getD_append_of_lt (by omega)]

theorem headerType_append (headed : kHeaderSize ≤ block.length) (tail : Bytes) :
    headerType (block ++ tail) = headerType block := by
  have size : kHeaderSize = 7 := rfl
  rw [headerType, headerType, getD_append_of_lt (by omega)]

theorem checksumHolds_append
    (whole : kHeaderSize + headerLength block ≤ block.length) (tail : Bytes) :
    ChecksumHolds (block ++ tail) ↔ ChecksumHolds block := by
  have size : kHeaderSize = 7 := rfl
  have short : (block ++ tail).take 4 = block.take 4 :=
    List.take_append_of_le_length (by omega)
  have checked : ((block ++ tail).drop 6).take (1 + headerLength block) =
      (block.drop 6).take (1 + headerLength block) := by
    rw [List.drop_append_of_le_length (by omega)]
    exact List.take_append_of_le_length (by rw [List.length_drop]; omega)
  rw [ChecksumHolds, ChecksumHolds, headerLength_append (by omega), checked, decodeFixed32,
    decodeFixed32, short]

section Physical

variable {contents block tail rest : Bytes} {position : Nat} {last : Bool} {piece : Piece}

/-- An accepted piece is a physical record of the file, and what is left of the block is where it
says. -/
theorem pieceAt_physical (inFile : contents.drop position = block ++ tail)
    (inBlock : position % kBlockSize + block.length ≤ kBlockSize)
    (found : pieceAt true last position block = some (piece, rest)) :
    (∀ type payload, piece.Holds type payload →
        PhysicalRecord contents piece.position type payload) ∧
      contents.drop (position + (block.length - rest.length)) = rest ++ tail ∧
        (position + (block.length - rest.length)) % kBlockSize + rest.length ≤ kBlockSize := by
  have size : kHeaderSize = 7 := rfl
  have blockSize : kBlockSize = 32768 := rfl
  have dropped : contents.drop (position + (block.length - ([] : Bytes).length)) = [] ++ tail := by
    rw [← List.drop_drop, inFile]
    exact List.drop_left
  have within : (position + (block.length - ([] : Bytes).length)) % kBlockSize +
      ([] : Bytes).length ≤ kBlockSize := by
    rw [List.length_nil, Nat.add_zero]
    exact (Nat.mod_lt _ (by decide)).le
  rw [pieceAt] at found
  split at found
  · cases found
  rename_i headed
  have headed := Nat.le_of_not_lt headed
  split at found
  · split at found
    · cases found
    · cases found
      exact ⟨fun type payload holds => (by cases holds.2), dropped, within⟩
  rename_i long
  have long := Nat.le_of_not_lt long
  split at found
  · cases found
    exact ⟨fun type payload holds => (by cases holds.2), dropped, within⟩
  split at found
  · cases found
    exact ⟨fun type payload holds => (by cases holds.2), dropped, within⟩
  rename_i accepted
  cases found
  have rests : block.length - (block.drop (kHeaderSize + headerLength block)).length =
      kHeaderSize + headerLength block := by
    rw [List.length_drop]
    omega
  have total : contents.length - position = block.length + tail.length := by
    rw [← List.length_drop, inFile, List.length_append]
  have payloadLength : ((block.drop kHeaderSize).take (headerLength block)).length =
      headerLength block := by
    rw [List.length_take, List.length_drop]
    omega
  rw [rests]
  refine ⟨fun type payload holds => ?_, ?_, ?_⟩
  · obtain ⟨isType, isPayload⟩ := holds
    have isPayload := Verdict.accepted.inj isPayload
    rw [← isPayload]
    refine ⟨?_, ?_, ?_, ?_, ?_, ?_⟩
    · rw [inFile, headerType_append headed]
      exact isType
    · rw [inFile, headerLength_append headed, payloadLength]
    · show position + kHeaderSize + _ ≤ _
      rw [payloadLength]
      omega
    · rw [payloadLength, ← List.drop_drop, inFile, List.drop_append_of_le_length headed,
        List.take_append_of_le_length]
      rw [List.length_drop]
      omega
    · rw [inFile]
      refine (checksumHolds_append long tail).mpr ?_
      by_contra fails
      exact accepted ⟨rfl, fails⟩
    · show position % kBlockSize + kHeaderSize + _ ≤ _
      rw [payloadLength]
      omega
  · rw [← List.drop_drop, inFile, List.drop_append_of_le_length long]
  · rw [List.length_drop]
    rw [blockSize] at inBlock ⊢
    omega

theorem blockPiecesLoop_physical {turns : Nat} (inFile : contents.drop position = block ++ tail)
    (inBlock : position % kBlockSize + block.length ≤ kBlockSize) :
    ∀ piece ∈ blockPiecesLoop true last turns position block, ∀ type payload,
      piece.Holds type payload → PhysicalRecord contents piece.position type payload := by
  induction turns generalizing position block with
  | zero => exact fun piece member => absurd member List.not_mem_nil
  | succ turns inductionHypothesis =>
    rw [blockPiecesLoop]
    cases found : pieceAt true last position block with
    | none => exact fun piece member => absurd member List.not_mem_nil
    | some pair =>
      obtain ⟨physical, nextInFile, nextInBlock⟩ := pieceAt_physical inFile inBlock found
      intro piece member
      rcases List.mem_cons.mp member with rfl | later
      · exact physical
      · exact inductionHypothesis nextInFile nextInBlock piece later

end Physical

theorem filePiecesLoop_physical {contents : Bytes} {turns position : Nat} {file : SequentialFile}
    (inFile : contents.drop position = file.remaining) (aligned : position % kBlockSize = 0) :
    ∀ piece ∈ filePiecesLoop true turns position file, ∀ type payload,
      piece.Holds type payload → PhysicalRecord contents piece.position type payload := by
  induction turns generalizing position file with
  | zero => exact fun piece member => absurd member List.not_mem_nil
  | succ turns inductionHypothesis =>
    rw [filePiecesLoop]
    cases reads : file.read kBlockSize with
    | mk read after =>
      cases read with
      | none => exact fun piece member => absurd member List.not_mem_nil
      | some data =>
        obtain ⟨isData, isRest⟩ := SequentialFile.read_length reads
        have split : contents.drop position = data ++ after.remaining := by
          rw [inFile, isData, isRest, List.take_append_drop]
        have small : data.length ≤ kBlockSize := by
          rw [isData, List.length_take]
          exact Nat.min_le_left _ _
        have inBlock : position % kBlockSize + data.length ≤ kBlockSize := by
          rw [aligned, Nat.zero_add]
          exact small
        simp only
        split
        · exact blockPiecesLoop_physical split inBlock
        · rename_i whole
          have isWhole : data.length = kBlockSize := Nat.le_antisymm small (Nat.le_of_not_lt whole)
          intro piece member
          rcases List.mem_append.mp member with inThis | later
          · exact blockPiecesLoop_physical split inBlock piece inThis
          · refine inductionHypothesis ?_ ?_ piece later
            · rw [← List.drop_drop, split, List.drop_left]
            · rw [isWhole, Nat.add_mod_right, aligned]

theorem Reader.scanning_new (file : SequentialFile) (checksum : Bool) :
    (Reader.new file checksum 0).Scanning :=
  ⟨rfl, rfl, le_rfl, fun impossible => (by cases impossible)⟩

theorem Reader.pieces_new (file : SequentialFile) (checksum : Bool) :
    (Reader.new file checksum 0).pieces = filePieces checksum 0 file :=
  rfl

/-- For every file, calls of `ReadRecord` with checksums on come to an end, and every record they
return is the payload of a full physical record, or those of a first, of middle and of a last one
with nothing between them; the checksums of these physical records hold. -/
theorem readRecords_joined (file : SequentialFile) :
    (∃ calls, ((Reader.new file true 0).readRecords calls).2.1 = true) ∧
      (∀ calls, Picks ((Reader.new file true 0).readRecords calls).1 (filePieces true 0 file)) ∧
        ∀ piece ∈ filePieces true 0 file, ∀ type payload, piece.Holds type payload →
          PhysicalRecord file.remaining piece.position type payload := by
  have scanning := Reader.scanning_new file true
  refine ⟨⟨_, (scanning.readRecords _).2 (Nat.lt_succ_self _)⟩, fun calls => ?_, ?_⟩
  · rw [← Reader.pieces_new]
    exact (scanning.readRecords calls).1
  · exact filePiecesLoop_physical List.drop_zero (Nat.zero_mod _)

/-! ### The end of the input -/

/-- Whether `ReadRecord` is joining fragments after a piece. -/
def Piece.opens (joining : Bool) (piece : Piece) : Bool :=
  if piece.code = RecordType.kFirstType.code then true
  else if piece.code = RecordType.kMiddleType.code then joining
  else false

/-- Whether `ReadRecord` is joining fragments after the pieces. -/
def joining (pieces : List Piece) : Bool := pieces.foldl Piece.opens false

/-- A turn with a piece has a result, or goes on; the next turn joins fragments if the piece leaves
some open. -/
theorem Reader.dispatch_opens (pending : Partial) (piece : Piece)
    (initial : reader.initialOffset = 0) :
    (∃ result after more,
      reader.dispatch pending piece.code piece.payload = .inl (result, after) ∧
        reader.Told after more ∧ piece.opens pending.inFragmentedRecord = false) ∨
    ∃ pending' after more,
      reader.dispatch pending piece.code piece.payload = .inr (pending', after) ∧
        reader.Told after more ∧
          pending'.inFragmentedRecord = piece.opens pending.inFragmentedRecord := by
  have same : reader.Told reader [] := reader.told_nil reader.lastRecordOffset
  have told := fun bytes message => @Reader.told_reportCorruption reader initial bytes message
  rw [Reader.dispatch, Piece.opens]
  split
  · rename_i isFull
    obtain ⟨more, told⟩ := Reader.told_reportPartial initial pending "partial record without end(1)"
      (sub64 (sub64 (sub64 reader.endOfBufferOffset reader.buffer.length) kHeaderSize)
        piece.payload.length)
    rw [isFull]
    exact Or.inl ⟨_, _, more, rfl, told, rfl⟩
  split
  · obtain ⟨more, told⟩ := Reader.told_reportPartial initial pending "partial record without end(2)"
      (reader.reportPartial pending "partial record without end(2)").lastRecordOffset
    exact Or.inr ⟨_, _, more, rfl, told, rfl⟩
  split
  · split
    · exact Or.inr ⟨_, _, _, rfl, same, rfl⟩
    · exact Or.inr ⟨_, _, _, rfl, told _ _, rfl⟩
  split
  · split
    · exact Or.inl ⟨_, _, _, rfl, reader.told_nil _, rfl⟩
    · rename_i notPending
      exact Or.inr ⟨_, _, _, rfl, told _ _, Bool.eq_false_iff.mpr notPending⟩
  split
  · exact Or.inl ⟨_, _, _, rfl, same, rfl⟩
  split
  · split
    · exact Or.inr ⟨_, _, _, rfl, told _ _, rfl⟩
    · rename_i notPending
      exact Or.inr ⟨_, _, _, rfl, same, Bool.eq_false_iff.mpr notPending⟩
  · exact Or.inr ⟨_, _, _, rfl, told _ _, rfl⟩

/-- The reader stands before the turn that follows some of the pieces. -/
structure Reader.Stands (all : List Piece) (pending : Partial) (reader : Reader) : Prop where
  scanning : reader.Scanning
  before : ∃ before, all = before ++ reader.pieces ∧
    (reader.pieces = [] ∨ pending.inFragmentedRecord = joining before)

theorem joining_append (before : List Piece) (piece : Piece) :
    joining (before ++ [piece]) = piece.opens (joining before) := by
  rw [joining, List.foldl_append]
  rfl

section Stands

variable {all : List Piece} {pending pending' : Partial} {reader after : Reader}

theorem Reader.Stands.consumed (stands : reader.Stands all pending) {piece : Piece} {middle : Reader}
    (consumes : reader.Consumes piece middle) :
    ∃ before, all = before ++ [piece] ++ middle.pieces ∧
      joining (before ++ [piece]) = piece.opens pending.inFragmentedRecord := by
  obtain ⟨before, split, empty | isJoining⟩ := stands.before
  · rw [consumes.pieces] at empty
    cases empty
  refine ⟨before, ?_, ?_⟩
  · rw [split, consumes.pieces, List.append_assoc]
    rfl
  · rw [joining_append, isJoining]

/-- A turn that goes on leads to the next piece. -/
theorem Reader.Stands.goesOn (stands : reader.Stands all pending)
    (goesOn : reader.turn pending = .inr (pending', after)) : after.Stands all pending' := by
  rcases stands.scanning.turn pending with ⟨ended, turns, _⟩ | ⟨piece, middle, consumes, turns⟩
  · rw [goesOn] at turns
    cases turns
  obtain ⟨before, split, isJoining⟩ := stands.consumed consumes
  rcases Reader.dispatch_opens pending piece consumes.scanning.initial with
    ⟨_, _, _, dispatches, _⟩ | ⟨_, _, more, dispatches, told, opens⟩
  · rw [goesOn, dispatches] at turns
    cases turns
  · rw [goesOn, dispatches] at turns
    cases turns
    refine ⟨told.scanning consumes.scanning, before ++ [piece], ?_, Or.inr ?_⟩
    · rw [told.pieces, split]
    · rw [isJoining, opens]

/-- The next call starts behind the piece that ended the one before. -/
theorem Reader.Stands.returns (stands : reader.Stands all pending) {result : Option Bytes}
    (returns : reader.turn pending = .inl (result, after)) : after.Stands all {} := by
  rcases stands.scanning.turn pending with ⟨ended, turns, ends⟩ | ⟨piece, middle, consumes, turns⟩
  · rw [returns] at turns
    cases turns
    obtain ⟨before, split, _⟩ := stands.before
    rw [ends.nothing] at split
    refine ⟨ends.scanning, before, ?_, Or.inl ends.stays⟩
    rw [ends.stays, split]
  obtain ⟨before, split, isJoining⟩ := stands.consumed consumes
  rcases Reader.dispatch_opens pending piece consumes.scanning.initial with
    ⟨_, _, more, dispatches, told, opens⟩ | ⟨_, _, _, dispatches, _⟩
  · rw [returns, dispatches] at turns
    cases turns
    refine ⟨told.scanning consumes.scanning, before ++ [piece], ?_, Or.inr ?_⟩
    · rw [told.pieces, split]
    · rw [isJoining, opens]
  · rw [returns, dispatches] at turns
    cases turns

theorem Reader.Stands.turns {start : Reader} (stands : start.Stands all {})
    (turned : start.Turns pending reader) : reader.Stands all pending := by
  induction turned with
  | start => exact stands
  | next _ goesOn inductionHypothesis => exact inductionHypothesis.goesOn goesOn

theorem Reader.Stands.readRecord (stands : reader.Stands all {}) :
    reader.readRecord.2.Stands all {} := by
  obtain ⟨_, pending, last, turned, returns, _⟩ := stands.scanning.readRecord
  exact (stands.turns turned).returns returns

end Stands

theorem Reader.stands_afterCalls (file : SequentialFile) (checksum : Bool) (calls : Nat) :
    ((Reader.new file checksum 0).afterCalls calls).Stands (filePieces checksum 0 file) {} := by
  induction calls with
  | zero => exact ⟨Reader.scanning_new file checksum, [], rfl, Or.inr rfl⟩
  | succ calls inductionHypothesis =>
    rw [Reader.afterCalls, Function.iterate_succ_apply']
    exact inductionHypothesis.readRecord

/-- The turns of a call are those of its loop. -/
theorem Reader.Turns.readRecordLoop {start reader : Reader}
    (scanning : start.Scanning) (turned : start.Turns pending reader) :
    reader.Scanning ∧ ∃ count, count + reader.pieces.length = start.pieces.length ∧
      ∀ turns, start.readRecordLoop (turns + count) {} = reader.readRecordLoop turns pending := by
  induction turned with
  | start => exact ⟨scanning, 0, Nat.zero_add _, fun turns => rfl⟩
  | @next pending pending' middle after before goesOn inductionHypothesis =>
    obtain ⟨middleScanning, count, total, loops⟩ := inductionHypothesis
    rcases middleScanning.turn pending with ⟨ended, turns, _⟩ | ⟨piece, read, consumes, turns⟩
    · rw [goesOn] at turns
      cases turns
    rcases Reader.dispatch_opens pending piece consumes.scanning.initial with
      ⟨_, _, _, dispatches, _⟩ | ⟨_, _, more, dispatches, told, _⟩
    · rw [goesOn, dispatches] at turns
      cases turns
    rw [goesOn, dispatches] at turns
    cases turns
    refine ⟨told.scanning consumes.scanning, count + 1, ?_, fun turns => ?_⟩
    · rw [told.pieces, ← total, consumes.pieces, List.length_cons]
      omega
    · rw [Nat.add_comm count 1, ← Nat.add_assoc, loops,
        Reader.readRecordLoop_succ middleScanning.synced_read, goesOn]

/-- A call returns what a turn of it does that has a result. -/
theorem Reader.Turns.readRecord_eq {start reader : Reader}
    (scanning : start.Scanning) (turned : start.Turns pending reader)
    {result : Option Bytes × Reader} (returns : reader.turn pending = .inl result) :
    start.readRecord = result := by
  obtain ⟨readerScanning, count, total, loops⟩ := turned.readRecordLoop scanning
  have enough := start.length_pieces
  obtain ⟨turns, isTurns⟩ := Nat.exists_eq_add_of_le
    (show 1 + count ≤ start.buffer.length + start.file.remaining.length + 1 by omega)
  have fuel : start.buffer.length + start.file.remaining.length + 1 = turns + 1 + count := by omega
  rw [scanning.readRecord_eq, fuel, loops,
    Reader.readRecordLoop_succ readerScanning.synced_read, returns]

/-- Every piece comes up in some turn of some call. -/
theorem Reader.exists_turn (file : SequentialFile) (checksum : Bool) (before rest : List Piece)
    (split : filePieces checksum 0 file = before ++ rest) :
    ∃ calls pending reader, ((Reader.new file checksum 0).afterCalls calls).Turns pending reader ∧
      reader.pieces = rest ∧ pending.inFragmentedRecord = joining before := by
  induction before using List.reverseRecOn generalizing rest with
  | nil =>
    refine ⟨0, {}, Reader.new file checksum 0, .start, ?_, rfl⟩
    rw [Reader.pieces_new, split]
    rfl
  | append_singleton before piece inductionHypothesis =>
    rw [List.append_assoc] at split
    obtain ⟨calls, pending, reader, turned, pieces, isJoining⟩ := inductionHypothesis _ split
    have startStands := Reader.stands_afterCalls file checksum calls
    have stands := startStands.turns turned
    rcases stands.scanning.turn pending with ⟨ended, _, ends⟩ | ⟨other, middle, consumes, turns⟩
    · rw [ends.nothing] at pieces
      cases pieces
    have heads := consumes.pieces.symm.trans pieces
    have isPiece : other = piece := (List.cons.inj heads).1
    have isRest : middle.pieces = rest := (List.cons.inj heads).2
    subst isPiece
    rcases Reader.dispatch_opens pending other consumes.scanning.initial with
      ⟨result, after, more, dispatches, told, opens⟩ |
        ⟨pending', after, more, dispatches, told, opens⟩
    · rw [dispatches] at turns
      have reads := turned.readRecord_eq startStands.scanning turns
      refine ⟨calls + 1, {}, after, ?_, told.pieces.trans isRest, ?_⟩
      · rw [Reader.afterCalls, Function.iterate_succ_apply', ← Reader.afterCalls, reads]
        exact .start
      · rw [joining_append, ← isJoining, opens]
    · rw [dispatches] at turns
      refine ⟨calls, pending', after, .next turned turns, told.pieces.trans isRest, ?_⟩
      rw [joining_append, ← isJoining, opens]

/-- The next turn reports a corruption and goes on behind the piece it is about. -/
def Reader.Skips (pending : Partial) (reader : Reader) (rest : List Piece) : Prop :=
  ∃ pending' after more, reader.turn pending = .inr (pending', after) ∧ after.pieces = rest ∧
    after.reports = reader.reports ++ more ∧
      ∃ bytes message, (bytes, DropReason.corruption message) ∈ more

/-- Calls of `ReadRecord` on a file return false only when the bytes are exhausted or a read has
failed, and they report and skip every physical record of an unknown type. -/
structure EndsAtEnd (file : SequentialFile) (checksum : Bool) : Prop where
  ends : ∀ calls after,
    ((Reader.new file checksum 0).afterCalls calls).readRecord = (none, after) →
      ∃ pending last, ((Reader.new file checksum 0).afterCalls calls).Turns pending last ∧
        last.turn pending = .inl (none, after) ∧
          (last.Exhausted ∨ ∃ bytes, (bytes, DropReason.readError) ∈ after.reports)
  reported : ∀ calls pending reader,
    ((Reader.new file checksum 0).afterCalls calls).Turns pending reader →
      ∀ piece rest, reader.pieces = piece :: rest → kMaxRecordType < piece.typeByte.toNat →
        reader.Skips pending rest

/-- No accepted physical record has the type of the code for the end of the input, and none has
that of the code for a bad record unless fragments are being joined there. -/
def TypesApart (pieces : List Piece) : Prop :=
  ∀ before piece rest payload, pieces = before ++ piece :: rest →
    piece.verdict = .accepted payload → piece.typeByte.toNat ≠ kEof ∧
      (piece.typeByte.toNat = kBadRecord → joining before = true)

/-- How a turn treats an accepted physical record of an unknown type. -/
theorem Reader.dispatch_unknown (pending : Partial) {type : Nat} (payload : Bytes) {reader : Reader}
    (unknown : kMaxRecordType < type) (notEnd : type ≠ kEof) (notBad : type ≠ kBadRecord) :
    ∃ pending', reader.dispatch pending type payload = .inr (pending', reader.reportCorruption
      (payload.length + if pending.inFragmentedRecord then pending.scratch.length else 0)
        ("unknown record type " ++ toString type)) := by
  have different : ∀ known : RecordType, type ≠ known.code := by
    intro known same
    have bound : known.code ≤ kMaxRecordType := by cases known <;> decide
    exact absurd (same ▸ bound) (Nat.not_le.mpr unknown)
  rw [Reader.dispatch, if_neg (different _), if_neg (different _), if_neg (different _),
    if_neg (different _), if_neg notEnd, if_neg notBad]
  exact ⟨_, rfl⟩

theorem Reader.dispatch_kBadRecord (pending : Partial) (payload : Bytes) (reader : Reader) :
    reader.dispatch pending kBadRecord payload =
      if pending.inFragmentedRecord then
        .inr ({ pending with inFragmentedRecord := false, scratch := [] },
          reader.reportCorruption pending.scratch.length "error in middle of record")
      else .inr (pending, reader) :=
  rfl

theorem typeOfByte_eq_iff {byte : UInt8} {code : Nat} (small : code < 128) :
    typeOfByte byte = code ↔ byte.toNat = code := by
  constructor
  · intro same
    rw [← typeOfByte_of_lt (same ▸ small), same]
  · intro same
    rw [typeOfByte, if_pos (same ▸ small), same]

theorem lt_typeOfByte {byte : UInt8} (unknown : kMaxRecordType < byte.toNat) :
    kMaxRecordType < typeOfByte byte := by
  have value : kMaxRecordType = 4 := rfl
  rw [typeOfByte]
  split
  · exact unknown
  · omega

theorem Reader.Told.skips {reader middle after : Reader} {pending pending' : Partial}
    {rest : List Piece} {bytes : Nat} {message : String}
    (told : middle.Told after [(bytes, .corruption message)])
    (goesOn : reader.turn pending = .inr (pending', after)) (isRest : middle.pieces = rest)
    (reports : middle.reports = reader.reports) : reader.Skips pending rest := by
  refine ⟨pending', after, [(bytes, .corruption message)], goesOn, told.pieces.trans isRest, ?_,
    bytes, message, List.mem_singleton.mpr rfl⟩
  rw [told.reports, reports]

/-- A physical record of an unknown type is reported and skipped exactly if its type is told apart
from the codes of the reader. -/
theorem Reader.Scanning.skips_iff (scanning : reader.Scanning) (pending : Partial)
    {rest : List Piece} (pieces : reader.pieces = piece :: rest)
    (unknown : kMaxRecordType < piece.typeByte.toNat) :
    reader.Skips pending rest ↔ ∀ payload, piece.verdict = .accepted payload →
      piece.typeByte.toNat ≠ kEof ∧
        (piece.typeByte.toNat = kBadRecord → pending.inFragmentedRecord = true) := by
  rcases scanning.turn pending with ⟨ended, _, ends⟩ | ⟨other, middle, consumes, turns⟩
  · rw [ends.nothing] at pieces
    cases pieces
  have heads := consumes.pieces.symm.trans pieces
  have isPiece : other = piece := (List.cons.inj heads).1
  have isRest : middle.pieces = rest := (List.cons.inj heads).2
  subst isPiece
  have initial := consumes.scanning.initial
  have rejected : ∀ size message, other.code = kBadRecord →
      other.reports = [(size, DropReason.corruption message)] → reader.Skips pending rest := by
    intro size message isCode reports
    rw [isCode] at turns
    rcases Reader.dispatch_opens pending other initial with
      ⟨_, _, _, dispatches, _⟩ | ⟨pending', after, more, dispatches, told, _⟩
    · rw [isCode, Reader.dispatch_kBadRecord] at dispatches
      split at dispatches <;> cases dispatches
    · rw [isCode] at dispatches
      refine ⟨pending', after, other.reports ++ more, turns.trans dispatches,
        told.pieces.trans isRest, ?_, size, message, ?_⟩
      · rw [told.reports, consumes.reports, List.append_assoc]
      · rw [reports]
        exact List.mem_append_left _ (List.mem_singleton.mpr rfl)
  cases isVerdict : other.verdict with
  | accepted payload =>
    have code : other.code = typeOfByte other.typeByte := by
      rw [Piece.code]
      simp only [isVerdict]
    have noReports : other.reports = [] := by
      rw [Piece.reports]
      simp only [isVerdict]
    have reports := consumes.reports
    rw [noReports, List.append_nil] at reports
    by_cases isEnd : other.typeByte.toNat = kEof
    · have ends : other.code = kEof := code.trans ((typeOfByte_eq_iff (by decide)).mpr isEnd)
      rw [ends] at turns
      constructor
      · rintro ⟨_, _, _, goesOn, _⟩
        rw [goesOn] at turns
        cases turns
      · exact fun apart => absurd isEnd (apart payload rfl).1
    by_cases isBad : other.typeByte.toNat = kBadRecord
    · have bad : other.code = kBadRecord := code.trans ((typeOfByte_eq_iff (by decide)).mpr isBad)
      rw [bad, Reader.dispatch_kBadRecord] at turns
      by_cases isPending : pending.inFragmentedRecord = true
      · rw [if_pos isPending] at turns
        have told := Reader.told_reportCorruption initial pending.scratch.length
          "error in middle of record"
        exact ⟨fun _ _ _ => ⟨isEnd, fun _ => isPending⟩, fun _ => told.skips turns isRest reports⟩
      · rw [if_neg isPending] at turns
        constructor
        · rintro ⟨pending', after, more, goesOn, _, told, bytes, message, member⟩
          rw [goesOn] at turns
          cases turns
          rw [reports] at told
          have noMore : more = [] := by
            have lengths := congrArg List.length told
            rw [List.length_append] at lengths
            exact List.length_eq_zero_iff.mp (by omega)
          rw [noMore] at member
          exact absurd member List.not_mem_nil
        · exact fun apart => absurd ((apart payload rfl).2 isBad) isPending
    · refine ⟨fun _ _ _ => ⟨isEnd, fun same => absurd same isBad⟩, fun _ => ?_⟩
      obtain ⟨pending', dispatches⟩ := @Reader.dispatch_unknown pending other.code other.payload
        middle (code ▸ lt_typeOfByte unknown)
        (fun same => isEnd ((typeOfByte_eq_iff (by decide)).mp (code.symm.trans same)))
        (fun same => isBad ((typeOfByte_eq_iff (by decide)).mp (code.symm.trans same)))
      have told := Reader.told_reportCorruption initial (other.payload.length +
        if pending.inFragmentedRecord then pending.scratch.length else 0)
          ("unknown record type " ++ toString other.code)
      exact told.skips (turns.trans dispatches) isRest reports
  | zeroLength =>
    rw [consumes.zero isVerdict] at unknown
    exact absurd unknown (Nat.not_lt_zero _)
  | badLength size =>
    refine ⟨fun _ _ impossible => (by cases impossible), fun _ => ?_⟩
    refine rejected size "bad record length" ?_ ?_
    · rw [Piece.code]
      simp only [isVerdict]
    · rw [Piece.reports]
      simp only [isVerdict]
  | badChecksum size =>
    refine ⟨fun _ _ impossible => (by cases impossible), fun _ => ?_⟩
    refine rejected size "checksum mismatch" ?_ ?_
    · rw [Piece.code]
      simp only [isVerdict]
    · rw [Piece.reports]
      simp only [isVerdict]

/-- A turn that ends a call without a record ends the input, or its piece has the code of the end
as its type. -/
theorem Reader.Scanning.ends_cases {reader after : Reader} (scanning : reader.Scanning)
    (returns : reader.turn pending = .inl (none, after)) :
    reader.EndsInput after ∨ ∃ piece rest payload, reader.pieces = piece :: rest ∧
      piece.verdict = .accepted payload ∧ piece.typeByte.toNat = kEof := by
  rcases scanning.turn pending with ⟨ended, turns, ends⟩ | ⟨piece, middle, consumes, turns⟩
  · rw [returns] at turns
    cases turns
    exact Or.inl ends
  refine Or.inr ⟨piece, middle.pieces, ?_⟩
  have isEnd : piece.code = kEof := by
    rw [returns, Reader.dispatch] at turns
    by_contra notEnd
    rw [if_neg notEnd] at turns
    split_ifs at turns <;> cases turns
  have notBad : kBadRecord ≠ kEof := by decide
  rw [Piece.code] at isEnd
  cases isVerdict : piece.verdict with
  | accepted payload =>
    simp only [isVerdict] at isEnd
    exact ⟨payload, consumes.pieces, rfl, (typeOfByte_eq_iff (by decide)).mp isEnd⟩
  | zeroLength | badLength | badChecksum =>
    simp only [isVerdict] at isEnd
    exact absurd isEnd notBad

/-- Calls of `ReadRecord` end only with the input and report every physical record of an unknown
type exactly if the types in the file are told apart from the codes for the end of the input and
for a bad record. -/
theorem endsAtEnd_iff (file : SequentialFile) (checksum : Bool) :
    EndsAtEnd file checksum ↔ TypesApart (filePieces checksum 0 file) := by
  have large : kMaxRecordType < kEof ∧ kMaxRecordType < kBadRecord := by decide
  constructor
  · intro endsAtEnd before piece rest payload split isVerdict
    obtain ⟨calls, pending, reader, turned, pieces, isJoining⟩ :=
      Reader.exists_turn file checksum before (piece :: rest) split
    have scanning := ((Reader.stands_afterCalls file checksum calls).turns turned).scanning
    have apart : kMaxRecordType < piece.typeByte.toNat → piece.typeByte.toNat ≠ kEof ∧
        (piece.typeByte.toNat = kBadRecord → pending.inFragmentedRecord = true) :=
      fun unknown => (scanning.skips_iff pending pieces unknown).mp
        (endsAtEnd.reported calls pending reader turned piece rest pieces unknown) payload isVerdict
    rw [isJoining] at apart
    refine ⟨fun isEnd => (apart (isEnd ▸ large.1)).1 isEnd, fun isBad => ?_⟩
    exact (apart (isBad ▸ large.2)).2 isBad
  · intro apart
    have apartAt : ∀ calls pending reader,
        ((Reader.new file checksum 0).afterCalls calls).Turns pending reader →
          ∀ piece rest payload, reader.pieces = piece :: rest →
            piece.verdict = .accepted payload → piece.typeByte.toNat ≠ kEof ∧
              (piece.typeByte.toNat = kBadRecord → pending.inFragmentedRecord = true) := by
      intro calls pending reader turned piece rest payload pieces isVerdict
      have stands := (Reader.stands_afterCalls file checksum calls).turns turned
      obtain ⟨before, split, empty | isJoining⟩ := stands.before
      · rw [pieces] at empty
        cases empty
      · rw [pieces] at split
        rw [isJoining]
        exact apart before piece rest payload split isVerdict
    refine ⟨fun calls after returns => ?_, fun calls pending reader turned piece rest pieces unknown => ?_⟩
    · have stands := Reader.stands_afterCalls file checksum calls
      obtain ⟨_, pending, last, turned, turns, scanning⟩ := stands.scanning.readRecord
      rw [returns] at turns
      refine ⟨pending, last, turned, turns, ?_⟩
      rcases scanning.ends_cases turns with ends | ⟨piece, rest, payload, pieces, isVerdict, isEnd⟩
      · exact ends.reason
      · exact absurd isEnd (apartAt calls pending last turned piece rest payload pieces isVerdict).1
    · have scanning := ((Reader.stands_afterCalls file checksum calls).turns turned).scanning
      refine (scanning.skips_iff pending pieces unknown).mpr fun payload isVerdict => ?_
      exact apartAt calls pending reader turned piece rest payload pieces isVerdict

/-- A log of two physical records, one of type 5 and a full one. -/
def strayTypeLog : SequentialFile :=
  { remaining := [0, 0, 0, 0, 0, 0, 5] ++ [0, 0, 0, 0, 1, 0, 1, 42] }

/-- With checksums off, as `Repairer` reads logs, the first call returns false and reports nothing,
with a whole record behind that the second call returns. -/
theorem strayType_ends_early :
    ¬ EndsAtEnd strayTypeLog false ∧
      (Reader.new strayTypeLog false 0).readRecord.1 = none ∧
        ((Reader.new strayTypeLog false 0).afterCalls 1).reports = [] ∧
          ((Reader.new strayTypeLog false 0).afterCalls 1).readRecord.1 = some [42] := by
  refine ⟨fun endsAtEnd => ?_, by decide +kernel, by decide +kernel, by decide +kernel⟩
  have pieces : (Reader.new strayTypeLog false 0).pieces =
      [⟨0, 5, .accepted []⟩, ⟨7, 1, .accepted [42]⟩] := by
    decide +kernel
  obtain ⟨_, _, _, goesOn, _⟩ := endsAtEnd.reported 0 {} _ .start _ _ pieces (by decide)
  have ends : ((Reader.new strayTypeLog false 0).turn {}).isLeft = true := by decide +kernel
  rw [show (Reader.new strayTypeLog false 0).turn {} = _ from goesOn] at ends
  cases ends

end LevelDb.Log
