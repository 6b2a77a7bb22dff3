/-
This file models the log format and its writer (`db/log_format.h`, `db/log_writer`). A log is a
sequence of blocks of 32768 bytes. A record is cut into fragments that each lie in one block
behind a header of seven bytes; fewer than seven bytes at the end of a block are a trailer of
zeros. The file may fail any append and keep any part of its data.

When every append succeeds the bytes of a record are given by a pure description: the fragments
of the record, laid out from the offset in the block.
-/

import LevelDb.Crc32c

namespace LevelDb.Log

/-! ### The format -/

inductive RecordType
  | kZeroType
  | kFullType
  | kFirstType
  | kMiddleType
  | kLastType
  deriving DecidableEq, Repr

/-- The byte a record type is stored as. -/
def RecordType.code : RecordType → Nat
  | .kZeroType => 0
  | .kFullType => 1
  | .kFirstType => 2
  | .kMiddleType => 3
  | .kLastType => 4

def kMaxRecordType : Nat := RecordType.kLastType.code

def kBlockSize : Nat := 32768

/-- The header is a checksum (4 bytes), a length (2 bytes) and a type (1 byte). -/
def kHeaderSize : Nat := 4 + 2 + 1

/-! ### The writer -/

/-- `WritableFile` with what its next appends do: `none` succeeds, `some n` fails after at most
`n` bytes of the data went into the file. Appends past the end of the list succeed. -/
structure WritableFile where
  contents : Bytes
  outcomes : List (Option Nat) := []

/-- `WritableFile::Append`: whether it succeeded, and the file after it. -/
def WritableFile.append (file : WritableFile) (data : Bytes) : Bool × WritableFile :=
  match file.outcomes with
  | [] => (true, { file with contents := file.contents ++ data })
  | none :: rest => (true, ⟨file.contents ++ data, rest⟩)
  | some kept :: rest => (false, ⟨file.contents ++ data.take kept, rest⟩)

structure Writer where
  dest : WritableFile
  blockOffset : Nat

/-- `Writer(dest)`. -/
def Writer.new (dest : WritableFile) : Writer := ⟨dest, 0⟩

/-- `Writer(dest, dest_length)`. -/
def Writer.resume (dest : WritableFile) (destLength : Nat) : Writer :=
  ⟨dest, destLength % kBlockSize⟩

/-- An entry of the table `type_crc_`. -/
def typeCrc (type : RecordType) : BitVec 32 := Crc32c.value 0 [UInt8.ofNat type.code]

/-- The header of a physical record. -/
def header (type : RecordType) (payload : Bytes) : Bytes :=
  let crc := Crc32c.mask (Crc32c.extend 0 (typeCrc type) payload)
  encodeFixed32 crc.toNat ++
    [UInt8.ofNat (payload.length &&& 0xff), UInt8.ofNat (payload.length >>> 8),
      UInt8.ofNat type.code]

/-- `Writer::EmitPhysicalRecord`. The block offset advances whether or not the bytes reached
the file; the flush of the file succeeds. -/
def Writer.emitPhysicalRecord (writer : Writer) (type : RecordType) (payload : Bytes) :
    Bool × Writer :=
  let headed := writer.dest.append (header type payload)
  let done := if headed.1 then headed.2.append payload else headed
  (done.1, ⟨done.2, writer.blockOffset + kHeaderSize + payload.length⟩)

/-- The switch to a new block when no header fits in the current one. The status of the append
that fills the trailer is ignored. -/
def Writer.startBlock (writer : Writer) : Writer :=
  let leftover := kBlockSize - writer.blockOffset
  if leftover < kHeaderSize then
    ⟨if 0 < leftover then (writer.dest.append (List.replicate leftover 0)).2 else writer.dest, 0⟩
  else writer

/-- The type of a fragment that begins or ends its record. -/
def fragmentType (begins ends : Bool) : RecordType :=
  if begins && ends then .kFullType
  else if begins then .kFirstType
  else if ends then .kLastType
  else .kMiddleType

/-- The loop of `Writer::AddRecord`. A turn without payload is followed by one in a new block, so
two turns more than the record has bytes are enough. -/
def Writer.addRecordLoop : Nat → Bool → Bytes → Writer → Bool × Writer
  | 0, _, _, writer => (false, writer)
  | turns + 1, begins, left, writer =>
    let writer := writer.startBlock
    let avail := kBlockSize - writer.blockOffset - kHeaderSize
    let fragmentLength := if left.length < avail then left.length else avail
    let type := fragmentType begins (left.length == fragmentLength)
    let emitted := writer.emitPhysicalRecord type (left.take fragmentLength)
    let left := left.drop fragmentLength
    if emitted.1 && !left.isEmpty then Writer.addRecordLoop turns false left emitted.2
    else emitted

/-- `Writer::AddRecord`: whether it succeeded, and the writer after it. -/
def Writer.addRecord (writer : Writer) (record : Bytes) : Bool × Writer :=
  writer.addRecordLoop (record.length + 2) true record

/-! ### Fragments and their layout -/

/-- A physical record without its checksum. -/
structure Fragment where
  type : RecordType
  payload : Bytes
  deriving DecidableEq, Repr

/-- Where the next fragment starts. -/
def blockStart (offset : Nat) : Nat := if kBlockSize - offset < kHeaderSize then 0 else offset

/-- The zeros before the next fragment. -/
def trailer (offset : Nat) : Bytes :=
  if kBlockSize - offset < kHeaderSize then List.replicate (kBlockSize - offset) 0 else []

def Fragment.bytes (fragment : Fragment) : Bytes :=
  header fragment.type fragment.payload ++ fragment.payload

/-- The offset in the block after a fragment. -/
def Fragment.endOffset (offset : Nat) (fragment : Fragment) : Nat :=
  blockStart offset + kHeaderSize + fragment.payload.length

/-- The bytes of fragments laid out from an offset in a block. -/
def layout : Nat → List Fragment → Bytes
  | _, [] => []
  | offset, fragment :: rest =>
    trailer offset ++ fragment.bytes ++ layout (fragment.endOffset offset) rest

/-- The offset in the block after fragments. -/
def endOffset (offset : Nat) (fragments : List Fragment) : Nat :=
  fragments.foldl Fragment.endOffset offset

/-- Every fragment lies in one block. -/
def Fit : Nat → List Fragment → Prop
  | _, [] => True
  | offset, fragment :: rest =>
    fragment.endOffset offset ≤ kBlockSize ∧ Fit (fragment.endOffset offset) rest

/-- The room for payload in the block of the next fragment. -/
def avail (offset : Nat) : Nat := kBlockSize - blockStart offset - kHeaderSize

/-- The fragments of a record, or of the rest of one. -/
def fragmentsLoop : Nat → Bool → Bytes → Nat → List Fragment
  | 0, _, _, _ => []
  | turns + 1, begins, left, offset =>
    if left.length ≤ avail offset then [⟨fragmentType begins true, left⟩]
    else
      let fragment : Fragment := ⟨fragmentType begins false, left.take (avail offset)⟩
      fragment :: fragmentsLoop turns false (left.drop (avail offset)) (fragment.endOffset offset)

def fragments (record : Bytes) (offset : Nat) : List Fragment :=
  fragmentsLoop (record.length + 2) true record offset

theorem layout_append (offset : Nat) (first second : List Fragment) :
    layout offset (first ++ second) =
      layout offset first ++ layout (endOffset offset first) second := by
  induction first generalizing offset with
  | nil => rfl
  | cons fragment rest inductionHypothesis =>
    rw [List.cons_append, layout, layout, inductionHypothesis, ← List.append_assoc]
    rfl

theorem endOffset_append (offset : Nat) (first second : List Fragment) :
    endOffset offset (first ++ second) = endOffset (endOffset offset first) second :=
  List.foldl_append

variable {offset : Nat}

theorem fit_append {first second : List Fragment} :
    Fit offset (first ++ second) ↔ Fit offset first ∧ Fit (endOffset offset first) second := by
  induction first generalizing offset with
  | nil => simp [Fit, endOffset]
  | cons fragment rest inductionHypothesis =>
    rw [List.cons_append, Fit, Fit, inductionHypothesis, and_assoc]
    rfl

@[simp] theorem length_header (type : RecordType) (payload : Bytes) :
    (header type payload).length = kHeaderSize := by
  simp [header, kHeaderSize]

theorem Fragment.length_bytes (fragment : Fragment) :
    fragment.bytes.length = kHeaderSize + fragment.payload.length := by
  rw [Fragment.bytes, List.length_append, length_header]

theorem blockStart_le (offset : Nat) : blockStart offset + kHeaderSize ≤ kBlockSize := by
  unfold blockStart
  split
  · decide
  · rename_i fits
    have positive : 0 < kHeaderSize := by decide
    omega

/-! ### What the writer writes -/

/-- The fragments that carry the rest of a record after its first one. -/
inductive Continues : Bytes → List Fragment → Prop
  | last (payload : Bytes) : Continues payload [⟨.kLastType, payload⟩]
  | middle (payload : Bytes) {rest : Bytes} {fragments : List Fragment} :
      Continues rest fragments → Continues (payload ++ rest) (⟨.kMiddleType, payload⟩ :: fragments)

/-- The fragments that carry a record. -/
inductive Carries : Bytes → List Fragment → Prop
  | full (record : Bytes) : Carries record [⟨.kFullType, record⟩]
  | first (payload : Bytes) {rest : Bytes} {fragments : List Fragment} :
      Continues rest fragments → Carries (payload ++ rest) (⟨.kFirstType, payload⟩ :: fragments)

theorem Carries.length_pos {record : Bytes} {fragments : List Fragment}
    (carries : Carries record fragments) : 0 < fragments.length := by
  cases carries with
  | full => exact Nat.one_pos
  | first => exact Nat.succ_pos _

/-- The turns the loop takes at most: when no payload fits in the block, one is lost. -/
def turnsFor (left : Bytes) (offset : Nat) : Nat :=
  if avail offset = 0 then left.length + 2 else left.length + 1

theorem avail_of_full (full : kBlockSize ≤ offset) :
    avail offset = kBlockSize - kHeaderSize := by
  have small : kBlockSize - offset < kHeaderSize := by
    rw [Nat.sub_eq_zero_of_le full]
    decide
  rw [avail, blockStart, if_pos small, Nat.sub_zero]

theorem endOffset_of_filled {fragment : Fragment}
    (filled : fragment.payload.length = avail offset) : fragment.endOffset offset = kBlockSize := by
  have room := blockStart_le offset
  rw [Fragment.endOffset, filled, avail]
  omega

variable {left : Bytes} {turns : Nat}

/-- When the rest of a record is longer than the block has room for, the block is filled and
what remains needs fewer turns. -/
theorem turnsFor_drop (enough : turnsFor left offset ≤ turns + 1)
    (long : avail offset < left.length) :
    turnsFor (left.drop (avail offset)) kBlockSize ≤ turns := by
  have nextRoom : avail kBlockSize ≠ 0 := by
    rw [avail_of_full le_rfl]
    decide
  rw [turnsFor, if_neg nextRoom, List.length_drop]
  rw [turnsFor] at enough
  split at enough
  · omega
  · omega

theorem turnsFor_pos (left : Bytes) (offset : Nat) : 0 < turnsFor left offset := by
  unfold turnsFor
  split
  · exact Nat.succ_pos _
  · exact Nat.succ_pos _

theorem turnsFor_le (record : Bytes) (offset : Nat) :
    turnsFor record offset ≤ record.length + 2 := by
  unfold turnsFor
  split
  · exact le_rfl
  · exact Nat.le_succ _

theorem fragmentsLoop_fit (turns : Nat) (begins : Bool) (left : Bytes) (offset : Nat) :
    Fit offset (fragmentsLoop turns begins left offset) := by
  induction turns generalizing begins left offset with
  | zero => trivial
  | succ turns inductionHypothesis =>
    have room := blockStart_le offset
    rw [fragmentsLoop]
    split
    · rename_i short
      refine ⟨?_, trivial⟩
      rw [avail] at short
      show blockStart offset + kHeaderSize + left.length ≤ kBlockSize
      omega
    · rename_i long
      refine ⟨?_, inductionHypothesis false _ _⟩
      refine (endOffset_of_filled ?_).le
      exact List.length_take_of_le (Nat.le_of_not_le long)

theorem fragmentsLoop_continues (enough : turnsFor left offset ≤ turns) :
    Continues left (fragmentsLoop turns false left offset) := by
  induction turns generalizing left offset with
  | zero => exact absurd (turnsFor_pos left offset) (Nat.not_lt.mpr enough)
  | succ turns inductionHypothesis =>
    rw [fragmentsLoop]
    split
    · exact Continues.last left
    · rename_i long
      have filled : (left.take (avail offset)).length = avail offset :=
        List.length_take_of_le (Nat.le_of_not_le long)
      have rest := inductionHypothesis (turnsFor_drop enough (Nat.lt_of_not_le long))
      rw [← endOffset_of_filled (show (⟨fragmentType false false, left.take (avail offset)⟩ :
        Fragment).payload.length = avail offset from filled)] at rest
      have joined := Continues.middle (left.take (avail offset)) rest
      rwa [List.take_append_drop] at joined

/-- The fragments of a record carry it and lie in one block each. -/
theorem fragments_carry (record : Bytes) (offset : Nat) :
    Carries record (fragments record offset) := by
  have enough : turnsFor record offset ≤ record.length + 1 + 1 := turnsFor_le record offset
  rw [fragments, fragmentsLoop]
  split
  · exact Carries.full record
  · rename_i long
    have filled : (record.take (avail offset)).length = avail offset :=
      List.length_take_of_le (Nat.le_of_not_le long)
    have rest := fragmentsLoop_continues (turnsFor_drop enough (Nat.lt_of_not_le long))
    rw [← endOffset_of_filled (show (⟨fragmentType true false, record.take (avail offset)⟩ :
      Fragment).payload.length = avail offset from filled)] at rest
    have joined := Carries.first (record.take (avail offset)) rest
    rwa [List.take_append_drop] at joined

theorem fragments_fit (record : Bytes) (offset : Nat) : Fit offset (fragments record offset) :=
  fragmentsLoop_fit _ _ _ _

/-! ### Appends that leave nothing out -/

/-- The next append puts all its data into the file, even if it fails. -/
def WritableFile.Whole (file : WritableFile) (data : Bytes) : Prop :=
  match file.outcomes with
  | some kept :: _ => data.length ≤ kept
  | _ => True

instance (file : WritableFile) (data : Bytes) : Decidable (file.Whole data) :=
  match isOutcomes : file.outcomes with
  | some kept :: _ => decidable_of_iff (data.length ≤ kept) (by
      rw [WritableFile.Whole, isOutcomes])
  | none :: _ => isTrue (by
      rw [WritableFile.Whole, isOutcomes]
      trivial)
  | [] => isTrue (by
      rw [WritableFile.Whole, isOutcomes]
      trivial)

/-- No byte of the trailer, the header or the payload of a turn is missing from the file. After
a failed append of the header the payload is not written, so there must be none. -/
def Writer.WholeTurn (writer : Writer) (type : RecordType) (payload : Bytes) : Prop :=
  writer.dest.Whole (trailer writer.blockOffset) ∧
    writer.startBlock.dest.Whole (header type payload) ∧
      if (writer.startBlock.dest.append (header type payload)).1 then
        (writer.startBlock.dest.append (header type payload)).2.Whole payload
      else payload = []

instance (writer : Writer) (type : RecordType) (payload : Bytes) :
    Decidable (writer.WholeTurn type payload) :=
  inferInstanceAs (Decidable (_ ∧ _ ∧ if (writer.startBlock.dest.append (header type payload)).1
    then _ else _))

/-- No byte that the loop counts in the block offset is missing from the file. -/
def Writer.WholeLoop : Nat → Bool → Bytes → Writer → Prop
  | 0, _, _, _ => True
  | turns + 1, begins, left, writer =>
    if left.length ≤ avail writer.blockOffset then
      writer.WholeTurn (fragmentType begins true) left
    else
      let type := fragmentType begins false
      let payload := left.take (avail writer.blockOffset)
      let emitted := writer.startBlock.emitPhysicalRecord type payload
      writer.WholeTurn type payload ∧ (emitted.1 = true →
        Writer.WholeLoop turns false (left.drop (avail writer.blockOffset)) emitted.2)

/-- No byte of the record that `AddRecord` counts in the block offset is missing from the
file. -/
def Writer.Whole (writer : Writer) (record : Bytes) : Prop :=
  writer.WholeLoop (record.length + 2) true record

variable {file : WritableFile}

theorem WritableFile.append_contents {data : Bytes}
    (whole : file.Whole data) : (file.append data).2.contents = file.contents ++ data := by
  rw [WritableFile.append]
  split
  · rfl
  · rfl
  · rename_i kept rest isOutcome
    rw [WritableFile.Whole, isOutcome] at whole
    show file.contents ++ data.take kept = file.contents ++ data
    rw [List.take_of_length_le whole]

theorem Writer.startBlock_blockOffset (writer : Writer) :
    writer.startBlock.blockOffset = blockStart writer.blockOffset := by
  rw [Writer.startBlock, blockStart]
  split
  · rfl
  · rfl

variable {writer : Writer}

theorem Writer.startBlock_contents (whole : writer.dest.Whole (trailer writer.blockOffset)) :
    writer.startBlock.dest.contents = writer.dest.contents ++ trailer writer.blockOffset := by
  rw [Writer.startBlock]
  split
  · rename_i small
    rw [trailer, if_pos small] at whole ⊢
    split
    · exact WritableFile.append_contents whole
    · rename_i zero
      rw [Nat.eq_zero_of_not_pos zero]
      exact (List.append_nil _).symm
  · rename_i large
    rw [trailer, if_neg large]
    exact (List.append_nil _).symm

/-- The writer after it laid out fragments. -/
structure Writer.Wrote (writer : Writer) (fragments : List Fragment) (after : Writer) : Prop where
  contents : after.dest.contents =
    writer.dest.contents ++ layout writer.blockOffset fragments
  offset : after.blockOffset = Log.endOffset writer.blockOffset fragments

theorem Writer.Wrote.append {writer middle after : Writer} {first second : List Fragment}
    (wroteFirst : writer.Wrote first middle) (wroteSecond : middle.Wrote second after) :
    writer.Wrote (first ++ second) after := by
  constructor
  · rw [wroteSecond.contents, wroteFirst.contents, wroteFirst.offset, layout_append,
      List.append_assoc]
  · rw [wroteSecond.offset, wroteFirst.offset, Log.endOffset, Log.endOffset, Log.endOffset,
      List.foldl_append]

/-- A turn without missing bytes lays out its fragment, whether it succeeds or not. -/
theorem Writer.WholeTurn.wrote {type : RecordType} {payload : Bytes}
    (whole : writer.WholeTurn type payload) :
    writer.Wrote [⟨type, payload⟩] (writer.startBlock.emitPhysicalRecord type payload).2 := by
  obtain ⟨trailerWhole, headerWhole, payloadWhole⟩ := whole
  have headed := WritableFile.append_contents headerWhole
  rw [Writer.startBlock_contents trailerWhole] at headed
  constructor
  · rw [Writer.emitPhysicalRecord, layout, layout, Fragment.bytes, List.append_nil]
    split
    · rename_i succeeded
      rw [if_pos succeeded] at payloadWhole
      show (WritableFile.append _ payload).2.contents = _
      rw [WritableFile.append_contents payloadWhole, headed, List.append_assoc, List.append_assoc]
    · rename_i failed
      rw [if_neg failed] at payloadWhole
      show (WritableFile.append _ _).2.contents = _
      rw [headed, payloadWhole, List.append_nil, List.append_assoc]
  · show writer.startBlock.blockOffset + kHeaderSize + payload.length = _
    rw [Writer.startBlock_blockOffset]
    rfl

/-- The loop in the terms of the fragments it emits. -/
theorem Writer.addRecordLoop_succ (turns : Nat) (begins : Bool) (left : Bytes) (writer : Writer) :
    writer.addRecordLoop (turns + 1) begins left =
      if left.length ≤ avail writer.blockOffset then
        writer.startBlock.emitPhysicalRecord (fragmentType begins true) left
      else
        let emitted := writer.startBlock.emitPhysicalRecord (fragmentType begins false)
          (left.take (avail writer.blockOffset))
        if emitted.1 then
          emitted.2.addRecordLoop turns false (left.drop (avail writer.blockOffset))
        else emitted := by
  have room : kBlockSize - writer.startBlock.blockOffset - kHeaderSize =
      avail writer.blockOffset := by
    rw [Writer.startBlock_blockOffset, avail]
  rw [Writer.addRecordLoop]
  simp only [room]
  rcases Nat.lt_or_ge (avail writer.blockOffset) left.length with long | short
  · have cut : (if left.length < avail writer.blockOffset then left.length
        else avail writer.blockOffset) = avail writer.blockOffset := if_neg (by omega)
    have different : (left.length == avail writer.blockOffset) = false := by
      rw [beq_eq_false_iff_ne]
      exact long.ne'
    have remains : (left.drop (avail writer.blockOffset)).isEmpty = false := by
      rw [List.isEmpty_eq_false_iff, Ne, List.drop_eq_nil_iff]
      exact Nat.not_le.mpr long
    rw [if_neg (Nat.not_le.mpr long)]
    simp only [cut, different, remains, Bool.not_false, Bool.and_true]
  · have all : (if left.length < avail writer.blockOffset then left.length
        else avail writer.blockOffset) = left.length := by
      split <;> omega
    rw [if_pos short]
    simp only [all, beq_self_eq_true, List.take_length, List.drop_length, List.isEmpty_nil,
      Bool.not_true, Bool.and_false, Bool.false_eq_true, if_false]

/-- Without missing bytes the loop lays out the fragments of the record, all of them when it
succeeds and the first ones when it fails. -/
theorem Writer.addRecordLoop_wrote {begins : Bool}
    (enough : turnsFor left writer.blockOffset ≤ turns)
    (whole : writer.WholeLoop turns begins left) :
    ∃ count, writer.Wrote ((fragmentsLoop turns begins left writer.blockOffset).take count)
        (writer.addRecordLoop turns begins left).2 ∧
      ((writer.addRecordLoop turns begins left).1 = true →
        (fragmentsLoop turns begins left writer.blockOffset).length ≤ count) := by
  induction turns generalizing begins left writer with
  | zero => exact absurd (turnsFor_pos left writer.blockOffset) (Nat.not_lt.mpr enough)
  | succ turns inductionHypothesis =>
    rw [Writer.addRecordLoop_succ, fragmentsLoop]
    rw [Writer.WholeLoop] at whole
    rcases Nat.lt_or_ge (avail writer.blockOffset) left.length with long | short
    · rw [if_neg (Nat.not_le.mpr long)] at whole
      rw [if_neg (Nat.not_le.mpr long), if_neg (Nat.not_le.mpr long)]
      have filled : (left.take (avail writer.blockOffset)).length = avail writer.blockOffset :=
        List.length_take_of_le long.le
      have wrote := whole.1.wrote
      set emitted := writer.startBlock.emitPhysicalRecord (fragmentType begins false)
        (left.take (avail writer.blockOffset)) with isEmitted
      have atEnd : emitted.2.blockOffset = kBlockSize := by
        rw [wrote.offset]
        exact endOffset_of_filled filled
      have sameEnd : Fragment.endOffset writer.blockOffset
          ⟨fragmentType begins false, left.take (avail writer.blockOffset)⟩ =
          emitted.2.blockOffset := wrote.offset.symm
      simp only [sameEnd]
      by_cases succeeded : emitted.1 = true
      · rw [if_pos succeeded]
        have next : turnsFor (left.drop (avail writer.blockOffset)) emitted.2.blockOffset ≤
            turns := by
          rw [atEnd]
          exact turnsFor_drop enough long
        obtain ⟨count, wroteRest, complete⟩ := inductionHypothesis next (whole.2 succeeded)
        refine ⟨count + 1, ?_, fun ok => Nat.succ_le_succ (complete ok)⟩
        rw [List.take_succ_cons]
        exact wrote.append wroteRest
      · rw [if_neg succeeded]
        refine ⟨1, ?_, fun ok => absurd ok succeeded⟩
        exact wrote
    · rw [if_pos short] at whole
      rw [if_pos short, if_pos short]
      exact ⟨1, whole.wrote, fun _ => le_rfl⟩

/-- Without missing bytes `AddRecord` lays out the fragments of the record, all of them when it
succeeds and the first ones when it fails. -/
theorem Writer.addRecord_wrote {record : Bytes} (whole : writer.Whole record) :
    ∃ count, writer.Wrote ((fragments record writer.blockOffset).take count)
        (writer.addRecord record).2 ∧
      ((writer.addRecord record).1 = true →
        (fragments record writer.blockOffset).length ≤ count) :=
  Writer.addRecordLoop_wrote (turnsFor_le record writer.blockOffset) whole

/-! ### Appends that may leave something out -/

/-- No byte of a trailer that the loop writes is missing from the file. The loop does not look at
the status of these appends. -/
def Writer.TrailersLoop : Nat → Bool → Bytes → Writer → Prop
  | 0, _, _, _ => True
  | turns + 1, begins, left, writer =>
    writer.dest.Whole (trailer writer.blockOffset) ∧
      (avail writer.blockOffset < left.length →
        let emitted := writer.startBlock.emitPhysicalRecord (fragmentType begins false)
          (left.take (avail writer.blockOffset))
        emitted.1 = true →
          Writer.TrailersLoop turns false (left.drop (avail writer.blockOffset)) emitted.2)

/-- No byte of a trailer that `AddRecord` writes is missing from the file. -/
def Writer.Trailers (writer : Writer) (record : Bytes) : Prop :=
  writer.TrailersLoop (record.length + 2) true record

/-- An append puts a part of its data into the file, and all of it when it succeeds. -/
theorem WritableFile.append_take (file : WritableFile) (data : Bytes) :
    ∃ kept ≤ data.length, (file.append data).2.contents = file.contents ++ data.take kept ∧
      ((file.append data).1 = true → kept = data.length) := by
  have all : file.contents ++ data = file.contents ++ data.take data.length := by
    rw [List.take_length]
  rw [WritableFile.append]
  split
  · exact ⟨data.length, le_rfl, all, fun _ => rfl⟩
  · exact ⟨data.length, le_rfl, all, fun _ => rfl⟩
  · rename_i kept rest _
    refine ⟨min kept data.length, min_le_right _ _, ?_, fun failed => by cases failed⟩
    rw [List.take_eq_take_min]

theorem Writer.emitPhysicalRecord_take (writer : Writer) (type : RecordType) (payload : Bytes) :
    ∃ kept ≤ (header type payload ++ payload).length,
      (writer.emitPhysicalRecord type payload).2.dest.contents =
          writer.dest.contents ++ (header type payload ++ payload).take kept ∧
        ((writer.emitPhysicalRecord type payload).1 = true →
          kept = (header type payload ++ payload).length) := by
  obtain ⟨kept, bound, headed, whole⟩ := writer.dest.append_take (header type payload)
  rw [Writer.emitPhysicalRecord]
  by_cases succeeded : (writer.dest.append (header type payload)).1 = true
  · simp only [if_pos succeeded]
    rw [whole succeeded, List.take_length] at headed
    obtain ⟨more, moreBound, added, complete⟩ :=
      (writer.dest.append (header type payload)).2.append_take payload
    refine ⟨(header type payload).length + more, ?_, ?_, fun ok => ?_⟩
    · rw [List.length_append]
      exact Nat.add_le_add_left moreBound _
    · rw [added, headed, List.take_length_add_append, List.append_assoc]
    · rw [complete ok, List.length_append]
  · simp only [if_neg succeeded]
    refine ⟨kept, ?_, ?_, fun ok => absurd ok succeeded⟩
    · rw [List.length_append]
      exact bound.trans (Nat.le_add_right _ _)
    · rw [headed, List.take_append_of_le_length bound]

/-- A turn whose trailer is whole lays out a part of its fragment, and all of it when it
succeeds. -/
theorem Writer.turn_take (whole : writer.dest.Whole (trailer writer.blockOffset))
    (type : RecordType) (payload : Bytes) :
    ∃ kept ≤ (layout writer.blockOffset [⟨type, payload⟩]).length,
      (writer.startBlock.emitPhysicalRecord type payload).2.dest.contents =
          writer.dest.contents ++ (layout writer.blockOffset [⟨type, payload⟩]).take kept ∧
        ((writer.startBlock.emitPhysicalRecord type payload).1 = true →
          kept = (layout writer.blockOffset [⟨type, payload⟩]).length) := by
  obtain ⟨kept, bound, contents, complete⟩ :=
    writer.startBlock.emitPhysicalRecord_take type payload
  have isLayout : layout writer.blockOffset [⟨type, payload⟩] =
      trailer writer.blockOffset ++ (header type payload ++ payload) := by
    rw [layout, layout, Fragment.bytes, List.append_nil]
  rw [isLayout]
  refine ⟨(trailer writer.blockOffset).length + kept, ?_, ?_, fun ok => ?_⟩
  · rw [@List.length_append _ (trailer writer.blockOffset)]
    exact Nat.add_le_add_left bound _
  · rw [contents, Writer.startBlock_contents whole, List.take_length_add_append, List.append_assoc]
  · rw [complete ok, @List.length_append _ (trailer writer.blockOffset)]

/-- As long as the trailers are whole, the loop lays out a part of the fragments of the record, and
all of them when it succeeds. -/
theorem Writer.addRecordLoop_take {begins : Bool}
    (enough : turnsFor left writer.blockOffset ≤ turns)
    (trailers : writer.TrailersLoop turns begins left) :
    ∃ kept ≤ (layout writer.blockOffset (fragmentsLoop turns begins left writer.blockOffset)).length,
      (writer.addRecordLoop turns begins left).2.dest.contents = writer.dest.contents ++
          (layout writer.blockOffset
            (fragmentsLoop turns begins left writer.blockOffset)).take kept ∧
        ((writer.addRecordLoop turns begins left).1 = true →
          writer.Wrote (fragmentsLoop turns begins left writer.blockOffset)
            (writer.addRecordLoop turns begins left).2) := by
  induction turns generalizing begins left writer with
  | zero => exact absurd (turnsFor_pos left writer.blockOffset) (Nat.not_lt.mpr enough)
  | succ turns inductionHypothesis =>
    obtain ⟨whole, next⟩ := trailers
    have offset : ∀ type payload,
        (writer.startBlock.emitPhysicalRecord type payload).2.blockOffset =
          Log.endOffset writer.blockOffset [⟨type, payload⟩] := by
      intro type payload
      show writer.startBlock.blockOffset + kHeaderSize + payload.length = _
      rw [Writer.startBlock_blockOffset]
      rfl
    rw [Writer.addRecordLoop_succ, fragmentsLoop]
    rcases Nat.lt_or_ge (avail writer.blockOffset) left.length with long | short
    · rw [if_neg (Nat.not_le.mpr long), if_neg (Nat.not_le.mpr long)]
      have restTrailers := next long
      obtain ⟨kept, bound, contents, complete⟩ := Writer.turn_take whole
        (fragmentType begins false) (left.take (avail writer.blockOffset))
      have atEnd : (writer.startBlock.emitPhysicalRecord (fragmentType begins false)
          (left.take (avail writer.blockOffset))).2.blockOffset = kBlockSize := by
        rw [offset]
        exact endOffset_of_filled (List.length_take_of_le long.le)
      have sameEnd := offset (fragmentType begins false) (left.take (avail writer.blockOffset))
      set emitted := writer.startBlock.emitPhysicalRecord (fragmentType begins false)
        (left.take (avail writer.blockOffset)) with isEmitted
      set fragment : Fragment :=
        ⟨fragmentType begins false, left.take (avail writer.blockOffset)⟩ with isFragment
      have split : layout writer.blockOffset (fragment ::
            fragmentsLoop turns false (left.drop (avail writer.blockOffset))
              (fragment.endOffset writer.blockOffset)) =
          layout writer.blockOffset [fragment] ++ layout emitted.2.blockOffset
            (fragmentsLoop turns false (left.drop (avail writer.blockOffset))
              emitted.2.blockOffset) := by
        rw [sameEnd, ← layout_append]
        rfl
      rw [split]
      by_cases succeeded : emitted.1 = true
      · simp only [if_pos succeeded]
        have wrote : writer.Wrote [fragment] emitted.2 := by
          refine ⟨?_, sameEnd⟩
          rw [contents, complete succeeded, List.take_length]
        obtain ⟨more, moreBound, restContents, restWrote⟩ := inductionHypothesis (by
          rw [atEnd]
          exact turnsFor_drop enough long) (restTrailers succeeded)
        refine ⟨(layout writer.blockOffset [fragment]).length + more, ?_, ?_, fun ok => ?_⟩
        · rw [List.length_append]
          exact Nat.add_le_add_left moreBound _
        · rw [restContents, wrote.contents, List.take_length_add_append, List.append_assoc]
        · have joined := wrote.append (restWrote ok)
          rw [sameEnd] at joined
          exact joined
      · simp only [if_neg succeeded]
        refine ⟨kept, ?_, ?_, fun ok => absurd ok succeeded⟩
        · rw [List.length_append]
          exact bound.trans (Nat.le_add_right _ _)
        · rw [contents, List.take_append_of_le_length bound]
    · rw [if_pos short, if_pos short]
      obtain ⟨kept, bound, contents, complete⟩ := Writer.turn_take whole
        (fragmentType begins true) left
      refine ⟨kept, bound, contents, fun ok => ⟨?_, offset _ _⟩⟩
      rw [contents, complete ok, List.take_length]

/-- As long as the trailers are whole, `AddRecord` lays out a part of the fragments of the record,
and all of them when it succeeds. -/
theorem Writer.addRecord_take {record : Bytes} (trailers : writer.Trailers record) :
    ∃ kept ≤ (layout writer.blockOffset (fragments record writer.blockOffset)).length,
      (writer.addRecord record).2.dest.contents = writer.dest.contents ++
          (layout writer.blockOffset (fragments record writer.blockOffset)).take kept ∧
        ((writer.addRecord record).1 = true →
          writer.Wrote (fragments record writer.blockOffset) (writer.addRecord record).2) :=
  Writer.addRecordLoop_take (turnsFor_le record writer.blockOffset) trailers

/-! ### When no append fails -/

theorem WritableFile.append_of_outcomes (reliable : file.outcomes = [])
    (data : Bytes) : file.append data = (true, ⟨file.contents ++ data, []⟩) := by
  rw [WritableFile.append, reliable]

theorem Writer.startBlock_outcomes (reliable : writer.dest.outcomes = []) :
    writer.startBlock.dest.outcomes = [] := by
  rw [Writer.startBlock]
  split
  · split
    · rw [WritableFile.append_of_outcomes reliable]
    · exact reliable
  · exact reliable

theorem Writer.emitPhysicalRecord_of_outcomes (reliable : writer.dest.outcomes = [])
    (type : RecordType) (payload : Bytes) :
    (writer.emitPhysicalRecord type payload).1 = true ∧
      (writer.emitPhysicalRecord type payload).2.dest.outcomes = [] := by
  rw [Writer.emitPhysicalRecord, WritableFile.append_of_outcomes reliable]
  exact ⟨rfl, rfl⟩

theorem WritableFile.whole_of_outcomes (reliable : file.outcomes = [])
    (data : Bytes) : file.Whole data := by
  rw [WritableFile.Whole, reliable]
  trivial

theorem Writer.wholeTurn_of_outcomes (reliable : writer.dest.outcomes = []) (type : RecordType)
    (payload : Bytes) : writer.WholeTurn type payload := by
  have started := Writer.startBlock_outcomes reliable
  refine ⟨WritableFile.whole_of_outcomes reliable _, WritableFile.whole_of_outcomes started _, ?_⟩
  rw [WritableFile.append_of_outcomes started, if_pos rfl]
  exact WritableFile.whole_of_outcomes rfl _

/-- When no append fails, the loop succeeds and misses no byte. -/
theorem Writer.addRecordLoop_of_outcomes (begins : Bool)
    (enough : turnsFor left writer.blockOffset ≤ turns) (reliable : writer.dest.outcomes = []) :
    writer.WholeLoop turns begins left ∧ (writer.addRecordLoop turns begins left).1 = true ∧
      (writer.addRecordLoop turns begins left).2.dest.outcomes = [] := by
  induction turns generalizing begins left writer with
  | zero => exact absurd (turnsFor_pos left writer.blockOffset) (Nat.not_lt.mpr enough)
  | succ turns inductionHypothesis =>
    have started := Writer.startBlock_outcomes reliable
    rw [Writer.addRecordLoop_succ, Writer.WholeLoop]
    rcases Nat.lt_or_ge (avail writer.blockOffset) left.length with long | short
    · rw [if_neg (Nat.not_le.mpr long), if_neg (Nat.not_le.mpr long)]
      have whole := Writer.wholeTurn_of_outcomes reliable (fragmentType begins false)
        (left.take (avail writer.blockOffset))
      have wrote := whole.wrote
      obtain ⟨succeeded, reliable'⟩ := Writer.emitPhysicalRecord_of_outcomes started
        (fragmentType begins false) (left.take (avail writer.blockOffset))
      have next : turnsFor (left.drop (avail writer.blockOffset))
          (writer.startBlock.emitPhysicalRecord (fragmentType begins false)
            (left.take (avail writer.blockOffset))).2.blockOffset ≤ turns := by
        rw [wrote.offset]
        refine le_of_eq_of_le (congrArg _ ?_) (turnsFor_drop enough long)
        exact endOffset_of_filled (List.length_take_of_le long.le)
      have rest := inductionHypothesis false next reliable'
      simp only [if_pos succeeded]
      exact ⟨⟨whole, fun _ => rest.1⟩, rest.2⟩
    · rw [if_pos short, if_pos short]
      exact ⟨Writer.wholeTurn_of_outcomes reliable _ _,
        Writer.emitPhysicalRecord_of_outcomes started _ _⟩

/-- When no append fails, `AddRecord` succeeds and lays out the fragments of the record. -/
theorem Writer.addRecord_of_outcomes (reliable : writer.dest.outcomes = []) (record : Bytes) :
    (writer.addRecord record).1 = true ∧ (writer.addRecord record).2.dest.outcomes = [] ∧
      writer.Wrote (fragments record writer.blockOffset) (writer.addRecord record).2 := by
  have enough := turnsFor_le record writer.blockOffset
  obtain ⟨whole, succeeded, reliable'⟩ := Writer.addRecordLoop_of_outcomes true enough reliable
  obtain ⟨count, wrote, complete⟩ := Writer.addRecord_wrote whole
  rw [List.take_of_length_le (complete succeeded)] at wrote
  exact ⟨succeeded, reliable', wrote⟩

theorem Writer.trailersLoop_of_outcomes (turns : Nat) (begins : Bool) (left : Bytes)
    (reliable : writer.dest.outcomes = []) :
    writer.TrailersLoop turns begins left := by
  induction turns generalizing begins left writer with
  | zero => trivial
  | succ turns inductionHypothesis =>
    refine ⟨WritableFile.whole_of_outcomes reliable _, fun _ _ => inductionHypothesis _ _ ?_⟩
    exact (Writer.emitPhysicalRecord_of_outcomes (Writer.startBlock_outcomes reliable) _ _).2

theorem Writer.trailers_of_outcomes (reliable : writer.dest.outcomes = [])
    (record : Bytes) : writer.Trailers record :=
  Writer.trailersLoop_of_outcomes _ _ _ reliable

end LevelDb.Log
