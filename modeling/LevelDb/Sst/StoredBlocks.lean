/-
This file proves that what is stored in a file is read back from a file that returns what was
written: blocks through their handles, the handles themselves, and the footer.
-/

import LevelDb.Sst.FinishedTable

namespace LevelDb.Sst

/-! ### Blocks -/

/-- A file returns the bytes that were written, up to their end. -/
def RandomAccessFile.Returns (file : RandomAccessFile) (contents : Bytes) : Prop :=
  ∀ offset n, offset + n ≤ contents.length → file.read offset n = .ok ((contents.drop offset).take n)

theorem RandomAccessFile.returns_ofBytes (contents : Bytes) : (ofBytes contents).Returns contents :=
  fun _ _ _ => rfl

/-- A compressor is registered in some options: its ID is not that of raw blocks, `ReadBlock` finds
it under its ID, and it loses nothing. -/
structure Compressor.Registered (compressors : Compressors) (compressor : Compressor) : Prop where
  nonzero : compressor.uniqueCompressionID ≠ 0
  found : findCompressor compressor.uniqueCompressionID.toUInt8 (List.ofFn compressors) =
    some compressor
  lossless : ∀ raw, compressor.decompress (compressor.compress raw) = some raw

theorem readTyped_chosen {compressors : Compressors} {compressor : Option Compressor}
    (registered : ∀ other ∈ compressor, other.Registered compressors) (usesScratch : Bool)
    (raw : Bytes) :
    ∃ block, readTyped compressors usesScratch (typeByte (chooseContents compressor raw).2)
      (chooseContents compressor raw).1 = .ok block ∧ block.data = raw := by
  cases compressor with
  | none => exact ⟨_, rfl, rfl⟩
  | some compressor =>
    have known := registered compressor rfl
    rw [chooseContents]
    split
    · have typed : typeByte (some compressor) ≠ 0 := fun zero => known.nonzero (by
        rw [← Int8.toInt8_toUInt8 compressor.uniqueCompressionID]
        exact congrArg _ zero)
      rw [readTyped, if_neg typed, typeByte, known.found]
      dsimp only
      rw [known.lossless]
      exact ⟨_, rfl, rfl⟩
    · exact ⟨_, rfl, rfl⟩

section Stored

variable {used : Compressor → Prop} {contents raw : Bytes} {handle : BlockHandle}

/-- A block lies in the file with its trailer. -/
theorem Stored.inside (stored : Stored used contents handle raw) :
    handle.offset + (handle.size + kBlockTrailerSize) ≤ contents.length := by
  obtain ⟨compressor, -, size, front, behind, rfl, offset⟩ := stored.exists_compressor
  rw [List.length_append, List.length_append, writtenBlock, length_rawBlock, offset, size]
  omega

theorem Stored.offset_lt (stored : Stored used contents handle raw)
    (small : contents.length < 2 ^ 64) : handle.offset < 2 ^ 64 := by
  have inside := stored.inside
  omega

theorem Stored.size_lt (stored : Stored used contents handle raw)
    (small : contents.length < 2 ^ 64) : handle.size < 2 ^ 64 := by
  have inside := stored.inside
  omega

/-- `ReadBlock` gives back the contents of a block. -/
theorem Stored.readBlock {compressors : Compressors}
    (stored : Stored (Compressor.Registered compressors) contents handle raw)
    (small : contents.length < 2 ^ 64) {file : RandomAccessFile} (returns : file.Returns contents)
    (verifyChecksums : Bool) :
    ∃ block, Sst.readBlock file compressors verifyChecksums handle = .ok (.ok block) ∧
      block.data = raw := by
  have inside := stored.inside
  obtain ⟨compressor, isUsed, size, front, behind, isContents, offset⟩ := stored.exists_compressor
  have length := length_rawBlock (chooseContents compressor raw).1 (chooseContents compressor raw).2
  have read : file.read handle.offset
      ((chooseContents compressor raw).1.length + kBlockTrailerSize) =
        .ok (rawBlock (chooseContents compressor raw).1 (chooseContents compressor raw).2) := by
    rw [returns _ _ (size ▸ inside), isContents, ← offset, List.drop_left, writtenBlock, ← length,
      List.take_left]
  obtain ⟨block, typed, data⟩ := readTyped_chosen isUsed file.usesScratch raw
  refine ⟨block, ?_, data⟩
  rw [readBlock_rawBlock compressors verifyChecksums size (by omega) read, typed]

theorem Stored.mono {used' : Compressor → Prop} (stored : Stored used contents handle raw)
    (implied : ∀ compressor, used compressor → used' compressor) : Stored used' contents handle raw := by
  obtain ⟨compressor, isUsed, rest⟩ := stored.exists_compressor
  exact ⟨compressor, fun other member => implied other (isUsed other member), rest⟩

end Stored

/-! ### Handles and the footer -/

/-- A handle that is encoded is decoded again. -/
theorem BlockHandle.decodeFrom_encodeTo {handle : BlockHandle} (offset : handle.offset < 2 ^ 64)
    (size : handle.size < 2 ^ 64) (rest : Bytes) :
    decodeFrom (handle.encodeTo ++ rest) = .ok (handle, rest) := by
  rw [decodeFrom, encodeTo, List.append_assoc, getVarint64_encodeVarint64 offset]
  dsimp only
  rw [getVarint64_encodeVarint64 size]

theorem Stored.decodeFrom {used : Compressor → Prop} {contents raw : Bytes} {handle : BlockHandle}
    (stored : Stored used contents handle raw) (small : contents.length < 2 ^ 64) (rest : Bytes) :
    BlockHandle.decodeFrom (handle.encodeTo ++ rest) = .ok (handle, rest) :=
  BlockHandle.decodeFrom_encodeTo (stored.offset_lt small) (stored.size_lt small) rest

theorem length_encodeVarintLoop_le (room v : Nat) : (encodeVarintLoop room v).length ≤ room := by
  induction room generalizing v with
  | zero => exact le_of_eq rfl
  | succ room inductionHypothesis =>
    rw [encodeVarintLoop]
    split
    · rw [List.length_cons]
      exact Nat.succ_le_succ (inductionHypothesis _)
    · exact Nat.succ_le_succ (Nat.zero_le room)

theorem BlockHandle.length_encodeTo_le (handle : BlockHandle) : handle.encodeTo.length ≤ 20 := by
  have first := length_encodeVarintLoop_le 10 handle.offset
  have second := length_encodeVarintLoop_le 10 handle.size
  rw [encodeTo, List.length_append, encodeVarint64, encodeVarint64]
  omega

namespace Footer

variable (footer : Footer)

theorem length_handles_le :
    (footer.metaindexHandle.encodeTo ++ footer.indexHandle.encodeTo).length ≤ kHandlesLength := by
  have first := footer.metaindexHandle.length_encodeTo_le
  have second := footer.indexHandle.length_encodeTo_le
  rw [List.length_append, kHandlesLength]
  omega

theorem encodeTo_eq : ∃ padding : Bytes, footer.encodeTo =
    (footer.metaindexHandle.encodeTo ++ (footer.indexHandle.encodeTo ++ padding)) ++
      (encodeFixed32 (kTableMagicNumber % 2 ^ 32) ++ encodeFixed32 (kTableMagicNumber >>> 32)) ∧
    (footer.metaindexHandle.encodeTo ++ (footer.indexHandle.encodeTo ++ padding)).length =
      kHandlesLength := by
  have fits := footer.length_handles_le
  refine ⟨List.replicate (kHandlesLength -
    (footer.metaindexHandle.encodeTo ++ footer.indexHandle.encodeTo).length) 0, ?_, ?_⟩
  · rw [encodeTo, resize, List.take_of_length_le fits, List.append_assoc footer.metaindexHandle.encodeTo]
  · rw [← List.append_assoc, List.length_append, List.length_replicate]
    omega

theorem length_encodeTo : footer.encodeTo.length = kEncodedLength := by
  obtain ⟨padding, encoded, length⟩ := footer.encodeTo_eq
  rw [encoded, List.length_append, length, List.length_append, length_encodeFixed32,
    length_encodeFixed32]
  rfl

/-- A footer that is encoded is decoded again. -/
theorem decodeFrom_encodeTo
    (metaindexHandle : footer.metaindexHandle.offset < 2 ^ 64 ∧ footer.metaindexHandle.size < 2 ^ 64)
    (indexHandle : footer.indexHandle.offset < 2 ^ 64 ∧ footer.indexHandle.size < 2 ^ 64) :
    decodeFrom footer.encodeTo = .ok (.ok footer) := by
  have whole := footer.length_encodeTo
  obtain ⟨padding, encoded, length⟩ := footer.encodeTo_eq
  have low := decodeFixed32_encodeFixed32 (show kTableMagicNumber % 2 ^ 32 < 2 ^ 32 by decide)
    (encodeFixed32 (kTableMagicNumber >>> 32))
  have high := decodeFixed32_encodeFixed32 (show kTableMagicNumber >>> 32 < 2 ^ 32 by decide) []
  have behind : footer.encodeTo.drop kHandlesLength =
      encodeFixed32 (kTableMagicNumber % 2 ^ 32) ++ encodeFixed32 (kTableMagicNumber >>> 32) := by
    rw [encoded, ← length, List.drop_left]
  have last : (encodeFixed32 (kTableMagicNumber % 2 ^ 32) ++
      encodeFixed32 (kTableMagicNumber >>> 32)).drop 4 = encodeFixed32 (kTableMagicNumber >>> 32) :=
    List.drop_left' (length_encodeFixed32 _)
  have magic : (kTableMagicNumber >>> 32) <<< 32 ||| kTableMagicNumber % 2 ^ 32 =
      kTableMagicNumber := by decide
  rw [List.append_nil] at high
  rw [decodeFrom, if_neg (not_lt.mpr whole.ge)]
  dsimp only
  rw [behind, last, low, high, if_neg (not_not.mpr magic), encoded, List.append_assoc,
    BlockHandle.decodeFrom_encodeTo metaindexHandle.1 metaindexHandle.2]
  dsimp only
  rw [List.append_assoc, BlockHandle.decodeFrom_encodeTo indexHandle.1 indexHandle.2]

end Footer

/-- The footer at the end of a file is read. -/
theorem readFooter_append {file : RandomAccessFile} {front : Bytes} {footer : Footer}
    (returns : file.Returns (front ++ footer.encodeTo))
    (metaindexHandle : footer.metaindexHandle.offset < 2 ^ 64 ∧ footer.metaindexHandle.size < 2 ^ 64)
    (indexHandle : footer.indexHandle.offset < 2 ^ 64 ∧ footer.indexHandle.size < 2 ^ 64) :
    readFooter file (front ++ footer.encodeTo).length = .ok (.ok footer) := by
  have length : (front ++ footer.encodeTo).length = front.length + Footer.kEncodedLength := by
    rw [List.length_append, footer.length_encodeTo]
  have start : (front ++ footer.encodeTo).length - Footer.kEncodedLength = front.length := by
    rw [length, Nat.add_sub_cancel]
  rw [readFooter, if_neg (by rw [length]; exact not_lt.mpr (Nat.le_add_left _ _)), start,
    returns _ _ length.ge, List.drop_left, List.take_of_length_le footer.length_encodeTo.le]
  exact footer.decodeFrom_encodeTo metaindexHandle indexHandle

end LevelDb.Sst
