/-
This file proves when a block survives its compression with zlib. `compress` returns nothing: an error
of `deflate` shows in nothing but the bytes that were appended, and the size of these alone decides
what is stored. While `deflate` fails with input left the loop over the input goes round; when it fails
in the end the part of the stream that was put out is stored, unless it is too long to save an eighth.
-/

import LevelDb.ZlibRoundTrip
import LevelDb.Sst.StoredBlocks

namespace LevelDb

open Lib (EndsWith)

variable {Deflating Inflating : Type} {zlib : Zlib Deflating Inflating}
  {isStream : Bytes → Bytes → Prop}

/-- `decompress` gives the data of the complete stream that its input starts with. -/
theorem ZlibCompressorBase.decompress_endsWith_iff (compressor : ZlibCompressorBase)
    (inflates : zlib.InflateContract compressor.window isStream) {input raw : Bytes} :
    EndsWith (fun fuel => compressor.decompress zlib fuel input) raw ↔
      ∃ stream, stream <+: availIn input ∧ isStream stream raw := by
  obtain ⟨⟨ret, result⟩, ⟨enough, runs⟩, raw', isResult, isOk, accepts⟩ :=
    compressor.inflate_endsWith inflates input []
  obtain rfl : result = raw' := isResult
  have decompresses (fuel : Nat) (le : enough ≤ fuel) :
      compressor.decompress zlib fuel input = if ret = zOk then some result else none := by
    have inflated : compressor.inflate zlib fuel input [] = some (ret, result) := runs fuel le
    rw [decompress, inflated]
  constructor
  · rintro ⟨enough', runs'⟩
    have isRaw : compressor.decompress zlib (max enough enough') input = some raw :=
      runs' _ (le_max_right _ _)
    rw [decompresses _ (le_max_left _ _)] at isRaw
    obtain ⟨noError, same⟩ := Option.ite_none_right_eq_some.mp isRaw
    obtain rfl := Option.some.inj same
    exact isOk noError
  · rintro ⟨stream, isPrefix, complete⟩
    have noError : ret = zOk := accepts ⟨stream, raw, isPrefix, complete⟩
    obtain ⟨stream', isPrefix', complete'⟩ := isOk noError
    have same : raw = result := by
      rcases Nat.le_total stream.length stream'.length with le | le
      · obtain ⟨more, whole⟩ := List.prefix_of_prefix_length_le isPrefix isPrefix' le
        exact (inflates.delimited stream more raw result complete (whole ▸ complete')).2.symm
      · obtain ⟨more, whole⟩ := List.prefix_of_prefix_length_le isPrefix' isPrefix le
        exact (inflates.delimited stream' more result raw complete' (whole ▸ complete)).2
    refine ⟨enough, fun fuel le => ?_⟩
    show compressor.decompress zlib fuel input = _
    rw [decompresses fuel le, if_pos noError, same]

namespace Sst

/-! ### Writing and reading the block -/

/-- A zlib compressor as `WriteBlock` and `ReadBlock` see it, when `compressImpl` appended some
bytes. -/
def zlibCompressed (compressor : ZlibCompressorBase) (zlib : Zlib Deflating Inflating)
    (compressed : Bytes) (fuel : Nat) : Compressor where
  uniqueCompressionID := compressor.uniqueCompressionID
  compress _ := compressed
  decompress := compressor.decompress zlib fuel

/-- Compressors with a first one. -/
def withFirst (compressors : Compressors) (compressor : Compressor) : Compressors :=
  fun slot => if slot = 0 then some compressor else compressors slot

/-- A builder that compresses with zlib. -/
def TableBuilder.withZlib (builder : TableBuilder) (compressor : ZlibCompressorBase)
    (zlib : Zlib Deflating Inflating) (compressed : Bytes) : TableBuilder :=
  { builder with options := { builder.options with
      compressors := withFirst builder.options.compressors
        (zlibCompressed compressor zlib compressed 0) } }

/-- `compressImpl` ends, and behind `WriteBlock` the builder has an error or `ReadBlock` gives back
the block. -/
def BlockSurvives (builder : TableBuilder) (compressor : ZlibCompressorBase)
    (zlib : Zlib Deflating Inflating) (raw : Bytes) : Prop :=
  ∃ compressed, EndsWith (fun fuel => compressor.compressImpl zlib fuel raw []) compressed ∧
    (((builder.withZlib compressor zlib compressed).writeBlock raw).2.status ≠ none ∨
      ∀ file : RandomAccessFile,
        file.Returns ((builder.withZlib compressor zlib compressed).writeBlock raw).2.file.contents →
        ∀ verifyChecksums, ∃ enough, ∀ fuel, enough ≤ fuel → ∃ block,
          readBlock file (withFirst builder.options.compressors
            (zlibCompressed compressor zlib compressed fuel)) verifyChecksums
            ((builder.withZlib compressor zlib compressed).writeBlock raw).1 = .ok (.ok block) ∧
          block.data = raw)

/-- A file fails one of its next two calls. -/
def WritableFile.RefusesBlock (file : WritableFile) : Prop :=
  ∃ outcome ∈ file.outcomes.take 2, outcome ≠ none

theorem findCompressor_withFirst {compressor : Compressor} (compressors : Compressors)
    (positive : 0 < compressor.uniqueCompressionID.toInt) :
    findCompressor compressor.uniqueCompressionID.toUInt8
      (List.ofFn (withFirst compressors compressor)) = some compressor := by
  have isByte := toNat_toUInt8 compressor.uniqueCompressionID
  rw [if_pos positive.le] at isByte
  rw [List.ofFn_succ]
  show findCompressor _ (some compressor :: _) = _
  rw [findCompressor, isByte, if_pos rfl]

theorem writeRawBlock_status_iff (builder : TableBuilder) (contents : Bytes)
    (compressor : Option Compressor) :
    (builder.writeRawBlock contents compressor).2.status ≠ none ↔ builder.file.RefusesBlock := by
  rw [TableBuilder.writeRawBlock, WritableFile.RefusesBlock]
  generalize builder.file = file
  obtain ⟨written, outcomes⟩ := file
  cases outcomes with
  | nil => simp [WritableFile.append]
  | cons first rest =>
    cases first with
    | some failure => simp [WritableFile.append]
    | none =>
      cases rest with
      | nil => simp [WritableFile.append]
      | cons second rest =>
        cases second with
        | some failure => simp [WritableFile.append]
        | none => simp [WritableFile.append]

/-- What `ReadBlock` makes of a block that was just written. -/
theorem readBlock_written {builder : TableBuilder} {raw : Bytes}
    (succeeds : (builder.writeBlock raw).2.status = none)
    (isOffset : builder.offset = builder.file.contents.length)
    (small : (chooseContents (builder.options.compressors 0) raw).1.length + kBlockTrailerSize < 2 ^ 64)
    {file : RandomAccessFile} (returns : file.Returns (builder.writeBlock raw).2.file.contents)
    (compressors : Compressors) (verifyChecksums : Bool) :
    readBlock file compressors verifyChecksums (builder.writeBlock raw).1 =
      .ok (readTyped compressors file.usesScratch
        (typeByte (chooseContents (builder.options.compressors 0) raw).2)
        (chooseContents (builder.options.compressors 0) raw).1) := by
  obtain ⟨written, contents, result⟩ := TableBuilder.writeBlock_ok succeeds
  obtain ⟨chosen, isChosen⟩ : ∃ chosen, chosen = chooseContents (builder.options.compressors 0) raw :=
    ⟨_, rfl⟩
  rw [result] at returns ⊢
  dsimp only at returns ⊢
  rw [writtenBlock, ← isChosen] at contents
  rw [← isChosen] at small ⊢
  have length := length_rawBlock chosen.1 chosen.2
  refine readBlock_rawBlock compressors verifyChecksums rfl small ?_
  rw [returns _ _ (by rw [contents, List.length_append, length, isOffset]), contents, isOffset,
    List.drop_left, ← length, List.take_length]

/-- A block that was stored compressed comes back when `decompress` gives it back. -/
theorem readTyped_zlib_iff {compressor : ZlibCompressorBase}
    (positive : 0 < compressor.uniqueCompressionID.toInt) (compressors : Compressors)
    (usesScratch : Bool) (compressed raw : Bytes) (fuel : Nat) :
    (∃ block, readTyped (withFirst compressors (zlibCompressed compressor zlib compressed fuel))
        usesScratch (typeByte (some (zlibCompressed compressor zlib compressed 0))) compressed =
          .ok block ∧ block.data = raw) ↔
      compressor.decompress zlib fuel compressed = some raw := by
  have typed : typeByte (some (zlibCompressed compressor zlib compressed 0)) ≠ 0 := fun zero => by
    have isByte := toNat_toUInt8 compressor.uniqueCompressionID
    rw [show compressor.uniqueCompressionID.toUInt8 = 0 from zero, if_pos positive.le] at isByte
    exact positive.ne isByte
  have found : findCompressor (typeByte (some (zlibCompressed compressor zlib compressed 0)))
      (List.ofFn (withFirst compressors (zlibCompressed compressor zlib compressed fuel))) =
        some (zlibCompressed compressor zlib compressed fuel) :=
    findCompressor_withFirst compressors positive
  have isDecompress : (zlibCompressed compressor zlib compressed fuel).decompress compressed =
    compressor.decompress zlib fuel compressed := rfl
  rw [readTyped, if_neg typed, found]
  dsimp only
  rw [isDecompress]
  cases compressor.decompress zlib fuel compressed with
  | none =>
    refine iff_of_false ?_ fun impossible => by cases impossible
    rintro ⟨_, impossible, _⟩
    cases impossible
  | some result =>
    constructor
    · rintro ⟨block, isBlock, rfl⟩
      rw [← Except.ok.inj isBlock]
    · intro same
      exact ⟨_, rfl, Option.some.inj same⟩

section Survival

variable {builder : TableBuilder} {compressor : ZlibCompressorBase} {raw : Bytes}

/-- What is read back of a block, when the file takes it. -/
theorem read_withZlib_iff (positive : 0 < compressor.uniqueCompressionID.toInt)
    (inflates : zlib.InflateContract compressor.window isStream)
    (isOffset : builder.offset = builder.file.contents.length)
    (small : builder.file.contents.length + raw.length + kBlockTrailerSize < 2 ^ 64)
    {compressed : Bytes}
    (accepted : ((builder.withZlib compressor zlib compressed).writeBlock raw).2.status = none) :
    (∀ file : RandomAccessFile,
      file.Returns ((builder.withZlib compressor zlib compressed).writeBlock raw).2.file.contents →
      ∀ verifyChecksums, ∃ enough, ∀ fuel, enough ≤ fuel → ∃ block,
        readBlock file (withFirst builder.options.compressors
          (zlibCompressed compressor zlib compressed fuel)) verifyChecksums
          ((builder.withZlib compressor zlib compressed).writeBlock raw).1 = .ok (.ok block) ∧
        block.data = raw) ↔
      (∃ stream, stream <+: availIn compressed ∧ isStream stream raw) ∨
        raw.length - raw.length / 8 ≤ compressed.length := by
  have options : (builder.withZlib compressor zlib compressed).options.compressors 0 =
    some (zlibCompressed compressor zlib compressed 0) := rfl
  have read (file : RandomAccessFile) (returns : file.Returns
      ((builder.withZlib compressor zlib compressed).writeBlock raw).2.file.contents)
      (verifyChecksums : Bool) (fuel : Nat)
      (fits : (chooseContents (some (zlibCompressed compressor zlib compressed 0)) raw).1.length +
        kBlockTrailerSize < 2 ^ 64) :=
    readBlock_written accepted isOffset (options ▸ fits) returns
      (withFirst builder.options.compressors (zlibCompressed compressor zlib compressed fuel))
      verifyChecksums
  rw [options] at read
  by_cases smaller : compressed.length < raw.length - raw.length / 8
  · have chosen : chooseContents (some (zlibCompressed compressor zlib compressed 0)) raw =
        (compressed, some (zlibCompressed compressor zlib compressed 0)) := if_pos smaller
    rw [chosen] at read
    have fits : compressed.length + kBlockTrailerSize < 2 ^ 64 := by omega
    rw [or_iff_left (not_le.mpr smaller), ← compressor.decompress_endsWith_iff inflates]
    constructor
    · intro reads
      obtain ⟨enough, runs⟩ := reads _ (RandomAccessFile.returns_ofBytes _) true
      refine ⟨enough, fun fuel le => ?_⟩
      obtain ⟨block, isBlock, isRaw⟩ := runs fuel le
      rw [read _ (RandomAccessFile.returns_ofBytes _) true fuel fits] at isBlock
      exact (readTyped_zlib_iff positive _ _ compressed raw fuel).mp
        ⟨block, Except.ok.inj isBlock, isRaw⟩
    · rintro ⟨enough, runs⟩ file returns verifyChecksums
      refine ⟨enough, fun fuel le => ?_⟩
      obtain ⟨block, isBlock, isRaw⟩ := (readTyped_zlib_iff positive builder.options.compressors
        file.usesScratch compressed raw fuel).mpr (runs fuel le)
      refine ⟨block, ?_, isRaw⟩
      rw [read file returns verifyChecksums fuel fits, isBlock]
  · have chosen : chooseContents (some (zlibCompressed compressor zlib compressed 0)) raw =
        (raw, none) := if_neg smaller
    rw [chosen] at read
    have fits : raw.length + kBlockTrailerSize < 2 ^ 64 := by omega
    refine iff_of_true (fun file returns verifyChecksums => ⟨0, fun fuel _ => ?_⟩)
      (.inr (not_lt.mp smaller))
    exact ⟨⟨raw, file.usesScratch, file.usesScratch⟩, read file returns verifyChecksums fuel fits, rfl⟩

/-- A block survives its compression exactly when `deflate` takes all of it, and when it then fails to
finish the stream only after it put out all of it, or too much to save an eighth; or when the file
refuses the block. -/
theorem block_survives_iff (positive : 0 < compressor.uniqueCompressionID.toInt)
    (deflates : zlib.DeflateContract compressor.compressionLevel compressor.window isStream)
    (inflates : zlib.InflateContract compressor.window isStream)
    (isOffset : builder.offset = builder.file.contents.length)
    (small : builder.file.contents.length + raw.length + kBlockTrailerSize < 2 ^ 64) :
    BlockSurvives builder compressor zlib raw ↔
      ∃ last fed,
        zlib.TakesAll (zlib.deflateInit2 compressor.compressionLevel compressor.window).2
          (availIn raw) [] last fed ∧
        ∃ ret output, zlib.Finishes last fed ret output ∧
          (ret = zStreamEnd ∧ raw.length < 2 ^ 32 ∨
            (∃ stream, stream <+: availIn output ∧ isStream stream raw) ∨
            raw.length - raw.length / 8 ≤ output.length ∨ builder.file.RefusesBlock) := by
  have status (compressed : Bytes) :
      ((builder.withZlib compressor zlib compressed).writeBlock raw).2.status ≠ none ↔
        builder.file.RefusesBlock := writeRawBlock_status_iff _ _ _
  have survives (compressed : Bytes)
      (accepted : ((builder.withZlib compressor zlib compressed).writeBlock raw).2.status = none) :=
    read_withZlib_iff positive inflates isOffset small accepted
  rw [BlockSurvives]
  constructor
  · rintro ⟨compressed, ends, kept⟩
    obtain ⟨last, fed, ret, output, takesAll, finishes, same⟩ :=
      (compressor.compressImpl_endsWith_iff_finishes deflates.output_le).mp ends
    obtain rfl : compressed = output := same
    refine ⟨last, fed, takesAll, ret, compressed, finishes, .inr ?_⟩
    by_cases refuses : builder.file.RefusesBlock
    · exact .inr (.inr refuses)
    · have accepted := not_not.mp (refuses ∘ (status compressed).mp)
      obtain complete | long := (survives compressed accepted).mp (kept.resolve_left (not_not.mpr accepted))
      · exact .inl complete
      · exact .inr (.inl long)
  · rintro ⟨last, fed, takesAll, ret, output, finishes, kept⟩
    refine ⟨output, (compressor.compressImpl_endsWith_iff_finishes deflates.output_le).mpr
      ⟨last, fed, ret, output, takesAll, finishes, (List.nil_append output).symm⟩, ?_⟩
    by_cases refuses : builder.file.RefusesBlock
    · exact .inl ((status output).mpr refuses)
    · refine .inr ((survives output (not_not.mp (refuses ∘ (status output).mp))).mpr ?_)
      obtain ⟨isEnd, short⟩ | complete | long | isRefused := kept
      · have whole := finishes.complete deflates (takesAll.deflates .init) isEnd
        rw [List.nil_append, availIn_of_lt short] at whole
        by_cases long : raw.length - raw.length / 8 ≤ output.length
        · exact .inr long
        · refine .inl ⟨output, ?_, whole⟩
          rw [availIn_of_lt (lt_of_lt_of_le (not_le.mp long) (by omega))]
      · exact .inl complete
      · exact .inr long
      · exact absurd isRefused refuses

end Survival

theorem block_survives_stored :
    BlockSurvives (.new ⟨0, false, 4096, 16, fun _ => none, none⟩ ⟨[], []⟩) (zlibCompressorRaw 0)
      storedZlib [97, 98, 99] := by
  obtain ⟨last, fed, stream, takesAll, finishes, -⟩ := (zlibCompressorRaw 0).exists_stream
    (storedZlib_deflateContract 0 (-15)) (storedZlib_noErrors 0 (-15))
    (show [97, 98, 99].length < 2 ^ 32 by decide)
  exact (block_survives_iff (by decide) (storedZlib_deflateContract 0 (-15))
    (storedZlib_inflateContract (-15)) rfl (by decide)).mpr
    ⟨last, fed, takesAll, zStreamEnd, stream, finishes, .inl ⟨rfl, by decide⟩⟩

def zMemError : Int := -4
def zStreamError : Int := -2

/-- The zlib that stores, when `deflateInit2` finds no memory: every call of `deflate` then fails. -/
def failedZlib : Zlib StoredDeflating StoredInflating :=
  { storedZlib with
    deflateInit2 _ _ := (zMemError, ⟨[], none⟩)
    deflate strm _ _ _ := ⟨zStreamError, strm, 0, []⟩ }

theorem failedZlib_output {level windowBits : Int} {flush : Flush} {strm : StoredDeflating}
    {taken output : Bytes} (deflates : failedZlib.Deflates level windowBits flush strm taken output) :
    output.length = 0 := by
  induction deflates with
  | init => rfl
  | noFlush _ _ _ _ _ inductionHypothesis =>
    exact (congrArg List.length (List.append_nil _)).trans inductionHypothesis
  | finish _ _ _ inductionHypothesis =>
    exact (congrArg List.length (List.append_nil _)).trans inductionHypothesis

theorem failedZlib_deflateContract (level windowBits : Int) :
    failedZlib.DeflateContract level windowBits IsStored where
  output_le _ _ availOut _ := Nat.zero_le availOut
  noFlush_stops _ _ _ _ _ _ _ _ isOk := absurd (show zStreamError = zOk from isOk) (by decide)
  finish_stops _ _ _ _ _ _ _ isOk := absurd (show zStreamError = zOk from isOk) (by decide)
  finished _ _ _ _ _ _ _ isEnd := absurd (show zStreamError = zStreamEnd from isEnd) (by decide)
  bounded _ := ⟨0, fun _ _ _ _ deflates _ => (failedZlib_output deflates).le⟩

theorem failedZlib_inflates {windowBits : Int} {strm : StoredInflating} {taken output : Bytes}
    (inflates : failedZlib.Inflates windowBits strm taken output) :
    storedZlib.Inflates windowBits strm taken output := by
  induction inflates with
  | init => exact .init
  | call input availOut _ positive goesOn inductionHypothesis =>
    exact .call input availOut inductionHypothesis positive goesOn

theorem failedZlib_inflateContract (windowBits : Int) :
    failedZlib.InflateContract windowBits IsStored :=
  have stored := storedZlib_inflateContract windowBits
  { opened := rfl
    taken_le := stored.taken_le
    output_le := stored.output_le
    returns := stored.returns
    progress := fun _ _ _ _ _ inflates => stored.progress _ _ _ _ _ (failedZlib_inflates inflates)
    ended := fun _ _ _ _ _ inflates => stored.ended _ _ _ _ _ (failedZlib_inflates inflates)
    stays := fun _ _ _ _ _ inflates => stored.stays _ _ _ _ _ (failedZlib_inflates inflates)
    accepts := fun _ _ _ _ _ _ _ inflates =>
      stored.accepts _ _ _ _ _ _ _ (failedZlib_inflates inflates)
    bounded := fun length =>
      (stored.bounded length).imp fun _ bounded _ _ _ inflates =>
        bounded _ _ _ (failedZlib_inflates inflates)
    delimited := stored.delimited }

theorem failedZlib_takesAll {strm last : StoredDeflating} {input output output' : Bytes}
    (takesAll : failedZlib.TakesAll strm input output last output') : input = [] := by
  induction takesAll with
  | done _ _ => rfl
  | call _ _ inductionHypothesis => exact inductionHypothesis

/-- Without memory for zlib a block is compressed for ever. -/
theorem block_lost_without_memory :
    failedZlib.DeflateContract 6 15 IsStored ∧ failedZlib.InflateContract 15 IsStored ∧
      ¬ BlockSurvives (.new ⟨0, false, 4096, 16, fun _ => none, none⟩ ⟨[], []⟩) (zlibCompressor 6)
        failedZlib [97, 98, 99] := by
  refine ⟨failedZlib_deflateContract 6 15, failedZlib_inflateContract 15, ?_⟩
  rintro ⟨compressed, ends, -⟩
  obtain ⟨_, _, _, _, takesAll, -⟩ := ((zlibCompressor 6).compressImpl_endsWith_iff_finishes
    (failedZlib_deflateContract 6 15).output_le).mp ends
  exact absurd (failedZlib_takesAll takesAll) (by decide)

end Sst

end LevelDb
