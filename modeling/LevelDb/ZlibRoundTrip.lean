/-
This file proves the round trip of the compressor: while zlib keeps what it documents and no call of
`deflate` fails, an input of less than 2^32 bytes is compressed to the stream that `deflate` put out,
and `inflate` gives it back when the stream is that short as well. `inflate` is told of the length of a
longer stream modulo 2^32, and ends with an error.
-/

import LevelDb.ZlibStored

namespace LevelDb

open Lib (EndsWith)

variable {Deflating Inflating : Type} {zlib : Zlib Deflating Inflating}
  {isStream : Bytes → Bytes → Prop}

theorem availIn_of_lt {input : Bytes} (short : input.length < 2 ^ 32) : availIn input = input := by
  rw [availIn, Nat.mod_eq_of_lt short, List.take_length]

theorem availIn_isPrefix (input : Bytes) : availIn input <+: input := List.take_prefix _ _

namespace ZlibCompressorBase

variable (compressor : ZlibCompressorBase)

/-- What `deflate` puts out for an input is a complete stream of it, and what `compressImpl`
appends. -/
theorem exists_stream (deflates : zlib.DeflateContract compressor.compressionLevel compressor.window
      isStream)
    (noErrors : zlib.NoDeflateErrors compressor.compressionLevel compressor.window) {input : Bytes}
    (short : input.length < 2 ^ 32) :
    ∃ last fed stream,
      zlib.TakesAll (zlib.deflateInit2 compressor.compressionLevel compressor.window).2 input []
        last fed ∧
      zlib.Finishes last fed zStreamEnd stream ∧ isStream stream input ∧
      ∀ buffer, EndsWith (fun fuel => compressor.compressImpl zlib fuel input buffer)
        (buffer ++ stream) := by
  obtain ⟨bound, bounded⟩ := deflates.bounded input.length
  have within : ([] : Bytes).length + input.length ≤ input.length := (Nat.zero_add input.length).le
  obtain ⟨last, fed, takesAll⟩ := deflates.exists_takesAll noErrors bounded within .init
  have isLast := takesAll.deflates .init
  obtain ⟨ret, stream, finishes, noError⟩ := deflates.exists_finishes
    (fun flush strm output isCalled => bounded flush strm input output isCalled le_rfl) isLast
  obtain rfl := noError noErrors
  refine ⟨last, fed, stream, takesAll, finishes, finishes.complete deflates isLast rfl,
    fun buffer => ?_⟩
  refine (compressor.compressImpl_endsWith_iff_finishes deflates.output_le).mpr
    ⟨last, fed, zStreamEnd, stream, ?_, finishes, rfl⟩
  rw [availIn_of_lt short]
  exact takesAll

/-- A complete stream is inflated exactly when `inflate` is told of its whole length. -/
theorem inflate_stream_iff (inflates : zlib.InflateContract compressor.window isStream)
    {stream raw : Bytes} (complete : isStream stream raw) :
    (∀ output, EndsWith (fun fuel => compressor.inflate zlib fuel stream output)
      (zOk, output ++ raw)) ↔ stream.length < 2 ^ 32 := by
  constructor
  · intro ends
    by_contra long
    obtain ⟨result, isResult, raw', isOutput, isOk, -⟩ := compressor.inflate_endsWith inflates stream []
    have same := isResult.unique (ends [])
    obtain ⟨front, isPrefix, complete'⟩ := isOk (congrArg Prod.fst same)
    obtain ⟨more, whole⟩ := isPrefix.trans (availIn_isPrefix stream)
    have nothing := (inflates.delimited front more raw' raw complete' (whole ▸ complete)).1
    have cut := isPrefix.length_le
    rw [nothing, List.append_nil] at whole
    rw [whole, availIn, List.length_take] at cut
    have shorter := Nat.mod_lt stream.length (show 0 < 2 ^ 32 by decide)
    omega
  · intro short output
    obtain ⟨⟨ret, result⟩, isResult, raw', isOutput, isOk, accepts⟩ :=
      compressor.inflate_endsWith inflates stream output
    rw [availIn_of_lt short] at isOk accepts
    obtain rfl : ret = zOk := accepts ⟨stream, raw, List.prefix_rfl, complete⟩
    obtain ⟨front, ⟨more, whole⟩, complete'⟩ := isOk rfl
    have same := (inflates.delimited front more raw' raw complete' (whole ▸ complete)).2
    obtain rfl : result = output ++ raw' := isOutput
    rw [same]
    exact isResult

/-- An input that starts with no complete stream ends with an error. -/
theorem inflate_invalid (inflates : zlib.InflateContract compressor.window isStream)
    {input : Bytes} (invalid : ∀ stream raw, stream <+: input → ¬ isStream stream raw)
    (output : Bytes) :
    ∃ result, EndsWith (fun fuel => compressor.inflate zlib fuel input output) result ∧
      result.1 ≠ zOk := by
  obtain ⟨result, isResult, raw, -, isOk, -⟩ := compressor.inflate_endsWith inflates input output
  refine ⟨result, isResult, fun same => ?_⟩
  obtain ⟨stream, isPrefix, complete⟩ := isOk same
  exact invalid stream raw (isPrefix.trans (availIn_isPrefix input)) complete

/-- The loops of the compressor lose nothing: an input is compressed to the complete stream that
`deflate` puts out for it, the stream is inflated to the input exactly when it is shorter than 2^32
bytes, and what starts with no complete stream is refused. -/
theorem chunk_loops_lose_nothing
    (deflates : zlib.DeflateContract compressor.compressionLevel compressor.window isStream)
    (noErrors : zlib.NoDeflateErrors compressor.compressionLevel compressor.window)
    (inflates : zlib.InflateContract compressor.window isStream) :
    (∀ input : Bytes, input.length < 2 ^ 32 → ∃ last fed stream,
      zlib.TakesAll (zlib.deflateInit2 compressor.compressionLevel compressor.window).2 input []
        last fed ∧
      zlib.Finishes last fed zStreamEnd stream ∧ isStream stream input ∧
      (∀ buffer, EndsWith (fun fuel => compressor.compressImpl zlib fuel input buffer)
        (buffer ++ stream)) ∧
      ((∀ output, EndsWith (fun fuel => compressor.inflate zlib fuel stream output)
        (zOk, output ++ input)) ↔ stream.length < 2 ^ 32)) ∧
    ∀ input output : Bytes, (∀ stream raw, stream <+: input → ¬ isStream stream raw) →
      ∃ result, EndsWith (fun fuel => compressor.inflate zlib fuel input output) result ∧
        result.1 ≠ zOk := by
  refine ⟨fun input short => ?_, fun input output invalid =>
    compressor.inflate_invalid inflates invalid output⟩
  obtain ⟨last, fed, stream, takesAll, finishes, complete, compresses⟩ :=
    compressor.exists_stream deflates noErrors short
  exact ⟨last, fed, stream, takesAll, finishes, complete, compresses,
    compressor.inflate_stream_iff inflates complete⟩

theorem chunk_loops_lose_nothing_stored :
    ∃ stream, IsStored stream [97, 98, 99] ∧ stream.length < 2 ^ 32 ∧
      EndsWith (fun fuel => (zlibCompressorRaw 0).compressImpl storedZlib fuel [97, 98, 99] [])
        stream ∧
      EndsWith (fun fuel => (zlibCompressorRaw 0).inflate storedZlib fuel stream [])
        (zOk, [97, 98, 99]) := by
  obtain ⟨_, _, stream, -, -, isStored, compresses, inflated⟩ :=
    ((zlibCompressorRaw 0).chunk_loops_lose_nothing (storedZlib_deflateContract 0 (-15))
      (storedZlib_noErrors 0 (-15)) (storedZlib_inflateContract (-15))).1 [97, 98, 99] (by decide)
  have length := length_storedStream [97, 98, 99]
  have short : stream.length < 2 ^ 32 := by
    rw [show stream = storedStream [97, 98, 99] from isStored, length]
    decide
  exact ⟨stream, isStored, short, compresses [], inflated.mpr short []⟩

theorem stored_not_inflated {input : Bytes} (isLength : input.length = 2 ^ 32 - 1) :
    EndsWith (fun fuel => (zlibCompressorRaw 0).compressImpl storedZlib fuel input [])
        (storedStream input) ∧
      ¬ ∀ output, EndsWith (fun fuel =>
        (zlibCompressorRaw 0).inflate storedZlib fuel (storedStream input) output)
          (zOk, output ++ input) := by
  refine ⟨?_, fun all => ?_⟩
  · obtain ⟨_, _, stream, -, -, isStored, compresses⟩ :=
      (zlibCompressorRaw 0).exists_stream (storedZlib_deflateContract 0 (-15))
        (storedZlib_noErrors 0 (-15)) (isLength.trans_lt (by decide))
    rw [← show stream = storedStream input from isStored]
    exact compresses []
  · have shorter := ((zlibCompressorRaw 0).inflate_stream_iff (storedZlib_inflateContract (-15))
      (show IsStored (storedStream input) input from rfl)).mp all
    rw [length_storedStream, isLength] at shorter
    exact absurd shorter (by decide)

/-- The stream of 2^32 - 1 bytes that are stored is longer than `inflate` can be told. -/
theorem long_stream_not_inflated :
    (storedZlib.DeflateContract 0 (-15) IsStored ∧ storedZlib.NoDeflateErrors 0 (-15) ∧
      storedZlib.InflateContract (-15) IsStored) ∧
    EndsWith (fun fuel => (zlibCompressorRaw 0).compressImpl storedZlib fuel
      (List.replicate (2 ^ 32 - 1) 0) []) (storedStream (List.replicate (2 ^ 32 - 1) 0)) ∧
    ¬ ∀ output, EndsWith (fun fuel => (zlibCompressorRaw 0).inflate storedZlib fuel
      (storedStream (List.replicate (2 ^ 32 - 1) 0)) output)
        (zOk, output ++ List.replicate (2 ^ 32 - 1) 0) :=
  ⟨⟨storedZlib_deflateContract 0 (-15), storedZlib_noErrors 0 (-15),
    storedZlib_inflateContract (-15)⟩, stored_not_inflated List.length_replicate⟩

end ZlibCompressorBase

end LevelDb
