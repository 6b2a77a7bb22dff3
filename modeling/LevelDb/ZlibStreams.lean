/-
This file proves that the loops of the compressor lose nothing. What zlib documents about its streaming
calls is taken as given: of `deflate`, only about the calls that do not fail. The buffers of
`compressImpl` are then seen to hold what `deflate` put out, cut at every 128 KB, so that its loops end
when the calls of zlib do. A stream that is told of whole is inflated again; an input that holds no
stream ends with an error.
-/

import LevelDb.ZlibCompressor

namespace LevelDb

open Lib (loop EndsWith)

variable {Deflating Inflating : Type}

/-! ### What zlib documents -/

namespace Zlib

variable (zlib : Zlib Deflating Inflating)

/-- The calls of `deflate` on one stream: the kind of the last one, the state behind it, and what was
taken and put out so far. All input is given before the stream is finished. -/
inductive Deflates (level windowBits : Int) : Flush → Deflating → Bytes → Bytes → Prop
  | init : Deflates level windowBits .noFlush (zlib.deflateInit2 level windowBits).2 [] []
  | noFlush {strm : Deflating} {taken output : Bytes} (input : Bytes) (availOut : Nat) :
      Deflates level windowBits .noFlush strm taken output → input ≠ [] → 0 < availOut →
        Deflates level windowBits .noFlush (zlib.deflate strm input availOut .noFlush).state
          (taken ++ input.take (zlib.deflate strm input availOut .noFlush).taken)
          (output ++ (zlib.deflate strm input availOut .noFlush).output)
  | finish {flush : Flush} {strm : Deflating} {taken output : Bytes} (availOut : Nat) :
      Deflates level windowBits flush strm taken output → 0 < availOut →
        Deflates level windowBits .finish (zlib.deflate strm [] availOut .finish).state taken
          (output ++ (zlib.deflate strm [] availOut .finish).output)

/-- What is documented about `deflate`, of the calls that do not fail: without a flush it stops when
the input is empty or the output is full, at the end of the input when the stream is complete or the
output is full. The relation says of which data some bytes are a complete stream. -/
structure DeflateContract (level windowBits : Int) (isStream : Bytes → Bytes → Prop) : Prop where
  output_le : ∀ strm input availOut flush,
    (zlib.deflate strm input availOut flush).output.length ≤ availOut
  noFlush_stops : ∀ strm taken output input availOut,
    zlib.Deflates level windowBits .noFlush strm taken output → input ≠ [] → 0 < availOut →
      (zlib.deflate strm input availOut .noFlush).ret = zOk →
        input.length ≤ (zlib.deflate strm input availOut .noFlush).taken ∨
          (zlib.deflate strm input availOut .noFlush).output.length = availOut
  finish_stops : ∀ flush strm taken output availOut,
    zlib.Deflates level windowBits flush strm taken output → 0 < availOut →
      (zlib.deflate strm [] availOut .finish).ret = zOk →
        (zlib.deflate strm [] availOut .finish).output.length = availOut
  finished : ∀ flush strm taken output availOut,
    zlib.Deflates level windowBits flush strm taken output → 0 < availOut →
      (zlib.deflate strm [] availOut .finish).ret = zStreamEnd →
        isStream (output ++ (zlib.deflate strm [] availOut .finish).output) taken
  bounded : ∀ length, ∃ bound, ∀ flush strm taken output,
    zlib.Deflates level windowBits flush strm taken output → taken.length ≤ length →
      output.length ≤ bound

/-- No call of `deflate` fails. -/
structure NoDeflateErrors (level windowBits : Int) : Prop where
  noFlush : ∀ strm taken output input availOut,
    zlib.Deflates level windowBits .noFlush strm taken output → input ≠ [] → 0 < availOut →
      (zlib.deflate strm input availOut .noFlush).ret = zOk
  finish : ∀ flush strm taken output availOut,
    zlib.Deflates level windowBits flush strm taken output → 0 < availOut →
      (zlib.deflate strm [] availOut .finish).ret = zOk ∨
        (zlib.deflate strm [] availOut .finish).ret = zStreamEnd

/-- The calls of `inflate` on one stream that did not fail: the state behind them, and what was taken
and put out so far. -/
inductive Inflates (windowBits : Int) : Inflating → Bytes → Bytes → Prop
  | init : Inflates windowBits (zlib.inflateInit2 windowBits).2 [] []
  | call {strm : Inflating} {taken output : Bytes} (input : Bytes) (availOut : Nat) :
      Inflates windowBits strm taken output → 0 < availOut →
        ((zlib.inflate strm input availOut).ret = zOk ∨
          (zlib.inflate strm input availOut).ret = zStreamEnd) →
        Inflates windowBits (zlib.inflate strm input availOut).state
          (taken ++ input.take (zlib.inflate strm input availOut).taken)
          (output ++ (zlib.inflate strm input availOut).output)

/-- What is documented about `inflate`: a call makes progress or fails, it ends at the end of a
complete stream and stays there, and it does not fail on one. Streams delimit themselves. -/
structure InflateContract (windowBits : Int) (isStream : Bytes → Bytes → Prop) : Prop where
  opened : (zlib.inflateInit2 windowBits).1 = zOk
  taken_le : ∀ strm input availOut, (zlib.inflate strm input availOut).taken ≤ input.length
  output_le : ∀ strm input availOut, (zlib.inflate strm input availOut).output.length ≤ availOut
  returns : ∀ strm input availOut, (zlib.inflate strm input availOut).ret = zOk ∨
    (zlib.inflate strm input availOut).ret = zStreamEnd ∨
      (zlib.inflate strm input availOut).ret = zNeedDict ∨ (zlib.inflate strm input availOut).ret < 0
  progress : ∀ strm taken output input availOut,
    zlib.Inflates windowBits strm taken output → 0 < availOut →
      (zlib.inflate strm input availOut).ret = zOk →
        0 < (zlib.inflate strm input availOut).taken ∨ (zlib.inflate strm input availOut).output ≠ []
  ended : ∀ strm taken output input availOut,
    zlib.Inflates windowBits strm taken output → 0 < availOut →
      (zlib.inflate strm input availOut).ret = zStreamEnd →
        isStream (taken ++ input.take (zlib.inflate strm input availOut).taken)
          (output ++ (zlib.inflate strm input availOut).output)
  stays : ∀ strm taken output input availOut, zlib.Inflates windowBits strm taken output →
    0 < availOut → (zlib.inflate strm input availOut).ret = zStreamEnd → ∀ rest room,
      (zlib.inflate (zlib.inflate strm input availOut).state rest room).ret = zStreamEnd ∧
        (zlib.inflate (zlib.inflate strm input availOut).state rest room).taken = 0 ∧
          (zlib.inflate (zlib.inflate strm input availOut).state rest room).output = []
  accepts : ∀ strm taken output input availOut stream raw,
    zlib.Inflates windowBits strm taken output → 0 < availOut → isStream stream raw →
      stream <+: taken ++ input → (zlib.inflate strm input availOut).ret = zOk ∨
        (zlib.inflate strm input availOut).ret = zStreamEnd
  bounded : ∀ length, ∃ bound, ∀ strm taken output, zlib.Inflates windowBits strm taken output →
    taken.length ≤ length → output.length ≤ bound
  delimited : ∀ stream more raw raw', isStream stream raw → isStream (stream ++ more) raw' →
    more = [] ∧ raw' = raw

/-! ### The calls of the compressor -/

/-- What is left of the buffer of `compressImpl` when `deflate` has put out some bytes. -/
def room (output : Bytes) : Nat := kBufSize - output.length % kBufSize

theorem room_pos (output : Bytes) : 0 < room output :=
  Nat.sub_pos_of_lt (Nat.mod_lt _ (by decide))

/-- The calls of `deflate` take a whole input, when each is given what the ones before it left: the
state behind them, and what was put out. -/
inductive TakesAll : Deflating → Bytes → Bytes → Deflating → Bytes → Prop
  | done (strm : Deflating) (output : Bytes) : TakesAll strm [] output strm output
  | call {strm last : Deflating} {input output output' : Bytes} : input ≠ [] →
      TakesAll (zlib.deflate strm input (room output) .noFlush).state
        (input.drop (zlib.deflate strm input (room output) .noFlush).taken)
        (output ++ (zlib.deflate strm input (room output) .noFlush).output) last output' →
      TakesAll strm input output last output'

/-- The calls of `deflate` that finish a stream: what the first one that does not return `Z_OK`
returns, and what was put out. -/
inductive Finishes : Deflating → Bytes → Int → Bytes → Prop
  | last {strm : Deflating} {output : Bytes} :
      (zlib.deflate strm [] (room output) .finish).ret ≠ zOk →
      Finishes strm output (zlib.deflate strm [] (room output) .finish).ret
        (output ++ (zlib.deflate strm [] (room output) .finish).output)
  | more {strm : Deflating} {output output' : Bytes} {ret : Int} :
      (zlib.deflate strm [] (room output) .finish).ret = zOk →
      Finishes (zlib.deflate strm [] (room output) .finish).state
        (output ++ (zlib.deflate strm [] (room output) .finish).output) ret output' →
      Finishes strm output ret output'

variable {zlib} {level windowBits : Int} {isStream : Bytes → Bytes → Prop}

theorem TakesAll.deflates {strm last : Deflating} {taken input output output' : Bytes}
    (takesAll : zlib.TakesAll strm input output last output')
    (deflates : zlib.Deflates level windowBits .noFlush strm taken output) :
    zlib.Deflates level windowBits .noFlush last (taken ++ input) output' := by
  induction takesAll generalizing taken with
  | done strm output =>
    rw [List.append_nil]
    exact deflates
  | call notEmpty _ inductionHypothesis =>
    have next := inductionHypothesis (.noFlush _ _ deflates notEmpty (room_pos _))
    rwa [List.append_assoc, List.take_append_drop] at next

theorem Finishes.complete {flush : Flush} {strm : Deflating} {taken output output' : Bytes} {ret : Int}
    (finishes : zlib.Finishes strm output ret output')
    (contract : zlib.DeflateContract level windowBits isStream)
    (deflates : zlib.Deflates level windowBits flush strm taken output) (isEnd : ret = zStreamEnd) :
    isStream output' taken := by
  induction finishes generalizing flush with
  | last _ => exact contract.finished _ _ _ _ _ deflates (room_pos _) isEnd
  | more _ _ inductionHypothesis => exact inductionHypothesis (.finish _ deflates (room_pos _)) isEnd

/-- The input is taken, when no call fails. -/
theorem DeflateContract.exists_takesAll (contract : zlib.DeflateContract level windowBits isStream)
    (noErrors : zlib.NoDeflateErrors level windowBits) {strm : Deflating} {taken output input : Bytes}
    {length bound : Nat} (bounded : ∀ flush strm taken output,
      zlib.Deflates level windowBits flush strm taken output → taken.length ≤ length →
        output.length ≤ bound)
    (within : taken.length + input.length ≤ length)
    (deflates : zlib.Deflates level windowBits .noFlush strm taken output) :
    ∃ last output', zlib.TakesAll strm input output last output' := by
  by_cases isEmpty : input = []
  · rw [isEmpty]
    exact ⟨strm, output, .done strm output⟩
  · obtain ⟨call, isCall⟩ : ∃ call, call = zlib.deflate strm input (room output) .noFlush := ⟨_, rfl⟩
    have next := Deflates.noFlush input (room output) deflates isEmpty (room_pos output)
    have stops := contract.noFlush_stops _ _ _ _ _ deflates isEmpty (room_pos output)
      (noErrors.noFlush _ _ _ _ _ deflates isEmpty (room_pos output))
    rw [← isCall] at next stops
    have within' : (taken ++ input.take call.taken).length + (input.drop call.taken).length ≤
        length := by
      rw [← List.length_append, List.append_assoc, List.take_append_drop, List.length_append]
      exact within
    have stays := bounded _ _ _ _ next (le_trans (Nat.le_add_right _ _) within')
    have falls : (input.drop call.taken).length + (bound - (output ++ call.output).length) <
        input.length + (bound - output.length) := by
      have isPositive := List.length_pos_iff.mpr isEmpty
      have roomLeft := room_pos output
      rw [List.length_append] at stays ⊢
      rw [List.length_drop]
      omega
    obtain ⟨last, output', takesAll⟩ := contract.exists_takesAll noErrors bounded within' next
    exact ⟨last, output', .call isEmpty (isCall ▸ takesAll)⟩
termination_by input.length + (bound - output.length)
decreasing_by exact falls

/-- The calls that finish a stream come to an end: it is complete, or one of them failed. -/
theorem DeflateContract.exists_finishes (contract : zlib.DeflateContract level windowBits isStream)
    {flush : Flush} {strm : Deflating} {taken output : Bytes} {bound : Nat}
    (bounded : ∀ flush strm output, zlib.Deflates level windowBits flush strm taken output →
      output.length ≤ bound)
    (deflates : zlib.Deflates level windowBits flush strm taken output) :
    ∃ ret output', zlib.Finishes strm output ret output' ∧
      (zlib.NoDeflateErrors level windowBits → ret = zStreamEnd) := by
  have roomLeft := room_pos output
  by_cases isOk : (zlib.deflate strm [] (room output) .finish).ret = zOk
  · have next := Deflates.finish (room output) deflates roomLeft
    have full := contract.finish_stops _ _ _ _ _ deflates roomLeft isOk
    have stays := bounded _ _ _ next
    have falls : bound - (output ++ (zlib.deflate strm [] (room output) .finish).output).length <
        bound - output.length := by
      rw [List.length_append] at stays ⊢
      omega
    obtain ⟨ret, output', finishes, noError⟩ := contract.exists_finishes bounded next
    exact ⟨ret, output', .more isOk finishes, noError⟩
  · refine ⟨_, _, .last isOk, fun noErrors => ?_⟩
    exact (noErrors.finish _ _ _ _ _ deflates roomLeft).resolve_left isOk
termination_by bound - output.length
decreasing_by exact falls

end Zlib

/-! ### The buffers of `compressImpl` -/

namespace Compressing

/-- The variables when `deflate` has put out some bytes: every 128 KB of them are in `buffer`, behind
what it held before, and the rest is in `temp_buffer`. -/
def holding (strm : Deflating) (nextIn buffer output : Bytes) : Compressing Deflating :=
  ⟨strm, nextIn, output.drop (kBufSize * (output.length / kBufSize)),
    buffer ++ output.take (kBufSize * (output.length / kBufSize))⟩

variable {zlib : Zlib Deflating Inflating} {strm : Deflating} {nextIn buffer output : Bytes}

theorem availOut_holding : (holding strm nextIn buffer output).availOut = Zlib.room output := by
  have whole := Nat.div_add_mod output.length kBufSize
  rw [availOut, holding, List.length_drop, Zlib.room]
  omega

theorem buffer_holding : (holding strm nextIn buffer output).buffer ++
    (holding strm nextIn buffer output).tempBuffer = buffer ++ output := by
  rw [holding, List.append_assoc, List.take_append_drop]

theorem drain_holding : (holding strm nextIn buffer output).drain = holding strm nextIn buffer output :=
  if_neg (availOut_holding ▸ (Zlib.room_pos output).ne')

/-- What a call of `deflate` puts out is held behind what was. -/
theorem drain_deflate_holding (flush : Flush)
    (fits : (zlib.deflate strm nextIn (Zlib.room output) flush).output.length ≤ Zlib.room output) :
    ((holding strm nextIn buffer output).deflate zlib flush).2.drain =
      holding (zlib.deflate strm nextIn (Zlib.room output) flush).state
        (nextIn.drop (zlib.deflate strm nextIn (Zlib.room output) flush).taken) buffer
        (output ++ (zlib.deflate strm nextIn (Zlib.room output) flush).output) := by
  obtain ⟨call, isCall⟩ : ∃ call, call = zlib.deflate strm nextIn (Zlib.room output) flush :=
    ⟨_, rfl⟩
  obtain ⟨count, isCount⟩ : ∃ count, count = output.length / kBufSize := ⟨_, rfl⟩
  have whole := Nat.div_add_mod output.length kBufSize
  have rest := Nat.mod_lt output.length (show 0 < kBufSize by decide)
  rw [← isCall] at fits ⊢
  rw [Zlib.room] at fits
  rw [← isCount] at whole
  have isDeflate : ((holding strm nextIn buffer output).deflate zlib flush).2 =
      ⟨call.state, nextIn.drop call.taken, output.drop (kBufSize * count) ++ call.output,
        buffer ++ output.take (kBufSize * count)⟩ := by
    rw [deflate, availOut_holding, isCount, isCall]
    rfl
  rw [isDeflate, drain, holding, List.length_append, availOut, List.length_append, List.length_drop]
  split
  · next full =>
    have isNext : (output.length + call.output.length) / kBufSize = count + 1 :=
      Nat.div_eq_of_lt_le (by rw [Nat.add_mul, Nat.mul_comm]; omega)
        (by rw [Nat.add_mul, Nat.add_mul, Nat.mul_comm]; omega)
    have all : (output ++ call.output).length ≤ kBufSize * (count + 1) := by
      rw [List.length_append, Nat.mul_add]
      omega
    rw [isNext, List.take_of_length_le all, List.drop_eq_nil_of_le all, List.append_assoc,
      ← List.append_assoc (output.take _), List.take_append_drop]
  · next notFull =>
    have isSame : (output.length + call.output.length) / kBufSize = count :=
      Nat.div_eq_of_lt_le (by rw [Nat.mul_comm]; omega)
        (by rw [Nat.add_mul, Nat.mul_comm]; omega)
    have inside : kBufSize * count ≤ output.length := by omega
    rw [isSame, List.take_append_of_le_length inside, List.drop_append_of_le_length inside]

theorem ret_deflate_holding (flush : Flush) :
    ((holding strm nextIn buffer output).deflate zlib flush).1 =
      (zlib.deflate strm nextIn (Zlib.room output) flush).ret := by
  rw [deflate, availOut_holding]
  rfl

theorem buffer_deflate_holding (flush : Flush) :
    ((holding strm nextIn buffer output).deflate zlib flush).2.buffer ++
        ((holding strm nextIn buffer output).deflate zlib flush).2.tempBuffer =
      buffer ++ (output ++ (zlib.deflate strm nextIn (Zlib.room output) flush).output) := by
  have held : (holding strm nextIn buffer output).buffer ++
    (holding strm nextIn buffer output).tempBuffer = buffer ++ output := buffer_holding
  rw [deflate, availOut_holding, ← List.append_assoc buffer, ← held, List.append_assoc]
  rfl

variable (fits : ∀ strm input availOut flush,
  (zlib.deflate strm input availOut flush).output.length ≤ availOut)

include fits

theorem drain_finish_holding :
    ((holding strm [] buffer output).deflate zlib .finish).2.drain =
      holding (zlib.deflate strm [] (Zlib.room output) .finish).state [] buffer
        (output ++ (zlib.deflate strm [] (Zlib.room output) .finish).output) := by
  rw [drain_deflate_holding .finish (fits _ _ _ _), List.drop_nil]

/-- The loop over the input ends when the calls of `deflate` take all of it. -/
theorem inputLoop_endsWith_iff {fed : Compressing Deflating} :
    EndsWith (fun fuel => loop (inputRound zlib) fuel (holding strm nextIn buffer output)) fed ↔
      ∃ last output', zlib.TakesAll strm nextIn output last output' ∧
        fed = holding last [] buffer output' := by
  constructor
  · intro feeds
    obtain ⟨fuel, ends⟩ := Lib.exists_loop_of_endsWith feeds
    clear feeds
    induction fuel generalizing strm nextIn output with
    | zero => cases ends
    | succ fuel inductionHypothesis =>
      by_cases isEmpty : nextIn = []
      · have stops : inputRound zlib (holding strm nextIn buffer output) =
            .inr (holding strm nextIn buffer output) := if_pos isEmpty
        rw [Lib.loop_succ_of_result stops] at ends
        subst isEmpty
        exact ⟨strm, output, .done strm output, (Option.some.inj ends).symm⟩
      · have next : inputRound zlib (holding strm nextIn buffer output) = .inl _ := if_neg isEmpty
        rw [drain_deflate_holding .noFlush (fits _ _ _ _)] at next
        rw [Lib.loop_succ_of_next next] at ends
        obtain ⟨last, output', takesAll, isFed⟩ := inductionHypothesis ends
        exact ⟨last, output', .call isEmpty takesAll, isFed⟩
  · rintro ⟨last, output', takesAll, rfl⟩
    induction takesAll with
    | done strm output => exact Lib.endsWith_loop_of_result (if_pos rfl)
    | call notEmpty _ inductionHypothesis =>
      refine Lib.endsWith_loop_of_next (if_neg notEmpty) ?_
      rw [drain_deflate_holding .noFlush (fits _ _ _ _)]
      exact inductionHypothesis

/-- The loop that finishes a stream ends when the calls of `deflate` do, and the buffers then hold
what was put out. -/
theorem finishLoop_endsWith_iff {state : Compressing Deflating} {result : Bytes}
    (drained : state.drain = holding strm [] buffer output) :
    (∃ last, EndsWith (fun fuel => loop (finishRound zlib) fuel state) last ∧
      result = last.buffer ++ last.tempBuffer) ↔
      ∃ ret output', zlib.Finishes strm output ret output' ∧ result = buffer ++ output' := by
  constructor
  · rintro ⟨last, finishes, rfl⟩
    obtain ⟨fuel, ends⟩ := Lib.exists_loop_of_endsWith finishes
    clear finishes
    induction fuel generalizing strm output state with
    | zero => cases ends
    | succ fuel inductionHypothesis =>
      by_cases isOk : (zlib.deflate strm [] (Zlib.room output) .finish).ret = zOk
      · have next : finishRound zlib state =
            .inl ((holding strm [] buffer output).deflate zlib .finish).2 := by
          rw [finishRound, drained]
          exact if_pos ((ret_deflate_holding .finish).trans isOk)
        rw [Lib.loop_succ_of_next next] at ends
        obtain ⟨ret, output', finishes, isResult⟩ :=
          inductionHypothesis (drain_finish_holding fits) ends
        exact ⟨ret, output', .more isOk finishes, isResult⟩
      · have stops : finishRound zlib state =
            .inr ((holding strm [] buffer output).deflate zlib .finish).2 := by
          rw [finishRound, drained]
          exact if_neg fun same => isOk ((ret_deflate_holding .finish).symm.trans same)
        rw [Lib.loop_succ_of_result stops] at ends
        rw [← Option.some.inj ends]
        exact ⟨_, _, .last isOk, buffer_deflate_holding .finish⟩
  · rintro ⟨ret, output', finishes, rfl⟩
    induction finishes generalizing state with
    | last failed =>
      refine ⟨_, Lib.endsWith_loop_of_result ?_, (buffer_deflate_holding .finish).symm⟩
      rw [finishRound, drained]
      exact if_neg fun same => failed ((ret_deflate_holding .finish).symm.trans same)
    | more isOk _ inductionHypothesis =>
      obtain ⟨last, ends, isResult⟩ :=
        inductionHypothesis (drain_finish_holding fits)
      refine ⟨last, Lib.endsWith_loop_of_next ?_ ends, isResult⟩
      rw [finishRound, drained]
      exact if_pos ((ret_deflate_holding .finish).trans isOk)

end Compressing

/-- `compressImpl` ends when the calls of `deflate` do, and appends what they put out. -/
theorem ZlibCompressorBase.compressImpl_endsWith_iff_finishes (compressor : ZlibCompressorBase)
    {zlib : Zlib Deflating Inflating} (fits : ∀ strm input availOut flush,
      (zlib.deflate strm input availOut flush).output.length ≤ availOut) {input buffer result : Bytes} :
    EndsWith (fun fuel => compressor.compressImpl zlib fuel input buffer) result ↔
      ∃ last fed ret output,
        zlib.TakesAll (zlib.deflateInit2 compressor.compressionLevel compressor.window).2
          (availIn input) [] last fed ∧
        zlib.Finishes last fed ret output ∧ result = buffer ++ output := by
  have start : compressor.startCompressing zlib input buffer = Compressing.holding
      (zlib.deflateInit2 compressor.compressionLevel compressor.window).2 (availIn input) buffer [] := by
    rw [Compressing.holding, List.take_nil, List.append_nil, List.drop_nil]
    rfl
  rw [compressImpl_endsWith_iff, start]
  constructor
  · rintro ⟨fed, ending, feeds, finishes, isResult⟩
    obtain ⟨last, output, takesAll, rfl⟩ := (Compressing.inputLoop_endsWith_iff fits).mp feeds
    obtain ⟨ret, output', finished, same⟩ := (Compressing.finishLoop_endsWith_iff fits
      Compressing.drain_holding).mp ⟨ending, finishes, isResult⟩
    exact ⟨last, output, ret, output', takesAll, finished, same⟩
  · rintro ⟨last, output, ret, output', takesAll, finished, isResult⟩
    obtain ⟨ending, finishes, same⟩ := (Compressing.finishLoop_endsWith_iff fits
      Compressing.drain_holding).mpr ⟨ret, output', finished, isResult⟩
    exact ⟨_, ending, (Compressing.inputLoop_endsWith_iff fits).mpr ⟨last, output, takesAll, rfl⟩,
      finishes, same⟩

/-! ### `inflate` -/

section Inflating

variable {zlib : Zlib Deflating Inflating} {windowBits : Int} {isStream : Bytes → Bytes → Prop}

/-- The variables of `inflate` in a round: some of the given input was taken and put out, or the stream
ended with a full buffer, and the next call will only say so. -/
def Inflation.Going (zlib : Zlib Deflating Inflating) (windowBits : Int)
    (isStream : Bytes → Bytes → Prop) (given output : Bytes) (state : Inflation Inflating) : Prop :=
  (∃ taken raw, zlib.Inflates windowBits state.strm taken raw ∧ taken ++ state.nextIn = given ∧
    state.output = output ++ raw) ∨
  ((∀ rest room, (zlib.inflate state.strm rest room).ret = zStreamEnd ∧
      (zlib.inflate state.strm rest room).taken = 0 ∧ (zlib.inflate state.strm rest room).output = []) ∧
    ∃ stream raw, stream <+: given ∧ isStream stream raw ∧ state.output = output ++ raw)

/-- What `inflate` may return for some input, with what it put out. -/
def InflatesTo (isStream : Bytes → Bytes → Prop) (given output : Bytes) (result : Int × Bytes) : Prop :=
  ∃ raw, result.2 = output ++ raw ∧
    (result.1 = zOk → ∃ stream, stream <+: given ∧ isStream stream raw) ∧
    ((∃ stream raw, stream <+: given ∧ isStream stream raw) → result.1 = zOk)

theorem ret_streamEnd : (if zStreamEnd = zNeedDict then zDataError else zStreamEnd) = zStreamEnd :=
  if_neg (by decide)

theorem ret_ok : (if zOk = zNeedDict then zDataError else zOk) = zOk := if_neg (by decide)

variable {given output : Bytes} {state next : Inflation Inflating} {bound : Nat}

/-- A round that goes on takes input or fills the output. -/
theorem Zlib.InflateContract.going_next (contract : zlib.InflateContract windowBits isStream)
    (bounded : ∀ strm taken output, zlib.Inflates windowBits strm taken output →
      taken.length ≤ given.length → output.length ≤ bound)
    (going : state.Going zlib windowBits isStream given output)
    (isNext : state.round zlib = .inl next) :
    next.Going zlib windowBits isStream given output ∧
      next.nextIn.length + (output.length + bound - next.output.length) <
        state.nextIn.length + (output.length + bound - state.output.length) := by
  obtain ⟨call, isCall⟩ : ∃ call, call = zlib.inflate state.strm state.nextIn kChunk := ⟨_, rfl⟩
  have positive : 0 < kChunk := by decide
  obtain ⟨taken, raw, inflates, isGiven, isOutput⟩ | ⟨ended, -⟩ := going
  · have takes := contract.taken_le state.strm state.nextIn kChunk
    have returns := contract.returns state.strm state.nextIn kChunk
    have progress := contract.progress _ _ _ state.nextIn kChunk inflates positive
    have atEnd := contract.ended _ _ _ state.nextIn kChunk inflates positive
    have stays := contract.stays _ _ _ state.nextIn kChunk inflates positive
    have inflates' := Zlib.Inflates.call state.nextIn kChunk inflates positive
    rw [Inflation.round] at isNext
    rw [← isCall] at isNext takes returns progress atEnd stays inflates'
    dsimp only at isNext
    have whole : (taken ++ state.nextIn.take call.taken) ++ state.nextIn.drop call.taken = given := by
      rw [List.append_assoc, List.take_append_drop, isGiven]
    have isPrefix : taken ++ state.nextIn.take call.taken <+: given := ⟨_, whole⟩
    have falls (stillGoes : call.ret = zOk ∨ call.ret = zStreamEnd)
        (grows : 0 < call.taken ∨ call.output ≠ []) :
        (state.nextIn.drop call.taken).length +
            (output.length + bound - (state.output ++ call.output).length) <
          state.nextIn.length + (output.length + bound - state.output.length) := by
      have inside := bounded _ _ _ (inflates' stillGoes) isPrefix.length_le
      rw [List.length_append] at inside
      rw [List.length_drop, List.length_append, isOutput, List.length_append]
      rcases grows with some' | some'
      · omega
      · have nonempty := List.length_pos_iff.mpr some'
        omega
    by_cases isEnd : call.ret = zStreamEnd
    · rw [isEnd, ret_streamEnd, if_neg (by decide)] at isNext
      split at isNext
      · next more =>
        obtain rfl := Sum.inl.inj isNext
        have full : kChunk ≤ call.output.length :=
          Nat.le_of_sub_eq_zero (more.resolve_right fun differ => differ rfl)
        refine ⟨.inr ⟨stays isEnd, _, _, isPrefix, atEnd isEnd, ?_⟩, falls (.inr isEnd) (.inr ?_)⟩
        · rw [isOutput, List.append_assoc]
        · exact List.length_pos_iff.mp (lt_of_lt_of_le positive full)
      · cases isNext
    · by_cases isOk : call.ret = zOk
      · rw [isOk, ret_ok, if_neg (by decide), if_pos (.inr (by decide))] at isNext
        obtain rfl := Sum.inl.inj isNext
        refine ⟨.inl ⟨_, _, inflates' (.inl isOk), whole, ?_⟩, falls (.inl isOk) (progress isOk)⟩
        rw [isOutput, List.append_assoc]
      · have negative : (if call.ret = zNeedDict then zDataError else call.ret) < 0 := by
          split
          · decide
          · next other => exact ((returns.resolve_left isOk).resolve_left isEnd).resolve_left other
        rw [if_pos negative] at isNext
        cases isNext
  · have last := ended state.nextIn kChunk
    rw [Inflation.round] at isNext
    dsimp only at isNext
    rw [last.1, last.2.1, last.2.2, ret_streamEnd, if_neg (by decide), if_neg (by decide)] at isNext
    cases isNext

/-- The result of the last round. -/
theorem Zlib.InflateContract.going_last (contract : zlib.InflateContract windowBits isStream)
    (going : state.Going zlib windowBits isStream given output) {result : Int × Bytes}
    (isResult : state.round zlib = .inr result) : InflatesTo isStream given output result := by
  obtain ⟨call, isCall⟩ : ∃ call, call = zlib.inflate state.strm state.nextIn kChunk := ⟨_, rfl⟩
  have positive : 0 < kChunk := by decide
  obtain ⟨taken, raw, inflates, isGiven, isOutput⟩ | ⟨ended, stream, raw, isPrefix, complete,
    isOutput⟩ := going
  · have accepts := fun stream raw' => contract.accepts _ _ _ state.nextIn kChunk stream raw' inflates
      positive
    have atEnd := contract.ended _ _ _ state.nextIn kChunk inflates positive
    obtain ⟨ret, isRet⟩ : ∃ ret, ret = if call.ret = zNeedDict then zDataError else call.ret :=
      ⟨_, rfl⟩
    rw [Inflation.round] at isResult
    rw [← isCall] at isResult accepts atEnd
    dsimp only at isResult
    rw [← isRet] at isResult
    split at isResult
    · next negative =>
      obtain rfl := Sum.inr.inj isResult
      refine ⟨raw, isOutput, fun isOk => absurd isOk (ne_of_lt negative), ?_⟩
      rintro ⟨stream, raw', isPrefix, complete⟩
      rcases accepts stream raw' complete (isGiven.symm ▸ isPrefix) with isOk | isEnd
      · rw [isRet, isOk, ret_ok] at negative
        exact absurd negative (by decide)
      · rw [isRet, isEnd, ret_streamEnd] at negative
        exact absurd negative (by decide)
    · split at isResult
      · cases isResult
      · next stops =>
        obtain rfl := Sum.inr.inj isResult
        have isEnd := not_not.mp fun differ => stops (.inr differ)
        have isStreamEnd : call.ret = zStreamEnd := by
          rw [isEnd] at isRet
          split at isRet
          · exact absurd isRet (by decide)
          · exact isRet.symm
        refine ⟨raw ++ call.output, ?_, fun _ => ⟨_, ⟨state.nextIn.drop call.taken, ?_⟩,
          atEnd isStreamEnd⟩, fun _ => if_pos isEnd⟩
        · rw [isOutput, List.append_assoc]
        · rw [List.append_assoc, List.take_append_drop, isGiven]
  · have last := ended state.nextIn kChunk
    rw [Inflation.round] at isResult
    dsimp only at isResult
    rw [last.1, last.2.1, last.2.2, ret_streamEnd, if_neg (by decide), if_neg (by decide)] at isResult
    obtain rfl := Sum.inr.inj isResult
    refine ⟨raw, ?_, fun _ => ⟨stream, isPrefix, complete⟩, fun _ => rfl⟩
    rw [List.append_nil, isOutput]

/-- `inflate` ends: with `Z_OK` when a complete stream stands at the start of what it is told of, and
with an error otherwise. -/
theorem ZlibCompressorBase.inflate_endsWith (compressor : ZlibCompressorBase)
    (contract : zlib.InflateContract compressor.window isStream) (input output : Bytes) :
    ∃ result, EndsWith (fun fuel => compressor.inflate zlib fuel input output) result ∧
      InflatesTo isStream (availIn input) output result := by
  obtain ⟨bound, bounded⟩ := contract.bounded (availIn input).length
  have start : Inflation.Going zlib compressor.window isStream (availIn input) output
      ⟨(zlib.inflateInit2 compressor.window).2, availIn input, output⟩ :=
    .inl ⟨[], [], .init, List.nil_append _, (List.append_nil _).symm⟩
  obtain ⟨last, result, going, isResult, ends⟩ := Lib.exists_endsWith_loop
    (fun state : Inflation Inflating =>
      state.nextIn.length + (output.length + bound - state.output.length))
    (fun state next going (isNext : state.round zlib = .inl next) =>
      contract.going_next bounded going isNext) start
  refine ⟨result, ?_, contract.going_last going isResult⟩
  obtain ⟨enough, runs⟩ := ends
  refine ⟨enough, fun fuel le => ?_⟩
  show compressor.inflate zlib fuel input output = _
  rw [inflate]
  dsimp only
  rw [if_neg (not_not.mpr contract.opened)]
  exact runs fuel le

end Inflating

end LevelDb
