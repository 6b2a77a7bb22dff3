/-
This file models the compressor over zlib: the loops of `compressImpl`, which hand a block to
`deflate` through a buffer of 128 KB, and the loop of `inflate`, with its buffer of 64 KB. zlib itself
is a parameter. Its calls are steps of a state, and the loops run for as many rounds as they are given.
-/

import LevelDb.Coding
import LevelDb.Lib.Loop

namespace LevelDb

open Lib (loop EndsWith)

/-! ### zlib -/

def zOk : Int := 0
def zStreamEnd : Int := 1
def zNeedDict : Int := 2
def zDataError : Int := -3

/-- The `flush` argument of `deflate`. -/
inductive Flush
  | noFlush
  | finish
  deriving DecidableEq, Repr

/-- What a call of zlib returns and does to its stream: how much of the input it takes, and the bytes
it puts into the output buffer. -/
structure ZlibCall (State : Type) where
  ret : Int
  state : State
  taken : Nat
  output : Bytes

/-- The functions of zlib that the compressor calls. `deflate` and `inflate` are given the input from
`next_in` on and `avail_out`. -/
structure Zlib (Deflating Inflating : Type) where
  deflateInit2 : (level windowBits : Int) → Int × Deflating
  deflate : Deflating → (input : Bytes) → (availOut : Nat) → Flush → ZlibCall Deflating
  inflateInit2 : (windowBits : Int) → Int × Inflating
  inflate : Inflating → (input : Bytes) → (availOut : Nat) → ZlibCall Inflating

/-! ### The compressor -/

/-- `ZlibCompressorBase`. -/
structure ZlibCompressorBase where
  uniqueCompressionID : Int8
  compressionLevel : Int
  raw : Bool

def zlibCompressor (compressionLevel : Int) : ZlibCompressorBase := ⟨2, compressionLevel, false⟩
def zlibCompressorRaw (compressionLevel : Int) : ZlibCompressorBase := ⟨4, compressionLevel, true⟩

/-- `_window`. -/
def ZlibCompressorBase.window (compressor : ZlibCompressorBase) : Int :=
  if compressor.raw then -15 else 15

/-- `avail_in = (uint32_t)length`: the part of an input that the stream is told of. -/
def availIn (input : Bytes) : Bytes := input.take (input.length % 2 ^ 32)

/-- `BUFSIZE` in `compressImpl`. -/
def kBufSize : Nat := 128 * 1024

/-- `CHUNK` in `inflate`. -/
def kChunk : Nat := 64 * 1024

variable {Deflating Inflating : Type}

/-- The local variables of `compressImpl`, and `buffer`. -/
structure Compressing (Deflating : Type) where
  strm : Deflating
  nextIn : Bytes
  tempBuffer : Bytes
  buffer : Bytes

namespace Compressing

def availOut (state : Compressing Deflating) : Nat := kBufSize - state.tempBuffer.length

/-- Append a full `temp_buffer` to `buffer`, and start it again. -/
def drain (state : Compressing Deflating) : Compressing Deflating :=
  if state.availOut = 0 then
    { state with buffer := state.buffer ++ state.tempBuffer, tempBuffer := [] }
  else state

variable (zlib : Zlib Deflating Inflating)

/-- A call of `deflate`: what it returns, and the variables behind it. -/
def deflate (state : Compressing Deflating) (flush : Flush) : Int × Compressing Deflating :=
  let call := zlib.deflate state.strm state.nextIn state.availOut flush
  (call.ret, { state with
    strm := call.state
    nextIn := state.nextIn.drop call.taken
    tempBuffer := state.tempBuffer ++ call.output })

/-- A round of the loop over the input. The result of `deflate` is only asserted. -/
def inputRound (state : Compressing Deflating) : Compressing Deflating ⊕ Compressing Deflating :=
  if state.nextIn = [] then .inr state else .inl (state.deflate zlib .noFlush).2.drain

/-- A round of the loop that finishes the stream. -/
def finishRound (state : Compressing Deflating) : Compressing Deflating ⊕ Compressing Deflating :=
  let (deflateRes, next) := state.drain.deflate zlib .finish
  if deflateRes = zOk then .inl next else .inr next

end Compressing

/-- The local variables of `inflate`, and `output`. -/
structure Inflation (Inflating : Type) where
  strm : Inflating
  nextIn : Bytes
  output : Bytes

/-- A round of the two nested loops of `inflate`: the inner one goes on while the buffer is full, the
outer one until the stream has ended. The result is what `inflate` returns, and `output`. -/
def Inflation.round (zlib : Zlib Deflating Inflating) (state : Inflation Inflating) :
    Inflation Inflating ⊕ (Int × Bytes) :=
  let call := zlib.inflate state.strm state.nextIn kChunk
  let ret := if call.ret = zNeedDict then zDataError else call.ret
  if ret < 0 then .inr (ret, state.output)
  else
    let output := state.output ++ call.output
    if kChunk - call.output.length = 0 ∨ ret ≠ zStreamEnd then
      .inl ⟨call.state, state.nextIn.drop call.taken, output⟩
    else .inr (if ret = zStreamEnd then zOk else zDataError, output)

namespace ZlibCompressorBase

variable (compressor : ZlibCompressorBase) (zlib : Zlib Deflating Inflating)

/-- The variables when the first loop starts. The result of `deflateInit2` is only asserted. -/
def startCompressing (input buffer : Bytes) : Compressing Deflating :=
  ⟨(zlib.deflateInit2 compressor.compressionLevel compressor.window).2, availIn input, [], buffer⟩

/-- `compressImpl` with up to `fuel` rounds of each loop: what `buffer` holds behind it. -/
def compressImpl (fuel : Nat) (input buffer : Bytes) : Option Bytes :=
  (loop (Compressing.inputRound zlib) fuel (compressor.startCompressing zlib input buffer)).bind
    fun fed => (loop (Compressing.finishRound zlib) fuel fed).map
      fun last => last.buffer ++ last.tempBuffer

/-- `inflate` with up to `fuel` rounds: what it returns, and what `output` holds behind it. -/
def inflate (fuel : Nat) (input output : Bytes) : Option (Int × Bytes) :=
  let (ret, strm) := zlib.inflateInit2 compressor.window
  if ret ≠ zOk then some (ret, output)
  else loop (Inflation.round zlib) fuel ⟨strm, availIn input, output⟩

/-- `decompress` into an empty string. -/
def decompress (fuel : Nat) (input : Bytes) : Option Bytes :=
  match compressor.inflate zlib fuel input [] with
  | some (ret, output) => if ret = zOk then some output else none
  | none => none

variable {compressor zlib}

/-- `compressImpl` ends when both of its loops end. -/
theorem compressImpl_endsWith_iff {input buffer result : Bytes} :
    EndsWith (fun fuel => compressor.compressImpl zlib fuel input buffer) result ↔
      ∃ fed last, EndsWith (fun fuel => loop (Compressing.inputRound zlib) fuel
          (compressor.startCompressing zlib input buffer)) fed ∧
        EndsWith (fun fuel => loop (Compressing.finishRound zlib) fuel fed) last ∧
        result = last.buffer ++ last.tempBuffer := by
  constructor
  · rintro ⟨enough, runs⟩
    obtain ⟨fed, isFed, finishes⟩ := Option.bind_eq_some_iff.mp (runs enough le_rfl)
    obtain ⟨last, isLast, isResult⟩ := Option.map_eq_some_iff.mp finishes
    exact ⟨fed, last, Lib.endsWith_of_loop isFed, Lib.endsWith_of_loop isLast, isResult.symm⟩
  · rintro ⟨fed, last, ⟨enough, runs⟩, ⟨enough', runs'⟩, rfl⟩
    refine ⟨max enough enough', fun fuel le => ?_⟩
    have isFed : loop (Compressing.inputRound zlib) fuel
        (compressor.startCompressing zlib input buffer) = some fed :=
      runs fuel (le_trans (le_max_left _ _) le)
    have isLast : loop (Compressing.finishRound zlib) fuel fed = some last :=
      runs' fuel (le_trans (le_max_right _ _) le)
    show compressor.compressImpl zlib fuel input buffer = _
    rw [compressImpl, isFed, Option.bind_some, isLast, Option.map_some]

end ZlibCompressorBase

end LevelDb
