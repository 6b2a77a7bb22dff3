/-
This file models the checksum of the ports with SSE 4.2, `port::AcceleratedCRC32C`, and the choice
`crc32c::Extend` makes between it and the tables. The instructions themselves are parameters. When
they step over the bytes of their operand, every port computes the same checksum, the bit-by-bit
one, at every address and for every way of splitting the bytes.
-/

import LevelDb.Crc32c

namespace LevelDb.Crc32c

/-- What a port brings to the checksum: whether it is compiled for SSE, the `ecx` its CPU reports,
whether it is 64-bit code, and the three instructions. -/
structure Port where
  posixSse : Bool
  cpuidEcx : BitVec 32
  x64 : Bool
  mmCrc32U8 : BitVec 32 → UInt8 → BitVec 32
  mmCrc32U32 : BitVec 32 → BitVec 32 → BitVec 32
  mmCrc32U64 : BitVec 64 → BitVec 64 → BitVec 64

namespace Port

variable (port : Port)

/-- `HaveSSE42`. -/
def haveSse42 : Bool := port.cpuidEcx &&& (1 <<< 20) ≠ 0

/-- The port can use the instructions. -/
def Accelerates : Prop := port.posixSse = true ∧ port.haveSse42 = true

instance : Decidable port.Accelerates :=
  inferInstanceAs (Decidable (port.posixSse = true ∧ port.haveSse42 = true))

/-- `STEP4`, on the little-endian word at the position. -/
def step4 (l : BitVec 32) (b0 b1 b2 b3 : UInt8) : BitVec 32 :=
  port.mmCrc32U32 l (leLoad32 b0 b1 b2 b3)

/-- `STEP8`. The register is widened for the instruction, and its result is cut to 32 bits. -/
def step8 (l : BitVec 32) (b0 b1 b2 b3 b4 b5 b6 b7 : UInt8) : BitVec 32 :=
  (port.mmCrc32U64 (l.setWidth 64)
    (BitVec.ofNat 64 (decodeFixed64 [b0, b1, b2, b3, b4, b5, b6, b7]))).setWidth 32

/-- The loop over eight bytes at a time, with the bytes it leaves. -/
def eights : BitVec 32 → Bytes → BitVec 32 × Bytes
  | l, b0 :: b1 :: b2 :: b3 :: b4 :: b5 :: b6 :: b7 :: rest =>
    eights (port.step8 l b0 b1 b2 b3 b4 b5 b6 b7) rest
  | l, rest => (l, rest)

/-- The loop over four bytes at a time of the 32-bit code. -/
def fours : BitVec 32 → Bytes → BitVec 32 × Bytes
  | l, b0 :: b1 :: b2 :: b3 :: rest => fours (port.step4 l b0 b1 b2 b3) rest
  | l, rest => (l, rest)

/-- The one step over four bytes of the 64-bit code. -/
def fourAtMost : BitVec 32 → Bytes → BitVec 32 × Bytes
  | l, b0 :: b1 :: b2 :: b3 :: rest => (port.step4 l b0 b1 b2 b3, rest)
  | l, rest => (l, rest)

/-- What happens before the last few bytes. -/
def words (address : Nat) (l : BitVec 32) (bytes : Bytes) : BitVec 32 × Bytes :=
  if bytes.length > 16 then
    let unaligned := address % 8
    let l := (bytes.take unaligned).foldl port.mmCrc32U8 l
    let bytes := bytes.drop unaligned
    if port.x64 then
      let wide := port.eights l bytes
      port.fourAtMost wide.1 wide.2
    else port.fours l bytes
  else (l, bytes)

/-- `AcceleratedCRC32C` of the bytes at an address. It is zero where it cannot accelerate. -/
def acceleratedCrc32c (address : Nat) (crc : BitVec 32) (bytes : Bytes) : BitVec 32 :=
  if port.Accelerates then
    let state := port.words address (crc ^^^ 0xffffffff) bytes
    state.2.foldl port.mmCrc32U8 state.1 ^^^ 0xffffffff
  else 0

/-- `kTestCRCBuffer`, the characters of `TestCRCBuffer`. -/
def kTestCrcBuffer : Bytes := [84, 101, 115, 116, 67, 82, 67, 66, 117, 102, 102, 101, 114]

def kTestCrcValue : BitVec 32 := 0xdcbc59fa

/-- `CanAccelerateCRC32C`, with the address of its test buffer. -/
def canAccelerateCrc32c (testAddress : Nat) : Bool :=
  port.acceleratedCrc32c testAddress 0 kTestCrcBuffer = kTestCrcValue

/-- `Extend`: the accelerated checksum if the port passes its test, or else the tables. -/
def extend (testAddress address : Nat) (crc : BitVec 32) (bytes : Bytes) : BitVec 32 :=
  if port.canAccelerateCrc32c testAddress then port.acceleratedCrc32c address crc bytes
  else Crc32c.extend address crc bytes

/-! ### The instructions -/

/-- The instructions step over the bytes of their operand, the lowest first. -/
structure StepsBytes : Prop where
  one : ∀ l byte, port.mmCrc32U8 l byte = byteStep l byte
  four : ∀ l b0 b1 b2 b3, port.mmCrc32U32 l (BitVec.ofNat 32 (decodeFixed32 [b0, b1, b2, b3])) =
    [b0, b1, b2, b3].foldl byteStep l
  eight : ∀ (l : BitVec 32) b0 b1 b2 b3 b4 b5 b6 b7,
    (port.mmCrc32U64 (l.setWidth 64)
      (BitVec.ofNat 64 (decodeFixed64 [b0, b1, b2, b3, b4, b5, b6, b7]))).setWidth 32 =
      [b0, b1, b2, b3, b4, b5, b6, b7].foldl byteStep l

variable {port}

theorem eights_eq (instructions : port.StepsBytes) (l : BitVec 32) (bytes : Bytes) :
    (port.eights l bytes).2.foldl byteStep (port.eights l bytes).1 = bytes.foldl byteStep l := by
  fun_induction port.eights l bytes with
  | case1 l b0 b1 b2 b3 b4 b5 b6 b7 rest inductionHypothesis =>
    rw [inductionHypothesis, step8, instructions.eight]
    simp only [List.foldl_cons, List.foldl_nil]
  | case2 l rest => rfl

theorem fours_eq (instructions : port.StepsBytes) (l : BitVec 32) (bytes : Bytes) :
    (port.fours l bytes).2.foldl byteStep (port.fours l bytes).1 = bytes.foldl byteStep l := by
  fun_induction port.fours l bytes with
  | case1 l b0 b1 b2 b3 rest inductionHypothesis =>
    rw [inductionHypothesis, step4, leLoad32, instructions.four]
    simp only [List.foldl_cons, List.foldl_nil]
  | case2 l rest => rfl

theorem fourAtMost_eq (instructions : port.StepsBytes) (l : BitVec 32) (bytes : Bytes) :
    (port.fourAtMost l bytes).2.foldl byteStep (port.fourAtMost l bytes).1 =
      bytes.foldl byteStep l := by
  fun_cases port.fourAtMost l bytes with
  | case1 l b0 b1 b2 b3 rest =>
    rw [step4, leLoad32, instructions.four]
    simp only [List.foldl_cons, List.foldl_nil]
  | case2 l rest => rfl

/-- Whatever is stepped over before the last bytes, the rest completes the bit-by-bit steps. -/
theorem words_eq (instructions : port.StepsBytes) (address : Nat) (l : BitVec 32)
    (bytes : Bytes) :
    (port.words address l bytes).2.foldl byteStep (port.words address l bytes).1 =
      bytes.foldl byteStep l := by
  have single : port.mmCrc32U8 = byteStep :=
    funext fun l => funext fun byte => instructions.one l byte
  have aligned : (bytes.drop (address % 8)).foldl byteStep
      ((bytes.take (address % 8)).foldl byteStep l) = bytes.foldl byteStep l := by
    rw [← List.foldl_append, List.take_append_drop]
  unfold words
  simp only [single]
  split
  · split
    · rw [fourAtMost_eq instructions, eights_eq instructions, aligned]
    · rw [fours_eq instructions, aligned]
  · rfl

/-- `AcceleratedCRC32C` is the bit-by-bit CRC where it accelerates. -/
theorem acceleratedCrc32c_eq (instructions : port.StepsBytes) (accelerates : port.Accelerates)
    (address : Nat) (crc : BitVec 32) (bytes : Bytes) :
    port.acceleratedCrc32c address crc bytes =
      bytes.foldl byteStep (crc ^^^ 0xffffffff) ^^^ 0xffffffff := by
  have single : port.mmCrc32U8 = byteStep :=
    funext fun l => funext fun byte => instructions.one l byte
  rw [acceleratedCrc32c, if_pos accelerates]
  simp only [single, words_eq instructions]

theorem acceleratedCrc32c_eq_zero (slow : ¬ port.Accelerates) (address : Nat) (crc : BitVec 32)
    (bytes : Bytes) : port.acceleratedCrc32c address crc bytes = 0 := if_neg slow

/-- A port passes its test exactly if it has the instructions. -/
theorem canAccelerateCrc32c_iff (instructions : port.StepsBytes) (testAddress : Nat) :
    port.canAccelerateCrc32c testAddress = true ↔ port.Accelerates := by
  have value : kTestCrcBuffer.foldl byteStep (0 ^^^ 0xffffffff) ^^^ 0xffffffff = kTestCrcValue := by
    decide +kernel
  unfold canAccelerateCrc32c
  rw [decide_eq_true_iff]
  by_cases accelerates : port.Accelerates
  · rw [acceleratedCrc32c_eq instructions accelerates, value]
    exact iff_of_true rfl accelerates
  · rw [acceleratedCrc32c_eq_zero accelerates]
    exact iff_of_false (by decide) accelerates

/-- Every port extends a checksum as the bits do. -/
theorem extend_eq (instructions : port.StepsBytes) (testAddress address : Nat) (crc : BitVec 32)
    (bytes : Bytes) :
    port.extend testAddress address crc bytes =
      bytes.foldl byteStep (crc ^^^ 0xffffffff) ^^^ 0xffffffff := by
  unfold extend
  by_cases passes : port.canAccelerateCrc32c testAddress = true
  · rw [if_pos passes, acceleratedCrc32c_eq instructions
      ((canAccelerateCrc32c_iff instructions testAddress).mp passes)]
  · rw [if_neg passes, Crc32c.extend_eq]

/-! ### A port whose instructions are bit by bit -/

/-- The bytes of a word, the lowest first. -/
def bytesOf (count : Nat) {width : Nat} (word : BitVec width) : Bytes :=
  encodeFixed count word.toNat

/-- A 64-bit port with SSE, whose instructions go bit by bit. -/
def bitByBit : Port where
  posixSse := true
  cpuidEcx := 1 <<< 20
  x64 := true
  mmCrc32U8 := byteStep
  mmCrc32U32 l word := (bytesOf 4 word).foldl byteStep l
  mmCrc32U64 l word := ((bytesOf 8 word).foldl byteStep (l.setWidth 32)).setWidth 64

theorem bytesOf_ofNat {count width : Nat} (bytes : Bytes) (length : bytes.length = count)
    (wide : width = 8 * count) :
    bytesOf count (BitVec.ofNat width (decodeFixed bytes)) = bytes := by
  have fits : decodeFixed bytes < 2 ^ width := by
    rw [wide, ← length]
    exact decodeFixed_lt bytes
  rw [bytesOf, BitVec.toNat_ofNat, Nat.mod_eq_of_lt fits, ← length]
  exact encodeFixed_decodeFixed bytes

theorem bitByBit_accelerates : bitByBit.Accelerates := by decide

theorem bitByBit_stepsBytes : bitByBit.StepsBytes where
  one _ _ := rfl
  four l b0 b1 b2 b3 := by
    have bytes : bytesOf 4 (BitVec.ofNat 32 (decodeFixed32 [b0, b1, b2, b3])) = [b0, b1, b2, b3] :=
      bytesOf_ofNat [b0, b1, b2, b3] rfl rfl
    show (bytesOf 4 _).foldl byteStep l = _
    rw [bytes]
  eight l b0 b1 b2 b3 b4 b5 b6 b7 := by
    have bytes : bytesOf 8 (BitVec.ofNat 64 (decodeFixed64 [b0, b1, b2, b3, b4, b5, b6, b7])) =
        [b0, b1, b2, b3, b4, b5, b6, b7] :=
      bytesOf_ofNat [b0, b1, b2, b3, b4, b5, b6, b7] rfl rfl
    have narrow : ∀ register : BitVec 32, (register.setWidth 64).setWidth 32 = register := by
      intro register
      rw [BitVec.setWidth_setWidth_of_le _ (by decide), BitVec.setWidth_eq]
    show (((bytesOf 8 _).foldl byteStep ((l.setWidth 64).setWidth 32)).setWidth 64).setWidth 32 = _
    rw [bytes, narrow, narrow]

end Port

/-! ### All implementations agree -/

/-- For every checksum, every bytes and every address, the tables, the instructions and `Extend`
on any port give the bit-by-bit CRC; a string can be taken in pieces; `Unmask` undoes `Mask`. -/
theorem implementations_agree :
    (∀ address crc bytes,
      extend address crc bytes = bytes.foldl byteStep (crc ^^^ 0xffffffff) ^^^ 0xffffffff) ∧
    (∀ port : Port, port.StepsBytes →
      (port.Accelerates → ∀ address other crc bytes,
        port.acceleratedCrc32c address crc bytes = extend other crc bytes) ∧
      (∀ testAddress address other crc bytes,
        port.extend testAddress address crc bytes = extend other crc bytes) ∧
      ∀ testAddress address other third crc first second,
        port.extend testAddress address (port.extend testAddress other crc first) second =
          port.extend testAddress third crc (first ++ second)) ∧
    (∀ address other third crc first second,
      extend address (extend other crc first) second = extend third crc (first ++ second)) ∧
    ∀ crc, unmask (mask crc) = crc := by
  refine ⟨extend_eq, ?_, extend_append, unmask_mask⟩
  intro port instructions
  have same : ∀ testAddress address other crc bytes,
      port.extend testAddress address crc bytes = extend other crc bytes := by
    intro testAddress address other crc bytes
    rw [Port.extend_eq instructions, extend_eq]
  refine ⟨?_, same, ?_⟩
  · intro accelerates address other crc bytes
    rw [Port.acceleratedCrc32c_eq instructions accelerates, extend_eq]
  · intro testAddress address other third crc first second
    rw [same testAddress address address, same testAddress other other,
      same testAddress third third, extend_append address other third]

/-- The port whose instructions go bit by bit. -/
theorem implementations_agree_bitByBit :
    Port.bitByBit.acceleratedCrc32c 5 0 Port.kTestCrcBuffer = extend 2 0 Port.kTestCrcBuffer :=
  (implementations_agree.2.1 Port.bitByBit Port.bitByBit_stepsBytes).1
    Port.bitByBit_accelerates 5 2 0 Port.kTestCrcBuffer

end LevelDb.Crc32c
