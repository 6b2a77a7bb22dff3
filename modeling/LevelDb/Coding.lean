/-
This file models the encodings of `util/coding`: fixed-width numbers with the least significant
byte first, varints of seven bits per byte, and slices prefixed by their length. Every decoder
undoes its encoder, whatever bytes follow.
-/

import Mathlib.Tactic

namespace LevelDb

/-- The contents of a `Slice`, a `std::string` or a file. -/
abbrev Bytes := List UInt8

/-! ### Fixed-width numbers -/

/-- The low `count` bytes of a number, least significant first. -/
def encodeFixed : Nat → Nat → Bytes
  | 0, _ => []
  | count + 1, value => UInt8.ofNat value :: encodeFixed count (value >>> 8)

/-- `EncodeFixed32`. -/
def encodeFixed32 (value : Nat) : Bytes := encodeFixed 4 value

/-- `EncodeFixed64`. -/
def encodeFixed64 (value : Nat) : Bytes := encodeFixed 8 value

/-- The number whose bytes are given, least significant first. -/
def decodeFixed : Bytes → Nat
  | [] => 0
  | byte :: rest => byte.toNat ||| (decodeFixed rest <<< 8)

/-- `DecodeFixed32` of the first four bytes. -/
def decodeFixed32 (bytes : Bytes) : Nat := decodeFixed (bytes.take 4)

/-- `DecodeFixed64` of the first eight bytes. -/
def decodeFixed64 (bytes : Bytes) : Nat := decodeFixed (bytes.take 8)

@[simp] theorem length_encodeFixed (count value : Nat) :
    (encodeFixed count value).length = count := by
  induction count generalizing value with
  | zero => rfl
  | succ count inductionHypothesis => rw [encodeFixed, List.length_cons, inductionHypothesis]

@[simp] theorem length_encodeFixed32 (value : Nat) : (encodeFixed32 value).length = 4 :=
  length_encodeFixed 4 value

@[simp] theorem length_encodeFixed64 (value : Nat) : (encodeFixed64 value).length = 8 :=
  length_encodeFixed 8 value

theorem toNat_or_shiftLeft (byte : UInt8) (value : Nat) :
    byte.toNat ||| (value <<< 8) = 2 ^ 8 * value + byte.toNat := by
  rw [Nat.or_comm, Nat.shiftLeft_eq, Nat.mul_comm value]
  exact (Nat.two_pow_add_eq_or_of_lt byte.toNat_lt value).symm

theorem decodeFixed_encodeFixed {count value : Nat} (fits : value < 2 ^ (8 * count)) :
    decodeFixed (encodeFixed count value) = value := by
  induction count generalizing value with
  | zero =>
    rw [Nat.mul_zero, pow_zero, Nat.lt_one_iff] at fits
    rw [fits]
    rfl
  | succ count inductionHypothesis =>
    have shifted : value >>> 8 < 2 ^ (8 * count) := by
      rw [Nat.shiftRight_eq_div_pow, Nat.div_lt_iff_lt_mul (by positivity), ← pow_add]
      rwa [Nat.mul_succ] at fits
    rw [encodeFixed, decodeFixed, inductionHypothesis shifted, toNat_or_shiftLeft,
      UInt8.toNat_ofNat', Nat.shiftRight_eq_div_pow]
    exact Nat.div_add_mod value (2 ^ 8)

/-- Only the low bytes of a number are stored. -/
theorem encodeFixed_decodeFixed (bytes : Bytes) :
    encodeFixed bytes.length (decodeFixed bytes) = bytes := by
  induction bytes with
  | nil => rfl
  | cons byte rest inductionHypothesis =>
    have value : byte.toNat ||| decodeFixed rest <<< 8 = decodeFixed rest * 2 ^ 8 + byte.toNat := by
      rw [Nat.or_comm, ← Nat.shiftLeft_add_eq_or_of_lt byte.toNat_lt, Nat.shiftLeft_eq]
    have quotient : (byte.toNat ||| decodeFixed rest <<< 8) >>> 8 = decodeFixed rest := by
      have small := byte.toNat_lt
      rw [value, Nat.shiftRight_eq_div_pow]
      omega
    have low : UInt8.ofNat (byte.toNat ||| decodeFixed rest <<< 8) = byte := by
      rw [value, ← UInt8.ofNat_mod_size, Nat.mul_add_mod_self_right]
      exact UInt8.ofNat_mod_size.trans UInt8.ofNat_toNat
    rw [List.length_cons, decodeFixed, encodeFixed, quotient, low, inductionHypothesis]

theorem encodeFixed_mod (count value : Nat) :
    encodeFixed count (value % 2 ^ (8 * count)) = encodeFixed count value := by
  induction count generalizing value with
  | zero => rfl
  | succ count inductionHypothesis =>
    have low : value % 2 ^ (8 * (count + 1)) % 2 ^ 8 = value % 2 ^ 8 :=
      Nat.mod_mod_of_dvd _ (pow_dvd_pow 2 (Nat.le_mul_of_pos_right 8 (Nat.succ_pos count)))
    have high : value % 2 ^ (8 * (count + 1)) / 2 ^ 8 = value / 2 ^ 8 % 2 ^ (8 * count) := by
      rw [Nat.mul_succ, Nat.add_comm, pow_add, Nat.mod_mul_right_div_self]
    have head : UInt8.ofNat (value % 2 ^ (8 * (count + 1))) = UInt8.ofNat value := by
      rw [← UInt8.toNat_inj, UInt8.toNat_ofNat', UInt8.toNat_ofNat', low]
    rw [encodeFixed, encodeFixed, head, Nat.shiftRight_eq_div_pow, Nat.shiftRight_eq_div_pow, high,
      inductionHypothesis]

theorem decodeFixed32_encodeFixed32 {value : Nat} (fits : value < 2 ^ 32) (rest : Bytes) :
    decodeFixed32 (encodeFixed32 value ++ rest) = value := by
  rw [decodeFixed32, List.take_left' (length_encodeFixed32 value)]
  exact decodeFixed_encodeFixed fits

theorem decodeFixed64_encodeFixed64 {value : Nat} (fits : value < 2 ^ 64) (rest : Bytes) :
    decodeFixed64 (encodeFixed64 value ++ rest) = value := by
  rw [decodeFixed64, List.take_left' (length_encodeFixed64 value)]
  exact decodeFixed_encodeFixed fits

/-- What is read from the bytes fits as many bytes. -/
theorem decodeFixed_lt (bytes : Bytes) : decodeFixed bytes < 2 ^ (8 * bytes.length) := by
  induction bytes with
  | nil => exact Nat.one_pos
  | cons byte rest inductionHypothesis =>
    have small := byte.toNat_lt
    rw [decodeFixed, toNat_or_shiftLeft, List.length_cons, Nat.mul_succ, Nat.add_comm _ 8, pow_add]
    calc 2 ^ 8 * decodeFixed rest + byte.toNat
        < 2 ^ 8 * (decodeFixed rest + 1) := by omega
      _ ≤ 2 ^ 8 * 2 ^ (8 * rest.length) := Nat.mul_le_mul_left _ inductionHypothesis

theorem decodeFixed32_lt (bytes : Bytes) : decodeFixed32 bytes < 2 ^ 32 :=
  (decodeFixed_lt _).trans_le (Nat.pow_le_pow_right Nat.two_pos
    (Nat.mul_le_mul_left 8 (List.length_take_le 4 bytes)))

/-! ### Varints -/

/-- `EncodeVarint32`. -/
def encodeVarint32 (v : Nat) : Bytes :=
  if v < 1 <<< 7 then [UInt8.ofNat v]
  else if v < 1 <<< 14 then [UInt8.ofNat (v ||| 128), UInt8.ofNat (v >>> 7)]
  else if v < 1 <<< 21 then
    [UInt8.ofNat (v ||| 128), UInt8.ofNat ((v >>> 7) ||| 128), UInt8.ofNat (v >>> 14)]
  else if v < 1 <<< 28 then
    [UInt8.ofNat (v ||| 128), UInt8.ofNat ((v >>> 7) ||| 128), UInt8.ofNat ((v >>> 14) ||| 128),
      UInt8.ofNat (v >>> 21)]
  else
    [UInt8.ofNat (v ||| 128), UInt8.ofNat ((v >>> 7) ||| 128), UInt8.ofNat ((v >>> 14) ||| 128),
      UInt8.ofNat ((v >>> 21) ||| 128), UInt8.ofNat (v >>> 28)]

/-- The loop of `EncodeVarint64` with the bytes left in its buffer. -/
def encodeVarintLoop : Nat → Nat → Bytes
  | 0, _ => []
  | room + 1, v =>
    if 128 ≤ v then UInt8.ofNat ((v &&& 127) ||| 128) :: encodeVarintLoop room (v >>> 7)
    else [UInt8.ofNat v]

/-- `EncodeVarint64` into its buffer of ten bytes. -/
def encodeVarint64 (v : Nat) : Bytes := encodeVarintLoop 10 v

/-- The loop of `GetVarint32PtrFallback` and `GetVarint64Ptr`: the value and the bytes after it.
`steps` is the number of bytes it may still read. -/
def getVarintLoop (width : Nat) : (steps shift result : Nat) → Bytes → Option (Nat × Bytes)
  | 0, _, _, _ => none
  | _ + 1, _, _, [] => none
  | steps + 1, shift, result, byte :: rest =>
    if byte.toNat &&& 128 ≠ 0 then
      getVarintLoop width steps (shift + 7)
        (result ||| ((byte.toNat &&& 127) <<< shift) % 2 ^ width) rest
    else some (result ||| (byte.toNat <<< shift) % 2 ^ width, rest)

/-- `GetVarint32PtrFallback`: shifts 0, 7, …, 28. -/
def getVarint32PtrFallback (input : Bytes) : Option (Nat × Bytes) := getVarintLoop 32 5 0 0 input

/-- `GetVarint32`, with the one-byte case of `GetVarint32Ptr`. -/
def getVarint32 : Bytes → Option (Nat × Bytes)
  | [] => getVarint32PtrFallback []
  | byte :: rest =>
    if byte.toNat &&& 128 = 0 then some (byte.toNat, rest)
    else getVarint32PtrFallback (byte :: rest)

/-- `GetVarint64`: shifts 0, 7, …, 63. -/
def getVarint64 (input : Bytes) : Option (Nat × Bytes) := getVarintLoop 64 10 0 0 input

/-- `PutLengthPrefixedSlice`, which casts the length to 32 bits. -/
def putLengthPrefixedSlice (value : Bytes) : Bytes :=
  encodeVarint32 (value.length % 2 ^ 32) ++ value

/-- `GetLengthPrefixedSlice`. -/
def getLengthPrefixedSlice (input : Bytes) : Option (Bytes × Bytes) :=
  match getVarint32 input with
  | none => none
  | some (length, rest) =>
    if length ≤ rest.length then some (rest.take length, rest.drop length) else none

theorem and_127 (v : Nat) : v &&& 127 = v % 2 ^ 7 := Nat.and_two_pow_sub_one_eq_mod v 7

/-- The continuation bit of a byte. -/
theorem continuation_bit : ∀ value < 2 ^ 8,
    (value &&& 128 = 0 ↔ value < 128) ∧ value ||| 128 = value % 2 ^ 7 + 128 := by
  decide +kernel

theorem and_128_eq_zero_iff (byte : UInt8) : byte.toNat &&& 128 = 0 ↔ byte.toNat < 128 :=
  (continuation_bit byte.toNat byte.toNat_lt).1

/-- A byte written with the continuation bit. -/
theorem toNat_continued (v : Nat) : (UInt8.ofNat (v ||| 128)).toNat = v % 2 ^ 7 + 128 := by
  rw [UInt8.toNat_ofNat', Nat.or_mod_two_pow,
    (continuation_bit _ (Nat.mod_lt _ (by decide))).2]
  omega

theorem continued_eq (v : Nat) :
    UInt8.ofNat (v ||| 128) = UInt8.ofNat ((v &&& 127) ||| 128) := by
  rw [← UInt8.toNat_inj, toNat_continued, toNat_continued, and_127, Nat.mod_mod]

/-- The unrolled encoder writes the same bytes as the loop. -/
theorem encodeVarint32_eq_loop {v : Nat} (fits : v < 2 ^ 32) :
    encodeVarint32 v = encodeVarintLoop 5 v := by
  have shift : ∀ amount, v >>> amount >>> 7 = v >>> (amount + 7) := fun amount =>
    (Nat.shiftRight_add v amount 7).symm
  have more : ∀ amount, 128 ≤ v >>> amount ↔ 2 ^ (7 + amount) ≤ v := by
    intro amount
    rw [Nat.shiftRight_eq_div_pow, Nat.le_div_iff_mul_le (by positivity), pow_add]
    rfl
  simp only [encodeVarint32, encodeVarintLoop, ← continued_eq, shift, more, Nat.one_shiftLeft]
  rcases Nat.lt_or_ge v (2 ^ 7) with small | large
  · simp only [if_pos small, if_neg (show ¬ 128 ≤ v by omega)]
  simp only [if_neg (show ¬ v < 2 ^ 7 by omega), if_pos (show 128 ≤ v by omega)]
  rcases Nat.lt_or_ge v (2 ^ 14) with small | large
  · simp only [if_pos small, if_neg (show ¬ 2 ^ (7 + 7) ≤ v by omega)]
  simp only [if_neg (show ¬ v < 2 ^ 14 by omega), if_pos (show 2 ^ (7 + 7) ≤ v by omega)]
  rcases Nat.lt_or_ge v (2 ^ 21) with small | large
  · simp only [if_pos small, if_neg (show ¬ 2 ^ (7 + (7 + 7)) ≤ v by omega)]
  simp only [if_neg (show ¬ v < 2 ^ 21 by omega), if_pos (show 2 ^ (7 + (7 + 7)) ≤ v by omega)]
  rcases Nat.lt_or_ge v (2 ^ 28) with small | large
  · simp only [if_pos small, if_neg (show ¬ 2 ^ (7 + (7 + 7 + 7)) ≤ v by omega)]
  simp only [if_neg (show ¬ v < 2 ^ 28 by omega),
    if_pos (show 2 ^ (7 + (7 + 7 + 7)) ≤ v by omega),
    if_neg (show ¬ 2 ^ (7 + (7 + 7 + 7 + 7)) ≤ v by omega)]

/-- What the decoder adds to its result at a shift. -/
theorem or_shiftLeft_mod {width shift result part : Nat} (below : result < 2 ^ shift)
    (fits : part * 2 ^ shift < 2 ^ width) :
    result ||| (part <<< shift) % 2 ^ width = result + part * 2 ^ shift := by
  have sum := Nat.two_pow_add_eq_or_of_lt below part
  rw [Nat.shiftLeft_eq, Nat.mod_eq_of_lt fits, Nat.or_comm, Nat.mul_comm part, ← sum, Nat.add_comm]

theorem getVarintLoop_last {width room v shift result : Nat} (small : v < 128)
    (fits : v * 2 ^ shift < 2 ^ width) (below : result < 2 ^ shift) (rest : Bytes) :
    getVarintLoop width (room + 1) shift result (encodeVarintLoop (room + 1) v ++ rest) =
      some (result + v * 2 ^ shift, rest) := by
  have byteValue : (UInt8.ofNat v).toNat = v := by
    rw [UInt8.toNat_ofNat', Nat.mod_eq_of_lt (by omega)]
  have last : (UInt8.ofNat v).toNat &&& 128 = 0 := by
    rw [and_128_eq_zero_iff, byteValue]
    exact small
  rw [encodeVarintLoop, if_neg (by omega), List.singleton_append, getVarintLoop,
    if_neg (not_not.mpr last), byteValue, or_shiftLeft_mod below fits]

/-- The decoder's loop undoes the encoder's, from any shift at which the value still fits. -/
theorem getVarintLoop_encodeVarintLoop {width room v shift result : Nat}
    (bounded : v < 2 ^ (7 * (room + 1))) (fits : v * 2 ^ shift < 2 ^ width)
    (below : result < 2 ^ shift) (rest : Bytes) :
    getVarintLoop width (room + 1) shift result (encodeVarintLoop (room + 1) v ++ rest) =
      some (result + v * 2 ^ shift, rest) := by
  induction room generalizing v shift result with
  | zero => exact getVarintLoop_last bounded fits below rest
  | succ room inductionHypothesis =>
    rcases Nat.lt_or_ge v 128 with small | large
    · exact getVarintLoop_last small fits below rest
    have low : v % 2 ^ 7 < 2 ^ 7 := Nat.mod_lt v (by decide)
    have lowFits : v % 2 ^ 7 * 2 ^ shift < 2 ^ width :=
      (Nat.mul_le_mul_right _ (Nat.mod_le v (2 ^ 7))).trans_lt fits
    have byteValue : (UInt8.ofNat ((v &&& 127) ||| 128)).toNat = v % 2 ^ 7 + 128 := by
      rw [← continued_eq, toNat_continued]
    have continues : (UInt8.ofNat ((v &&& 127) ||| 128)).toNat &&& 128 ≠ 0 := by
      rw [Ne, and_128_eq_zero_iff, byteValue]
      omega
    have payload : (UInt8.ofNat ((v &&& 127) ||| 128)).toNat &&& 127 = v % 2 ^ 7 := by
      rw [byteValue, and_127]
      omega
    have highBounded : v / 2 ^ 7 < 2 ^ (7 * (room + 1)) := by
      rw [Nat.div_lt_iff_lt_mul (by decide), ← pow_add]
      exact bounded
    have pieces : v % 2 ^ 7 * 2 ^ shift + v / 2 ^ 7 * 2 ^ (shift + 7) = v * 2 ^ shift := by
      rw [Nat.pow_add, Nat.mul_comm (2 ^ shift), ← Nat.mul_assoc, ← Nat.add_mul,
        Nat.mul_comm (v / 2 ^ 7), Nat.mod_add_div]
    have highFits : v / 2 ^ 7 * 2 ^ (shift + 7) < 2 ^ width := by omega
    have lowBelow : result + v % 2 ^ 7 * 2 ^ shift < 2 ^ (shift + 7) := by
      have bound : v % 2 ^ 7 * 2 ^ shift ≤ (2 ^ 7 - 1) * 2 ^ shift :=
        Nat.mul_le_mul_right _ (by omega)
      rw [Nat.pow_add]
      omega
    rw [encodeVarintLoop, if_pos large, List.cons_append, getVarintLoop, if_pos continues, payload,
      or_shiftLeft_mod below lowFits, Nat.shiftRight_eq_div_pow,
      inductionHypothesis highBounded highFits lowBelow, Nat.add_assoc, pieces]

/-- The one-byte case of `GetVarint32Ptr` agrees with the loop. -/
theorem getVarint32_eq_fallback (input : Bytes) :
    getVarint32 input = getVarint32PtrFallback input := by
  cases input with
  | nil => rfl
  | cons byte rest =>
    rw [getVarint32]
    split
    · rename_i last
      have small := (and_128_eq_zero_iff byte).mp last
      rw [getVarint32PtrFallback, getVarintLoop, if_neg (not_not.mpr last),
        or_shiftLeft_mod (by decide) (by omega)]
      simp
    · rfl

theorem getVarint32_encodeVarint32 {v : Nat} (fits : v < 2 ^ 32) (rest : Bytes) :
    getVarint32 (encodeVarint32 v ++ rest) = some (v, rest) := by
  rw [getVarint32_eq_fallback, encodeVarint32_eq_loop fits, getVarint32PtrFallback,
    getVarintLoop_encodeVarintLoop (by omega) (by omega) (by decide) rest]
  simp

theorem getVarint64_encodeVarint64 {v : Nat} (fits : v < 2 ^ 64) (rest : Bytes) :
    getVarint64 (encodeVarint64 v ++ rest) = some (v, rest) := by
  rw [encodeVarint64, getVarint64,
    getVarintLoop_encodeVarintLoop (by omega) (by omega) (by decide) rest]
  simp

/-- What the decoders read fits its type. -/
theorem getVarintLoop_lt {width steps shift result value : Nat} {input rest : Bytes}
    (below : result < 2 ^ width)
    (reads : getVarintLoop width steps shift result input = some (value, rest)) :
    value < 2 ^ width := by
  induction steps generalizing shift result input with
  | zero => cases reads
  | succ steps inductionHypothesis =>
    cases input with
    | nil => cases reads
    | cons byte input =>
      rw [getVarintLoop] at reads
      split at reads
      · exact inductionHypothesis
          (Nat.or_lt_two_pow below (Nat.mod_lt _ (Nat.two_pow_pos width))) reads
      · cases reads
        exact Nat.or_lt_two_pow below (Nat.mod_lt _ (Nat.two_pow_pos width))

theorem getVarint32_lt {input rest : Bytes} {value : Nat}
    (reads : getVarint32 input = some (value, rest)) : value < 2 ^ 32 := by
  rw [getVarint32_eq_fallback] at reads
  exact getVarintLoop_lt (by decide) reads

theorem getVarint64_lt {input rest : Bytes} {value : Nat}
    (reads : getVarint64 input = some (value, rest)) : value < 2 ^ 64 :=
  getVarintLoop_lt (by decide) reads

theorem getLengthPrefixedSlice_lt {input value rest : Bytes}
    (reads : getLengthPrefixedSlice input = some (value, rest)) : value.length < 2 ^ 32 := by
  rw [getLengthPrefixedSlice] at reads
  split at reads
  · cases reads
  · next length tail isLength =>
    split at reads
    · cases reads
      rw [List.length_take]
      exact (min_le_left _ _).trans_lt (getVarint32_lt isLength)
    · cases reads

/-- The decoders consume what they read. -/
theorem length_getVarintLoop {width steps shift result value : Nat} {input rest : Bytes}
    (reads : getVarintLoop width steps shift result input = some (value, rest)) :
    rest.length < input.length := by
  induction steps generalizing shift result input with
  | zero => cases reads
  | succ steps inductionHypothesis =>
    cases input with
    | nil => cases reads
    | cons byte input =>
      rw [getVarintLoop] at reads
      split at reads
      · exact (inductionHypothesis reads).trans (Nat.lt_succ_self _)
      · cases reads
        exact Nat.lt_succ_self _

theorem length_getVarint32 {input rest : Bytes} {value : Nat}
    (reads : getVarint32 input = some (value, rest)) : rest.length < input.length := by
  rw [getVarint32_eq_fallback] at reads
  exact length_getVarintLoop reads

theorem length_getVarint64 {input rest : Bytes} {value : Nat}
    (reads : getVarint64 input = some (value, rest)) : rest.length < input.length :=
  length_getVarintLoop reads

theorem length_getLengthPrefixedSlice {input value rest : Bytes}
    (reads : getLengthPrefixedSlice input = some (value, rest)) : rest.length < input.length := by
  rw [getLengthPrefixedSlice] at reads
  split at reads
  · cases reads
  · next length tail isLength =>
    split at reads
    · cases reads
      rw [List.length_drop]
      exact (Nat.sub_le _ _).trans_lt (length_getVarint32 isLength)
    · cases reads

theorem getLengthPrefixedSlice_putLengthPrefixedSlice {value : Bytes}
    (fits : value.length < 2 ^ 32) (rest : Bytes) :
    getLengthPrefixedSlice (putLengthPrefixedSlice value ++ rest) = some (value, rest) := by
  rw [getLengthPrefixedSlice, putLengthPrefixedSlice, List.append_assoc, Nat.mod_eq_of_lt fits,
    getVarint32_encodeVarint32 fits]
  simp

end LevelDb
