/-
This file models the bloom filter policy (`util/bloom.cc`). A filter is an array of bits and a byte
with the number of probes. Bits are only ever set, and the reader probes the positions the builder
set, so a key that the filter was made of always matches.
-/

import LevelDb.Hash
import LevelDb.Sst.FilterBlock

namespace LevelDb.Sst

/-- `BloomHash`. -/
def bloomHash (key : Bytes) : BitVec 32 := Hash.hash key 0xbc9f1d34#32

/-- The step of the double hashing: the hash rotated right by 17 bits. -/
def bloomDelta (hash : BitVec 32) : BitVec 32 := hash >>> 17 ||| hash <<< 15

/-- A `char` as a `size_t`. -/
def charToSize (byte : UInt8) : Nat := (byte.toInt8.toInt % 2 ^ 64).toNat

/-- A `BloomFilterPolicy`. -/
structure BloomFilterPolicy where
  bitsPerKey : Nat
  k : Nat

namespace BloomFilterPolicy

/-- The constructor. The number of probes is `bits_per_key * 0.69` rounded down, as far as the
limit of 30 lets it matter. -/
def new (bitsPerKey : Nat) : BloomFilterPolicy where
  bitsPerKey
  k := min 30 (max 1 (bitsPerKey * 69 / 100))

/-- `array[bitpos/8] |= (1 << (bitpos % 8))`, for an array that starts behind `initSize` bytes. -/
def setBit (initSize bitpos : Nat) (dst : Bytes) : Bytes :=
  dst.modify (initSize + bitpos / 8) fun byte => byte ||| 1 <<< UInt8.ofNat (bitpos % 8)

/-- `(array[bitpos/8] & (1 << (bitpos % 8))) != 0`. -/
def testBit (array : Bytes) (bitpos : Nat) : Bool :=
  array.getD (bitpos / 8) 0 &&& 1 <<< UInt8.ofNat (bitpos % 8) ≠ 0

/-- The loop over the probes of one key in `CreateFilter`. -/
def setProbes (initSize bits : Nat) (delta : BitVec 32) : Nat → BitVec 32 → Bytes → Bytes
  | 0, _, dst => dst
  | probes + 1, h, dst =>
    setProbes initSize bits delta probes (h + delta) (setBit initSize (h.toNat % bits) dst)

/-- The loop of `KeyMayMatch`. -/
def testProbes (array : Bytes) (bits : Nat) (delta : BitVec 32) : Nat → BitVec 32 → Bool
  | 0, _ => true
  | probes + 1, h =>
    if !testBit array (h.toNat % bits) then false
    else testProbes array bits delta probes (h + delta)

variable (policy : BloomFilterPolicy)

/-- The number of bytes of the array of bits for `n` keys. -/
def arrayBytes (n : Nat) : Nat :=
  let bits := n * policy.bitsPerKey % 2 ^ 64
  let bits := if bits < 64 then 64 else bits
  (bits + 7) % 2 ^ 64 / 8

/-- `CreateFilter`, which appends to `dst`. -/
def createFilter (keys : List Bytes) (dst : Bytes) : Bytes :=
  let bytes := policy.arrayBytes keys.length
  let bits := bytes * 8
  let initSize := dst.length
  keys.foldl (fun dst key => setProbes initSize bits (bloomDelta (bloomHash key)) policy.k
      (bloomHash key) dst)
    (dst ++ List.replicate bytes 0 ++ [UInt8.ofNat policy.k])

/-- `KeyMayMatch`. It reads nothing of the policy. -/
def keyMayMatch (_policy : BloomFilterPolicy) (key bloomFilter : Bytes) : Bool :=
  let len := bloomFilter.length
  if len < 2 then false
  else
    let bits := (len - 1) * 8
    let k := charToSize (bloomFilter.getD (len - 1) 0)
    if 30 < k then true
    else testProbes bloomFilter bits (bloomDelta (bloomHash key)) k (bloomHash key)

/-- The policy as filter blocks are given it. -/
def toFilterPolicy : FilterPolicy where
  name := "leveldb.BuiltinBloomFilter2".toUTF8.toList
  createFilter keys := policy.createFilter keys []
  keyMayMatch := policy.keyMayMatch

/-! ### Bits -/

variable {policy}

@[simp] theorem length_setBit (initSize bitpos : Nat) (dst : Bytes) :
    (setBit initSize bitpos dst).length = dst.length := List.length_modify _ _ _

@[simp] theorem length_setProbes (initSize bits : Nat) (delta : BitVec 32) (probes : Nat)
    (h : BitVec 32) (dst : Bytes) :
    (setProbes initSize bits delta probes h dst).length = dst.length := by
  induction probes generalizing h dst with
  | zero => rfl
  | succ probes inductionHypothesis => rw [setProbes, inductionHypothesis, length_setBit]

theorem setBit_append (bitpos : Nat) (dst array : Bytes) :
    setBit dst.length bitpos (dst ++ array) = dst ++ setBit 0 bitpos array := by
  induction dst with
  | nil => rfl
  | cons byte rest inductionHypothesis =>
    rw [setBit, List.length_cons, Nat.add_right_comm, List.cons_append, List.modify_succ_cons]
    exact congrArg (byte :: ·) inductionHypothesis

theorem setProbes_append (bits : Nat) (delta : BitVec 32) (probes : Nat) (h : BitVec 32)
    (dst array : Bytes) :
    setProbes dst.length bits delta probes h (dst ++ array) =
      dst ++ setProbes 0 bits delta probes h array := by
  induction probes generalizing h array with
  | zero => rfl
  | succ probes inductionHypothesis => rw [setProbes, setProbes, setBit_append, inductionHypothesis]

/-- The filter is appended: what is in front of it neither changes nor matters. -/
theorem createFilter_eq (policy : BloomFilterPolicy) (keys : List Bytes) (dst : Bytes) :
    policy.createFilter keys dst = dst ++ policy.createFilter keys [] := by
  have folded : ∀ (bits : Nat) (rest : List Bytes) (array : Bytes),
      rest.foldl (fun array key => setProbes dst.length bits (bloomDelta (bloomHash key)) policy.k
          (bloomHash key) array) (dst ++ array) =
        dst ++ rest.foldl (fun array key => setProbes 0 bits (bloomDelta (bloomHash key)) policy.k
          (bloomHash key) array) array := by
    intro bits rest
    induction rest with
    | nil => exact fun array => rfl
    | cons key rest inductionHypothesis =>
      intro array
      rw [List.foldl_cons, List.foldl_cons, setProbes_append, inductionHypothesis]
  rw [createFilter, createFilter, List.append_assoc]
  exact folded _ keys _

theorem or_and_mask (byte mask : UInt8) : (byte ||| mask) &&& mask = mask := by
  rw [← UInt8.toNat_inj, UInt8.toNat_and, UInt8.toNat_or]
  refine Nat.eq_of_testBit_eq fun index => ?_
  rw [Nat.testBit_and, Nat.testBit_or]
  cases byte.toNat.testBit index <;> cases mask.toNat.testBit index <;> rfl

theorem mask_ne_zero (bitpos : Nat) : (1 : UInt8) <<< UInt8.ofNat (bitpos % 8) ≠ 0 := by
  have small : bitpos % 8 < 8 := Nat.mod_lt _ (by decide)
  generalize bitpos % 8 = shift at small
  interval_cases shift <;> decide

theorem and_ne_zero_of_or {byte mask other : UInt8} (isSet : byte &&& mask ≠ 0) :
    (byte ||| other) &&& mask ≠ 0 := by
  intro clear
  refine isSet ?_
  rw [← UInt8.toNat_inj, UInt8.toNat_and, UInt8.toNat_zero] at clear ⊢
  rw [UInt8.toNat_or] at clear
  refine Nat.eq_of_testBit_eq fun index => ?_
  have clearIndex := congrArg (Nat.testBit · index) clear
  simp only [Nat.testBit_and, Nat.testBit_or, Nat.zero_testBit] at clearIndex ⊢
  revert clearIndex
  cases byte.toNat.testBit index <;> cases mask.toNat.testBit index <;> simp

theorem testBit_setBit_self {array : Bytes} {bitpos : Nat} (inside : bitpos / 8 < array.length) :
    testBit (setBit 0 bitpos array) bitpos = true := by
  rw [testBit, setBit, Nat.zero_add, List.getD_eq_getElem?_getD, List.getElem?_modify_eq,
    List.getElem?_eq_getElem inside, decide_eq_true_eq, Option.map_eq_map, Option.map_some,
    Option.getD_some, or_and_mask]
  exact mask_ne_zero bitpos

/-- Setting a bit clears none. -/
theorem testBit_setBit {array : Bytes} {bitpos : Nat} (isSet : testBit array bitpos = true)
    (other : Nat) : testBit (setBit 0 other array) bitpos = true := by
  rw [testBit, decide_eq_true_eq, List.getD_eq_getElem?_getD] at isSet ⊢
  rw [setBit, Nat.zero_add]
  by_cases same : other / 8 = bitpos / 8
  · rw [same, List.getElem?_modify_eq]
    cases byte : array[bitpos / 8]? with
    | none => rwa [byte] at isSet
    | some byte' =>
      rw [byte, Option.getD_some] at isSet
      exact and_ne_zero_of_or isSet
  · rwa [List.getElem?_modify_ne _ _ same]

theorem testBit_setProbes {array : Bytes} {bitpos : Nat} (isSet : testBit array bitpos = true)
    (bits : Nat) (delta : BitVec 32) (probes : Nat) (h : BitVec 32) :
    testBit (setProbes 0 bits delta probes h array) bitpos = true := by
  induction probes generalizing h array with
  | zero => exact isSet
  | succ probes inductionHypothesis => exact inductionHypothesis (testBit_setBit isSet _) _

theorem testProbes_mono {array array' : Bytes}
    (grows : ∀ bitpos, testBit array bitpos = true → testBit array' bitpos = true) {bits : Nat}
    {delta : BitVec 32} {probes : Nat} {h : BitVec 32}
    (matches' : testProbes array bits delta probes h = true) :
    testProbes array' bits delta probes h = true := by
  induction probes generalizing h with
  | zero => rfl
  | succ probes inductionHypothesis =>
    rw [testProbes] at matches' ⊢
    cases isSet : testBit array (h.toNat % bits) with
    | false => rw [isSet] at matches'; cases matches'
    | true =>
      rw [isSet] at matches'
      rw [grows _ isSet]
      exact inductionHypothesis matches'

/-- The reader finds every bit that the probes of a key have set. -/
theorem testProbes_setProbes {array : Bytes} {bits : Nat} (positive : 0 < bits)
    (inside : bits ≤ array.length * 8) (delta : BitVec 32) (probes : Nat) (h : BitVec 32) :
    testProbes (setProbes 0 bits delta probes h array) bits delta probes h = true := by
  induction probes generalizing h array with
  | zero => rfl
  | succ probes inductionHypothesis =>
    have position := Nat.mod_lt h.toNat positive
    have isSet : testBit (setBit 0 (h.toNat % bits) array) (h.toNat % bits) = true :=
      testBit_setBit_self (by omega)
    rw [setProbes, testProbes, testBit_setProbes isSet]
    exact inductionHypothesis (by rwa [length_setBit]) _

/-! ### No key is missed -/

theorem setProbes_last {array : Bytes} {bytes : Nat} (positive : 0 < bytes) (delta : BitVec 32)
    (probes : Nat) (h : BitVec 32) :
    (setProbes 0 (bytes * 8) delta probes h array)[bytes]? = array[bytes]? := by
  induction probes generalizing h array with
  | zero => rfl
  | succ probes inductionHypothesis =>
    have position := Nat.mod_lt h.toNat (Nat.mul_pos positive (by decide : 0 < 8))
    rw [setProbes, inductionHypothesis, setBit, Nat.zero_add, List.getElem?_modify_ne]
    omega

/-- The array after the probes of a list of keys: as long as before, with the same last byte, no
bit cleared, and with all probes of the keys set. -/
structure Probed (policy : BloomFilterPolicy) (bytes : Nat) (keys : List Bytes)
    (array array' : Bytes) : Prop where
  length_eq : array'.length = array.length
  last_eq : array'[bytes]? = array[bytes]?
  grows : ∀ bitpos, testBit array bitpos = true → testBit array' bitpos = true
  set' : ∀ key ∈ keys, testProbes array' (bytes * 8) (bloomDelta (bloomHash key)) policy.k
    (bloomHash key) = true

theorem probed_foldl (policy : BloomFilterPolicy) {bytes : Nat} (positive : 0 < bytes)
    (keys : List Bytes) {array : Bytes} (inside : bytes ≤ array.length) :
    Probed policy bytes keys array (keys.foldl (fun array key => setProbes 0 (bytes * 8)
      (bloomDelta (bloomHash key)) policy.k (bloomHash key) array) array) := by
  induction keys generalizing array with
  | nil => exact ⟨rfl, rfl, fun _ isSet => isSet, fun key member => absurd member (by simp)⟩
  | cons key rest inductionHypothesis =>
    have set' := testProbes_setProbes (Nat.mul_pos positive (by decide : 0 < 8))
      (Nat.mul_le_mul_right 8 inside) (bloomDelta (bloomHash key)) policy.k (bloomHash key)
    have after := inductionHypothesis (inside.trans (length_setProbes 0 (bytes * 8)
      (bloomDelta (bloomHash key)) policy.k (bloomHash key) array).ge)
    refine ⟨after.length_eq.trans (length_setProbes _ _ _ _ _ _),
      after.last_eq.trans (setProbes_last positive _ _ _),
      fun bitpos isSet => after.grows bitpos (testBit_setProbes isSet _ _ _ _), ?_⟩
    intro other member
    rcases List.mem_cons.mp member with rfl | inRest
    · exact testProbes_mono after.grows set'
    · exact after.set' other inRest

theorem new_k_le (bitsPerKey : Nat) : (new bitsPerKey).k ≤ 30 := Nat.min_le_left _ _

theorem charToSize_ofNat {k : Nat} (small : k ≤ 30) : charToSize (UInt8.ofNat k) = k := by
  interval_cases k <;> rfl

theorem arrayBytes_pos {n : Nat} (noOverflow : n * policy.bitsPerKey + 7 < 2 ^ 64) :
    0 < policy.arrayBytes n := by
  unfold arrayBytes
  dsimp only
  split <;> omega

/-- Every key that a filter is made of matches it, whatever string the filter is appended to and
whatever the policy that reads it was created with. -/
theorem keyMayMatch_createFilter {bitsPerKey : Nat} (bitsInt : bitsPerKey < 2 ^ 31)
    (reader : BloomFilterPolicy) {keys : List Bytes} (keysInt : keys.length < 2 ^ 31)
    (dst : Bytes) :
    ∃ filter, (new bitsPerKey).createFilter keys dst = dst ++ filter ∧
      ∀ key ∈ keys, reader.keyMayMatch key filter = true := by
  refine ⟨_, createFilter_eq _ _ _, fun key member => ?_⟩
  have noOverflow : keys.length * (new bitsPerKey).bitsPerKey + 7 < 2 ^ 64 := by
    have product := Nat.mul_lt_mul'' keysInt bitsInt
    change keys.length * bitsPerKey + 7 < 2 ^ 64
    omega
  have positive := arrayBytes_pos noOverflow
  rw [createFilter, List.nil_append, List.length_nil]
  set bytes := (new bitsPerKey).arrayBytes keys.length
  have room : bytes ≤ (List.replicate bytes 0 ++ [UInt8.ofNat (new bitsPerKey).k]).length := by
    simp
  have probed := probed_foldl (new bitsPerKey) positive keys room
  generalize keys.foldl _ _ = filter at probed
  have length : filter.length = bytes + 1 := by rw [probed.length_eq]; simp
  have last : filter.getD (filter.length - 1) 0 = UInt8.ofNat (new bitsPerKey).k := by
    rw [List.getD_eq_getElem?_getD, length, Nat.add_sub_cancel, probed.last_eq]
    simp
  rw [keyMayMatch, last, charToSize_ofNat (new_k_le bitsPerKey), length, Nat.add_sub_cancel]
  dsimp only
  rw [if_neg (by omega), if_neg (new_k_le bitsPerKey).not_gt]
  exact probed.set' key member

theorem keyMayMatch_createFilter_two :
    ∃ filter, (new 10).createFilter [[0x61], [0xff, 0x62]] [0x00] = [0x00] ++ filter ∧
      ∀ key ∈ [[0x61], [0xff, 0x62]], (new 3).keyMayMatch key filter = true :=
  keyMayMatch_createFilter (by decide) (new 3) (by decide) [0x00]

end BloomFilterPolicy

end LevelDb.Sst
