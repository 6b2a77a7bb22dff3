/-
This file develops reflected cyclic redundancy checks over a register of 32 bits, bit by bit, for
an arbitrary polynomial. Stepping the register is linear, and bits that lie above the ones
shifted out are only moved. Together these give the rules behind table-driven
implementations, for one byte and for four bytes at a time.
-/

import Mathlib.Tactic

namespace LevelDb.Lib

/-- One bit of a reflected CRC. -/
def crcBit (polynomial register : BitVec 32) : BitVec 32 :=
  if register.getLsbD 0 then (register >>> 1) ^^^ polynomial else register >>> 1

def crcBits (polynomial : BitVec 32) (count : Nat) (register : BitVec 32) : BitVec 32 :=
  (crcBit polynomial)^[count] register

variable {polynomial : BitVec 32}

theorem crcBit_xor (first second : BitVec 32) :
    crcBit polynomial (first ^^^ second) =
      crcBit polynomial first ^^^ crcBit polynomial second := by
  have shifted : (first ^^^ second) >>> 1 = (first >>> 1) ^^^ (second >>> 1) :=
    BitVec.ushiftRight_xor_distrib first second 1
  unfold crcBit
  rw [BitVec.getLsbD_xor, shifted]
  cases first.getLsbD 0 <;> cases second.getLsbD 0
  · rfl
  · exact BitVec.xor_assoc _ _ _
  · show (first >>> 1 ^^^ second >>> 1) ^^^ polynomial = (first >>> 1 ^^^ polynomial) ^^^ second >>> 1
    rw [BitVec.xor_assoc, BitVec.xor_assoc, BitVec.xor_comm polynomial]
  · show first >>> 1 ^^^ second >>> 1 =
      (first >>> 1 ^^^ polynomial) ^^^ (second >>> 1 ^^^ polynomial)
    rw [BitVec.xor_assoc, ← BitVec.xor_assoc polynomial, BitVec.xor_comm polynomial,
      BitVec.xor_assoc, BitVec.xor_self, BitVec.xor_zero]

theorem crcBits_xor (count : Nat) (first second : BitVec 32) :
    crcBits polynomial count (first ^^^ second) =
      crcBits polynomial count first ^^^ crcBits polynomial count second := by
  induction count generalizing first second with
  | zero => rfl
  | succ count inductionHypothesis =>
    unfold crcBits at inductionHypothesis ⊢
    rw [Function.iterate_succ_apply, Function.iterate_succ_apply, Function.iterate_succ_apply,
      crcBit_xor, inductionHypothesis]

theorem crcBits_add (first second : Nat) (register : BitVec 32) :
    crcBits polynomial (first + second) register =
      crcBits polynomial first (crcBits polynomial second register) :=
  Function.iterate_add_apply (crcBit polynomial) first second register

/-- As long as only zeros are shifted out, the register is just shifted. -/
theorem crcBits_eq_shift {count : Nat} {register : BitVec 32}
    (zeros : ∀ index < count, register.getLsbD index = false) :
    crcBits polynomial count register = register >>> count := by
  induction count generalizing register with
  | zero => simp [crcBits]
  | succ count inductionHypothesis =>
    have step : crcBit polynomial register = register >>> 1 := by
      rw [crcBit, zeros 0 (Nat.succ_pos count)]
      rfl
    have rest : ∀ index < count, (register >>> 1).getLsbD index = false := by
      intro index below
      rw [BitVec.getLsbD_ushiftRight, Nat.add_comm]
      exact zeros (index + 1) (Nat.succ_lt_succ below)
    have next := inductionHypothesis rest
    unfold crcBits at next ⊢
    rw [Function.iterate_succ_apply, step, next, ← BitVec.shiftRight_add, Nat.add_comm]

/-- The low bits of a register, alone. -/
def lowBits (count : Nat) (register : BitVec 32) : BitVec 32 :=
  (register.setWidth count).setWidth 32

theorem lowBits_xor_high (count : Nat) (register : BitVec 32) :
    lowBits count register ^^^ ((register >>> count) <<< count) = register := by
  refine BitVec.eq_of_getLsbD_eq fun index bound => ?_
  simp only [lowBits, BitVec.getLsbD_xor, BitVec.getLsbD_setWidth, BitVec.getLsbD_shiftLeft,
    BitVec.getLsbD_ushiftRight]
  by_cases low : index < count
  · simp [low, bound]
  · have sum : count + (index - count) = index := by omega
    simp [low, bound, sum]

/-- Eight bits of a register split into the step of its low byte and the bits above it. The
same holds for any number of bits. -/
theorem crcBits_split (count : Nat) (register : BitVec 32) :
    crcBits polynomial count register =
      crcBits polynomial count (lowBits count register) ^^^ (register >>> count) := by
  have high : crcBits polynomial count ((register >>> count) <<< count) = register >>> count := by
    rw [crcBits_eq_shift]
    · refine BitVec.eq_of_getLsbD_eq fun index bound => ?_
      simp only [BitVec.getLsbD_ushiftRight, BitVec.getLsbD_shiftLeft]
      by_cases inside : count + index < 32
      · simp [inside]
      · simp [inside, BitVec.getLsbD_of_ge register (count + index) (by omega)]
    · intro index below
      simp [BitVec.getLsbD_shiftLeft, below]
  conv_lhs => rw [← lowBits_xor_high count register]
  rw [crcBits_xor, high]

/-- A word joins the register byte by byte: bits above the ones shifted out join later. -/
theorem crcBits_xor_shiftLeft {count : Nat} (register : BitVec 32) {word : BitVec 32}
    (fits : word <<< count >>> count = word) :
    crcBits polynomial count (register ^^^ (word <<< count)) =
      crcBits polynomial count register ^^^ word := by
  have moved : crcBits polynomial count (word <<< count) = word := by
    rw [crcBits_eq_shift, fits]
    intro index below
    simp [BitVec.getLsbD_shiftLeft, below]
  rw [crcBits_xor, moved]

end LevelDb.Lib
