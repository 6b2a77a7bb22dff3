/-
This file models the hash of byte strings (`util/hash.cc`), in 32 bits.
-/

import LevelDb.Coding

namespace LevelDb.Hash

def m : BitVec 32 := 0xc6a4a793#32

def r : Nat := 24

/-- The last step over up to three bytes, added up. -/
def last (h sum : BitVec 32) : BitVec 32 := (h + sum) * m ^^^ ((h + sum) * m) >>> r

/-- The loop over four bytes at a time, and the `switch` over the bytes that are left. -/
def loop : Bytes → BitVec 32 → BitVec 32
  | a :: b :: c :: d :: rest, h =>
    let h := (h + BitVec.ofNat 32 (decodeFixed32 [a, b, c, d])) * m
    loop rest (h ^^^ h >>> 16)
  | [a, b, c], h =>
    last h (BitVec.ofNat 32 (c.toNat <<< 16) + BitVec.ofNat 32 (b.toNat <<< 8) +
      BitVec.ofNat 32 a.toNat)
  | [a, b], h => last h (BitVec.ofNat 32 (b.toNat <<< 8) + BitVec.ofNat 32 a.toNat)
  | [a], h => last h (BitVec.ofNat 32 a.toNat)
  | [], h => h

/-- `Hash`. -/
def hash (data : Bytes) (seed : BitVec 32) : BitVec 32 :=
  loop data (seed ^^^ BitVec.ofNat 32 data.length * m)

/-- Two strings that `util/hash_test.cc` has. -/
example : hash [0xe2, 0x99, 0xa5] 0xbc9f1d34#32 = 0x323c078f#32 ∧
    hash [0xe1, 0x80, 0xb9, 0x32] 0xbc9f1d34#32 = 0xed21633a#32 := by decide

end LevelDb.Hash
