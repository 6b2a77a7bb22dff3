/-
This file models the names of the files in a database directory (`db/filename`, and
`ConsumeDecimalNumber` of `util/logging`) and the directory itself, which maps names to
contents. Names are relative to the directory.
-/

import LevelDb.Coding
import Mathlib.Data.Nat.Digits.Defs

namespace LevelDb

/-! ### Names -/

def ascii (text : List Char) : Bytes := text.map fun letter => UInt8.ofNat letter.toNat

/-- A number as `%06llu` prints it. -/
def decimal (number : Nat) : Bytes :=
  let digits := (Nat.digits 10 number).reverse.map fun digit => UInt8.ofNat (48 + digit)
  List.replicate (6 - digits.length) 48 ++ digits

/-- `MakeFileName`. -/
def makeFileName (number : Nat) (suffix : List Char) : Bytes := decimal number ++ ascii ('.' :: suffix)

def logFileName (number : Nat) : Bytes := makeFileName number ['l', 'o', 'g']

def tableFileName (number : Nat) : Bytes := makeFileName number ['l', 'd', 'b']

def sstTableFileName (number : Nat) : Bytes := makeFileName number ['s', 's', 't']

def tempFileName (number : Nat) : Bytes := makeFileName number ['d', 'b', 't', 'm', 'p']

/-- What every manifest name starts with. -/
def manifestPrefix : Bytes := ascii ['M', 'A', 'N', 'I', 'F', 'E', 'S', 'T', '-']

def descriptorFileName (number : Nat) : Bytes := manifestPrefix ++ decimal number

def currentFileName : Bytes := ascii ['C', 'U', 'R', 'R', 'E', 'N', 'T']

def lockFileName : Bytes := ascii ['L', 'O', 'C', 'K']

def infoLogFileName : Bytes := ascii ['L', 'O', 'G']

def oldInfoLogFileName : Bytes := ascii ['L', 'O', 'G', '.', 'o', 'l', 'd']

inductive FileType
  | kLogFile
  | kDBLockFile
  | kTableFile
  | kDescriptorFile
  | kCurrentFile
  | kTempFile
  | kInfoLogFile
  deriving DecidableEq, Repr

/-- The loop of `ConsumeDecimalNumber`: the value, the digits seen, and the rest of the input. -/
def consumeDigits (value digits : Nat) : Bytes → Option (Nat × Nat × Bytes)
  | [] => some (value, digits, [])
  | byte :: rest =>
    if 48 ≤ byte.toNat ∧ byte.toNat ≤ 57 then
      let delta := byte.toNat - 48
      let kMaxUint64 := 2 ^ 64 - 1
      if value > kMaxUint64 / 10 ∨ value = kMaxUint64 / 10 ∧ delta > kMaxUint64 % 10 then none
      else consumeDigits (value * 10 + delta) (digits + 1) rest
    else some (value, digits, byte :: rest)

/-- `ConsumeDecimalNumber`. -/
def consumeDecimalNumber (input : Bytes) : Option (Nat × Bytes) :=
  match consumeDigits 0 0 input with
  | some (value, _ + 1, rest) => some (value, rest)
  | _ => none

/-- `ParseFileName`. -/
def parseFileName (name : Bytes) : Option (Nat × FileType) :=
  if name = currentFileName then some (0, .kCurrentFile)
  else if name = lockFileName then some (0, .kDBLockFile)
  else if name = infoLogFileName ∨ name = oldInfoLogFileName then some (0, .kInfoLogFile)
  else if manifestPrefix <+: name then
    match consumeDecimalNumber (name.drop manifestPrefix.length) with
    | some (number, []) => some (number, .kDescriptorFile)
    | _ => none
  else
    match consumeDecimalNumber name with
    | none => none
    | some (number, suffix) =>
      if suffix = ascii ['.', 'l', 'o', 'g'] then some (number, .kLogFile)
      else if suffix = ascii ['.', 's', 's', 't'] ∨ suffix = ascii ['.', 'l', 'd', 'b'] then
        some (number, .kTableFile)
      else if suffix = ascii ['.', 'd', 'b', 't', 'm', 'p'] then some (number, .kTempFile)
      else none

theorem decimal_ne_nil (number : Nat) : decimal number ≠ [] := by
  intro isNil
  have lengths := congrArg List.length isNil
  simp only [decimal, List.length_append, List.length_replicate, List.length_map,
    List.length_reverse, List.length_nil] at lengths
  omega

/-- Numbers are printed in digits. -/
theorem mem_decimal {number : Nat} {byte : UInt8} (member : byte ∈ decimal number) :
    48 ≤ byte.toNat ∧ byte.toNat < 58 := by
  rw [decimal, List.mem_append] at member
  rcases member with padding | isDigit
  · rw [(List.mem_replicate.mp padding).2]
    decide
  · obtain ⟨digit, inDigits, rfl⟩ := List.mem_map.mp isDigit
    have bound : digit < 10 :=
      Nat.digits_lt_base (show 1 < 10 by decide) (List.mem_reverse.mp inDigits)
    rw [UInt8.toNat_ofNat']
    omega

theorem makeFileName_head (number : Nat) (suffix : List Char) :
    ∃ byte rest, makeFileName number suffix = byte :: rest ∧ 48 ≤ byte.toNat ∧ byte.toNat < 58 := by
  obtain ⟨byte, rest, isDecimal⟩ := List.exists_cons_of_ne_nil (decimal_ne_nil number)
  refine ⟨byte, rest ++ ascii ('.' :: suffix), ?_, ?_⟩
  · rw [makeFileName, isDecimal, List.cons_append]
  · refine @mem_decimal number byte ?_
    rw [isDecimal]
    exact List.mem_cons_self

theorem makeFileName_ne_descriptorFileName (number other : Nat) (suffix : List Char) :
    makeFileName number suffix ≠ descriptorFileName other := by
  obtain ⟨byte, rest, isName, _, isDigit⟩ := makeFileName_head number suffix
  intro same
  rw [isName, descriptorFileName, manifestPrefix] at same
  have letter : byte = 77 := (List.cons.inj same).1
  rw [letter] at isDigit
  exact absurd isDigit (by decide)

theorem makeFileName_ne_currentFileName (number : Nat) (suffix : List Char) :
    makeFileName number suffix ≠ currentFileName := by
  obtain ⟨byte, rest, isName, _, isDigit⟩ := makeFileName_head number suffix
  intro same
  rw [isName] at same
  have letter : byte = 67 := (List.cons.inj same).1
  rw [letter] at isDigit
  exact absurd isDigit (by decide)

theorem descriptorFileName_ne_currentFileName (number : Nat) :
    descriptorFileName number ≠ currentFileName := by
  intro same
  exact absurd (List.cons.inj same).1 (by decide)

/-! ### The directory -/

/-- The files of the database directory. -/
abbrev Directory := Bytes → Option Bytes

/-- `SetCurrentFile`: whether it succeeded, and the directory after it. `tempWritten` and `renamed`
say whether writing the temporary file and renaming it succeed; the temporary file is deleted if
one of them does not. -/
def setCurrentFile (directory : Directory) (descriptorNumber : Nat) (tempWritten renamed : Bool) :
    Bool × Directory :=
  let temp := tempFileName descriptorNumber
  let contents := descriptorFileName descriptorNumber ++ [10]
  if tempWritten && renamed then
    (true, Function.update (Function.update directory currentFileName (some contents)) temp none)
  else (false, Function.update directory temp none)

theorem setCurrentFile_current (directory : Directory) (number : Nat) :
    (setCurrentFile directory number true true).2 currentFileName =
      some (descriptorFileName number ++ [10]) := by
  have temp : currentFileName ≠ tempFileName number := (makeFileName_ne_currentFileName _ _).symm
  exact (Function.update_of_ne temp _ _).trans (Function.update_self _ _ _)

theorem setCurrentFile_descriptor (directory : Directory) (number other : Nat) :
    (setCurrentFile directory number true true).2 (descriptorFileName other) =
      directory (descriptorFileName other) := by
  have temp : descriptorFileName other ≠ tempFileName number :=
    (makeFileName_ne_descriptorFileName _ _ _).symm
  exact (Function.update_of_ne temp _ _).trans
    (Function.update_of_ne (descriptorFileName_ne_currentFileName other) _ _)

end LevelDb
