/-
This file proves what `ConsumeDecimalNumber` and `ParseFileName` accept. A number is consumed to
its last digit and refused as soon as it does not fit in 64 bits; a file name is accepted exactly
if it is one of the fixed names or a number with the right text around it; and the names the
database gives its files are read back.
-/

import LevelDb.FileName

namespace LevelDb

/-! ### Numbers -/

/-- The number that decimal digits stand for, behind the digits of `value`. -/
def decimalValue (value : Nat) : Bytes → Nat
  | [] => value
  | byte :: rest => decimalValue (value * 10 + (byte.toNat - 48)) rest

/-- A character from `0` to `9`. -/
def IsDigit (byte : UInt8) : Prop := 48 ≤ byte.toNat ∧ byte.toNat ≤ 57

instance (byte : UInt8) : Decidable (IsDigit byte) := inferInstanceAs (Decidable (_ ∧ _))

theorem le_decimalValue (value : Nat) (digits : Bytes) : value ≤ decimalValue value digits := by
  induction digits generalizing value with
  | nil => exact le_rfl
  | cons byte rest inductionHypothesis =>
    exact le_trans (by omega) (inductionHypothesis (value * 10 + (byte.toNat - 48)))

theorem decimalValue_append (value : Nat) (first second : Bytes) :
    decimalValue value (first ++ second) = decimalValue (decimalValue value first) second := by
  induction first generalizing value with
  | nil => rfl
  | cons byte rest inductionHypothesis =>
    exact inductionHypothesis (value * 10 + (byte.toNat - 48))

/-- The test for an overflow says that the next number does not fit. -/
theorem overflow_iff {value delta : Nat} (small : delta ≤ 9) :
    (value > (2 ^ 64 - 1) / 10 ∨ value = (2 ^ 64 - 1) / 10 ∧ delta > (2 ^ 64 - 1) % 10) ↔
      2 ^ 64 - 1 < value * 10 + delta := by
  omega

theorem consumeDigits_cons (value digits : Nat) {byte : UInt8} (rest : Bytes)
    (isDigit : IsDigit byte) :
    consumeDigits value digits (byte :: rest) =
      if 2 ^ 64 - 1 < value * 10 + (byte.toNat - 48) then none
      else consumeDigits (value * 10 + (byte.toNat - 48)) (digits + 1) rest := by
  have small : byte.toNat ≤ 57 := isDigit.2
  rw [consumeDigits]
  exact (if_pos isDigit).trans (if_congr (overflow_iff (by omega)) rfl rfl)

/-- The loop goes over all digits, and fails exactly if their number does not fit in 64 bits. -/
theorem consumeDigits_eq_some_iff {value digits result count : Nat} {input rest : Bytes} :
    consumeDigits value digits input = some (result, count, rest) ↔
      ∃ text : Bytes, input = text ++ rest ∧ (∀ byte ∈ text, IsDigit byte) ∧
        (∀ byte ∈ rest.head?, ¬ IsDigit byte) ∧
        (text = [] ∨ decimalValue value text ≤ 2 ^ 64 - 1) ∧
        result = decimalValue value text ∧ count = digits + text.length := by
  induction input generalizing value digits with
  | nil =>
    constructor
    · rintro ⟨⟩
      exact ⟨[], rfl, fun _ member => absurd member List.not_mem_nil,
        fun _ member => absurd member (Option.not_mem_none _), .inl rfl, rfl, rfl⟩
    · rintro ⟨text, isInput, -, -, -, rfl, rfl⟩
      obtain ⟨rfl, rfl⟩ := List.append_eq_nil_iff.mp isInput.symm
      rfl
  | cons byte tail inductionHypothesis =>
    by_cases isDigit : IsDigit byte
    · rw [consumeDigits_cons value digits tail isDigit]
      constructor
      · intro consumed
        split at consumed
        · cases consumed
        · next fits =>
          obtain ⟨text, rfl, areDigits, ends, textFits, isResult, isCount⟩ :=
            inductionHypothesis.mp consumed
          refine ⟨byte :: text, rfl, List.forall_mem_cons.mpr ⟨isDigit, areDigits⟩, ends, .inr ?_,
            isResult, by rw [isCount, List.length_cons]; omega⟩
          rcases textFits with rfl | textFits
          · exact not_lt.mp fits
          · exact textFits
      · rintro ⟨text, isInput, areDigits, ends, fits, rfl, rfl⟩
        cases text with
        | nil =>
          rw [List.nil_append] at isInput
          rw [← isInput] at ends
          exact absurd isDigit (ends byte rfl)
        | cons first text =>
          obtain ⟨rfl, rfl⟩ := List.cons.inj isInput
          have textFits : decimalValue (value * 10 + (byte.toNat - 48)) text ≤ 2 ^ 64 - 1 :=
            fits.resolve_left (List.cons_ne_nil _ _)
          rw [if_neg (not_lt.mpr ((le_decimalValue _ text).trans textFits))]
          exact inductionHypothesis.mpr ⟨text, rfl, (List.forall_mem_cons.mp areDigits).2, ends,
            .inr textFits, rfl, by rw [List.length_cons]; omega⟩
    · have stops : consumeDigits value digits (byte :: tail) =
          some (value, digits, byte :: tail) := by
        rw [consumeDigits]
        exact if_neg isDigit
      rw [stops]
      constructor
      · rintro ⟨⟩
        refine ⟨[], rfl, fun _ member => absurd member List.not_mem_nil, ?_, .inl rfl, rfl, rfl⟩
        rintro other ⟨⟩
        exact isDigit
      · rintro ⟨text, isInput, areDigits, -, -, rfl, rfl⟩
        cases text with
        | nil =>
          rw [List.nil_append] at isInput
          rw [isInput]
          rfl
        | cons first text =>
          obtain ⟨rfl, -⟩ := List.cons.inj isInput
          exact absurd (areDigits byte List.mem_cons_self) isDigit

/-- Digits whose number fits in 64 bits. -/
structure IsNumber (text : Bytes) : Prop where
  nonempty : text ≠ []
  areDigits : ∀ byte ∈ text, IsDigit byte
  fits : decimalValue 0 text < 2 ^ 64

/-- `ConsumeDecimalNumber` takes a number off the input, up to its last digit. -/
theorem consumeDecimalNumber_eq_some_iff {value : Nat} {input rest : Bytes} :
    consumeDecimalNumber input = some (value, rest) ↔
      ∃ text : Bytes, input = text ++ rest ∧ IsNumber text ∧
        (∀ byte ∈ rest.head?, ¬ IsDigit byte) ∧ value = decimalValue 0 text := by
  rw [consumeDecimalNumber]
  constructor
  · intro consumed
    split at consumed
    · next loop =>
      cases consumed
      obtain ⟨text, isInput, areDigits, ends, fits, isValue, count⟩ :=
        consumeDigits_eq_some_iff.mp loop
      have nonempty : text ≠ [] := by
        rintro rfl
        simp at count
      have small := fits.resolve_left nonempty
      exact ⟨text, isInput, ⟨nonempty, areDigits, by omega⟩, ends, isValue⟩
    · cases consumed
  · rintro ⟨text, isInput, isNumber, ends, rfl⟩
    have loop : consumeDigits 0 0 input = some (decimalValue 0 text, 0 + text.length, rest) :=
      consumeDigits_eq_some_iff.mpr ⟨text, isInput, isNumber.areDigits, ends,
        .inr (Nat.le_sub_one_of_lt isNumber.fits), rfl, rfl⟩
    rw [Nat.zero_add, ← Nat.succ_pred_eq_of_pos (List.length_pos_iff.mpr isNumber.nonempty)] at loop
    rw [loop]

/-- `ConsumeDecimalNumber` takes all of the input exactly when it is a number that fits in 64
bits. -/
theorem consumeDecimalNumber_all_iff {value : Nat} {input : Bytes} :
    consumeDecimalNumber input = some (value, []) ↔
      IsNumber input ∧ value = decimalValue 0 input := by
  rw [consumeDecimalNumber_eq_some_iff]
  constructor
  · rintro ⟨text, isInput, isNumber, -, isValue⟩
    rw [isInput, List.append_nil]
    exact ⟨isNumber, isValue⟩
  · rintro ⟨isNumber, isValue⟩
    exact ⟨input, (List.append_nil input).symm, isNumber,
      fun _ member => absurd member (Option.not_mem_none _), isValue⟩

/-! ### Printed numbers -/

theorem decimalValue_zeros (count : Nat) : decimalValue 0 (List.replicate count 48) = 0 := by
  induction count with
  | zero => rfl
  | succ count inductionHypothesis => exact inductionHypothesis

/-- Digits are printed with the first one last in the list of `Nat.digits`. -/
theorem decimalValue_digits {digits : List Nat} (small : ∀ digit ∈ digits, digit < 10) :
    decimalValue 0 (digits.reverse.map fun digit => UInt8.ofNat (48 + digit)) =
      Nat.ofDigits 10 digits := by
  induction digits with
  | nil => rfl
  | cons digit rest inductionHypothesis =>
    obtain ⟨isSmall, restSmall⟩ := List.forall_mem_cons.mp small
    have byteValue : (UInt8.ofNat (48 + digit)).toNat - 48 = digit := by
      rw [UInt8.toNat_ofNat']
      omega
    rw [List.reverse_cons, List.map_append, decimalValue_append, inductionHypothesis restSmall,
      Nat.ofDigits_cons]
    show Nat.ofDigits 10 rest * 10 + ((UInt8.ofNat (48 + digit)).toNat - 48) = _
    rw [byteValue]
    omega

/-- A printed number stands for itself, with or without zeros in front. -/
theorem decimalValue_decimal (number : Nat) : decimalValue 0 (decimal number) = number := by
  have small : ∀ digit ∈ Nat.digits 10 number, digit < 10 := fun digit member =>
    Nat.digits_lt_base (by decide) member
  rw [decimal, decimalValue_append, decimalValue_zeros, decimalValue_digits small,
    Nat.ofDigits_digits]

theorem isNumber_decimal {number : Nat} (fits : number < 2 ^ 64) : IsNumber (decimal number) where
  nonempty := decimal_ne_nil number
  areDigits byte member := by
    have bounds := mem_decimal member
    exact ⟨bounds.1, by omega⟩
  fits := by rwa [decimalValue_decimal]

/-! ### File names -/

/-- The names of database files, with the number and the type of each. -/
inductive IsFileName : Bytes → Nat → FileType → Prop
  | current : IsFileName currentFileName 0 .kCurrentFile
  | lock : IsFileName lockFileName 0 .kDBLockFile
  | infoLog : IsFileName infoLogFileName 0 .kInfoLogFile
  | oldInfoLog : IsFileName oldInfoLogFileName 0 .kInfoLogFile
  | descriptor {digits : Bytes} (isNumber : IsNumber digits) :
      IsFileName (manifestPrefix ++ digits) (decimalValue 0 digits) .kDescriptorFile
  | log {digits : Bytes} (isNumber : IsNumber digits) :
      IsFileName (digits ++ ascii ".log".toList) (decimalValue 0 digits) .kLogFile
  | sst {digits : Bytes} (isNumber : IsNumber digits) :
      IsFileName (digits ++ ascii ".sst".toList) (decimalValue 0 digits) .kTableFile
  | ldb {digits : Bytes} (isNumber : IsNumber digits) :
      IsFileName (digits ++ ascii ".ldb".toList) (decimalValue 0 digits) .kTableFile
  | temp {digits : Bytes} (isNumber : IsNumber digits) :
      IsFileName (digits ++ ascii ".dbtmp".toList) (decimalValue 0 digits) .kTempFile

theorem parseFileName_descriptor (text : Bytes) :
    parseFileName (manifestPrefix ++ text) =
      match consumeDecimalNumber text with
      | some (number, []) => some (number, .kDescriptorFile)
      | _ => none := by
  have letter : ∀ {other : Bytes}, other.head? ≠ some 77 → manifestPrefix ++ text ≠ other := by
    rintro other head rfl
    exact head rfl
  have behind : (manifestPrefix ++ text).drop manifestPrefix.length = text := List.drop_left
  rw [parseFileName, if_neg (letter (by decide)), if_neg (letter (by decide)),
    if_neg (not_or.mpr ⟨letter (by decide), letter (by decide)⟩), behind]
  exact if_pos (List.prefix_append manifestPrefix text)

theorem parseFileName_digit {byte : UInt8} (isDigit : IsDigit byte) (rest : Bytes) :
    parseFileName (byte :: rest) =
      match consumeDecimalNumber (byte :: rest) with
      | none => none
      | some (number, suffix) =>
        if suffix = ascii ['.', 'l', 'o', 'g'] then some (number, .kLogFile)
        else if suffix = ascii ['.', 's', 's', 't'] ∨ suffix = ascii ['.', 'l', 'd', 'b'] then
          some (number, .kTableFile)
        else if suffix = ascii ['.', 'd', 'b', 't', 'm', 'p'] then some (number, .kTempFile)
        else none := by
  have letter : ∀ {first : UInt8} {other : Bytes}, other.head? = some first → ¬ IsDigit first →
      byte :: rest ≠ other := by
    rintro first other head notDigit rfl
    exact notDigit (Option.some.inj head ▸ isDigit)
  have notManifest : ¬ manifestPrefix <+: byte :: rest := by
    rintro ⟨tail, same⟩
    obtain ⟨rfl, -⟩ := List.cons.inj same
    exact absurd isDigit (by decide)
  rw [parseFileName, if_neg (letter rfl (by decide)), if_neg (letter rfl (by decide)),
    if_neg (not_or.mpr ⟨letter rfl (by decide), letter rfl (by decide)⟩)]
  exact if_neg notManifest

/-- A number in front of a suffix is consumed up to the point. -/
theorem parseFileName_number {digits : Bytes} (isNumber : IsNumber digits) (suffix : Bytes) :
    parseFileName (digits ++ 46 :: suffix) =
      if 46 :: suffix = ascii ['.', 'l', 'o', 'g'] then some (decimalValue 0 digits, .kLogFile)
      else if 46 :: suffix = ascii ['.', 's', 's', 't'] ∨
          46 :: suffix = ascii ['.', 'l', 'd', 'b'] then
        some (decimalValue 0 digits, .kTableFile)
      else if 46 :: suffix = ascii ['.', 'd', 'b', 't', 'm', 'p'] then
        some (decimalValue 0 digits, .kTempFile)
      else none := by
  obtain ⟨byte, rest, rfl⟩ := List.exists_cons_of_ne_nil isNumber.nonempty
  have consumed : consumeDecimalNumber (byte :: (rest ++ 46 :: suffix)) =
      some (decimalValue 0 (byte :: rest), 46 :: suffix) := by
    refine consumeDecimalNumber_eq_some_iff.mpr ⟨byte :: rest, rfl, isNumber, ?_, rfl⟩
    rintro other ⟨⟩
    decide
  rw [List.cons_append, parseFileName_digit (isNumber.areDigits byte List.mem_cons_self), consumed]

/-- What `ParseFileName` accepts is a file name with its number and type. -/
theorem isFileName_of_parseFileName {name : Bytes} {number : Nat} {type : FileType}
    (accepted : parseFileName name = some (number, type)) : IsFileName name number type := by
  rw [parseFileName] at accepted
  split at accepted
  · next isCurrent =>
    cases accepted
    rw [isCurrent]
    exact .current
  split at accepted
  · next isLock =>
    cases accepted
    rw [isLock]
    exact .lock
  split at accepted
  · next isInfoLog =>
    cases accepted
    rcases isInfoLog with rfl | rfl
    · exact .infoLog
    · exact .oldInfoLog
  split at accepted
  · next isDescriptor =>
    obtain ⟨text, rfl⟩ := isDescriptor
    rw [List.drop_left] at accepted
    split at accepted
    · next consumed =>
      cases accepted
      obtain ⟨isNumber, rfl⟩ := consumeDecimalNumber_all_iff.mp consumed
      exact .descriptor isNumber
    · cases accepted
  · split at accepted
    · cases accepted
    · next value suffix consumed =>
      obtain ⟨digits, rfl, isNumber, -, rfl⟩ := consumeDecimalNumber_eq_some_iff.mp consumed
      split at accepted
      · next isLog =>
        cases accepted
        rw [isLog]
        exact .log isNumber
      split at accepted
      · next isTable =>
        cases accepted
        rcases isTable with rfl | rfl
        · exact .sst isNumber
        · exact .ldb isNumber
      split at accepted
      · next isTemp =>
        cases accepted
        rw [isTemp]
        exact .temp isNumber
      · cases accepted

theorem parseFileName_of_isFileName {name : Bytes} {number : Nat} {type : FileType}
    (isName : IsFileName name number type) : parseFileName name = some (number, type) := by
  cases isName with
  | current => decide
  | lock => decide
  | infoLog => decide
  | oldInfoLog => decide
  | @descriptor digits isNumber =>
    have consumed : consumeDecimalNumber digits = some (decimalValue 0 digits, []) :=
      consumeDecimalNumber_all_iff.mpr ⟨isNumber, rfl⟩
    rw [parseFileName_descriptor, consumed]
  | log isNumber => exact (parseFileName_number isNumber _).trans (if_pos rfl)
  | sst isNumber =>
    exact (parseFileName_number isNumber _).trans ((if_neg (by decide)).trans (if_pos (.inl rfl)))
  | ldb isNumber =>
    exact (parseFileName_number isNumber _).trans ((if_neg (by decide)).trans (if_pos (.inr rfl)))
  | temp isNumber =>
    exact (parseFileName_number isNumber _).trans ((if_neg (by decide)).trans
      ((if_neg (by decide)).trans (if_pos rfl)))

/-- `ParseFileName` accepts exactly the names of database files, whatever the digits, and reads
back every name the database gives to a file. -/
theorem parseFileName_exact :
    (∀ number < 2 ^ 64,
      parseFileName (logFileName number) = some (number, .kLogFile) ∧
      parseFileName (tableFileName number) = some (number, .kTableFile) ∧
      parseFileName (sstTableFileName number) = some (number, .kTableFile) ∧
      parseFileName (descriptorFileName number) = some (number, .kDescriptorFile) ∧
      parseFileName (tempFileName number) = some (number, .kTempFile)) ∧
    ∀ name number type,
      parseFileName name = some (number, type) ↔ IsFileName name number type := by
  refine ⟨fun number fits => ?_, fun name number type =>
    ⟨isFileName_of_parseFileName, parseFileName_of_isFileName⟩⟩
  have isNumber := isNumber_decimal fits
  have value := decimalValue_decimal number
  refine ⟨?_, ?_, ?_, ?_, ?_⟩
  · exact (parseFileName_of_isFileName (.log isNumber)).trans (by rw [value])
  · exact (parseFileName_of_isFileName (.ldb isNumber)).trans (by rw [value])
  · exact (parseFileName_of_isFileName (.sst isNumber)).trans (by rw [value])
  · exact (parseFileName_of_isFileName (.descriptor isNumber)).trans (by rw [value])
  · exact (parseFileName_of_isFileName (.temp isNumber)).trans (by rw [value])

/-- The largest number is read back. -/
theorem parseFileName_exact_max :
    parseFileName (logFileName (2 ^ 64 - 1)) = some (2 ^ 64 - 1, .kLogFile) :=
  (parseFileName_exact.1 (2 ^ 64 - 1) (by decide)).1

end LevelDb
