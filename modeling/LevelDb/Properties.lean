/-
This file models `DBImpl::GetProperty` with the texts it prints. What `printf` makes of a quotient
of two numbers is supplied from outside; everything else about the names and the answers is here.
-/

import LevelDb.FileNameParsing
import LevelDb.Version

namespace LevelDb

/-! ### Texts -/

/-- `%d` and `%llu`. -/
def printInt (number : Int) : Bytes :=
  (if number < 0 then ascii ['-'] else []) ++ ascii (Nat.toDigits 10 number.natAbs)

/-- A field of a given width, filled up with blanks in front. -/
def padLeft (width : Nat) (text : Bytes) : Bytes := List.replicate (width - text.length) 32 ++ text

/-- `%02x` of a byte. -/
def printHex (byte : UInt8) : Bytes :=
  let digits := ascii (Nat.toDigits 16 byte.toNat)
  List.replicate (2 - digits.length) 48 ++ digits

/-- What `snprintf` leaves in a buffer. -/
def snprintf (bufferSize : Nat) (text : Bytes) : Bytes := text.take (bufferSize - 1)

/-- `EscapeString`. -/
def escapeString (value : Bytes) : Bytes :=
  value.flatMap fun byte =>
    if 32 ≤ byte.toNat ∧ byte.toNat ≤ 126 then [byte]
    else snprintf 10 (ascii ['\\', 'x'] ++ printHex byte)

/-- `ParsedInternalKey::DebugString`. -/
def ParsedInternalKey.debugString (key : ParsedInternalKey Bytes) : Bytes :=
  ascii ['\''] ++ escapeString key.userKey ++
    snprintf 50 (ascii "' @ ".toList ++ printInt key.sequence ++ ascii " : ".toList ++
      printInt key.type.code)

/-- `InternalKey::DebugString`. -/
def InternalKey.debugString (key : InternalKey Bytes) : Bytes :=
  match parseInternalKey key with
  | some parsed => parsed.debugString
  | none => ascii "(bad)".toList ++ escapeString (key.userKey ++ encodeFixed64 key.tag)

/-- `Version::DebugString`. -/
def Version.debugString {β : Type} (version : Version Bytes β) : Bytes :=
  (List.range Config.kNumLevels).flatMap fun level : Nat =>
    ascii "--- level ".toList ++ printInt level ++ ascii " ---\n".toList ++
      (version.files level).flatMap fun file =>
        ascii [' '] ++ printInt file.number ++ ascii [':'] ++ printInt file.fileSize ++
          ascii ['['] ++ file.smallest.debugString ++ ascii " .. ".toList ++
          file.largest.debugString ++ ascii "]\n".toList

/-! ### `GetProperty` -/

structure CompactionStats where
  micros : Int
  bytesRead : Int
  bytesWritten : Int

/-- What `GetProperty` reads of a database: the current version, the statistics of the levels, the
charge of the block cache, and the memory usage of the memtables it has. -/
structure PropertySource (β : Type) where
  current : Version Bytes β
  stats : Nat → CompactionStats
  totalCharge : Nat
  mem : Option Nat
  imm : Option Nat

namespace PropertySource

variable {β : Type}

/-- What `%W.Pf` prints for the quotient of two numbers, given `W` and `P`. -/
abbrev FixedPrinter := Nat → Nat → Int → Int → Bytes

variable (printFixed : FixedPrinter) (db : PropertySource β)

def numLevelFiles (level : Nat) : Nat := (db.current.files level).length

def numLevelBytes (level : Nat) : Nat := totalFileSize (db.current.files level)

/-- The levels that the statistics list. -/
def listedLevels : List Nat :=
  (List.range Config.kNumLevels).filter fun level =>
    0 < (db.stats level).micros ∨ 0 < db.numLevelFiles level

/-- The value of `leveldb.stats`. -/
def statsText : Bytes :=
  snprintf 200 (ascii "                               Compactions\n".toList ++
      ascii "Level  Files Size(MB) Time(sec) Read(MB) Write(MB)\n".toList ++
      ascii "--------------------------------------------------\n".toList) ++
    db.listedLevels.flatMap fun level : Nat =>
      snprintf 200 (padLeft 3 (printInt level) ++ ascii [' '] ++
        padLeft 8 (printInt (db.numLevelFiles level)) ++ ascii [' '] ++
        printFixed 8 0 (db.numLevelBytes level) 1048576 ++ ascii [' '] ++
        printFixed 9 2 (db.stats level).micros 1000000 ++ ascii [' '] ++
        printFixed 8 2 (db.stats level).bytesRead 1048576 ++ ascii [' '] ++
        printFixed 9 2 (db.stats level).bytesWritten 1048576 ++ ascii ['\n'])

/-- The object that `leveldb.jsonstats` has for a level. -/
def jsonLevel (level : Nat) : Bytes :=
  ascii "\x7b\n".toList ++
    ascii "\"level\"".toList ++
    snprintf 200 (ascii ": ".toList ++ padLeft 3 (printInt level) ++ ascii ",\n".toList) ++
    ascii "\"files\"".toList ++
    snprintf 200 (ascii ": ".toList ++ padLeft 3 (printInt (db.numLevelFiles level)) ++
      ascii ",\n".toList) ++
    snprintf 200 (ascii "\"sizeMB\": ".toList ++ printFixed 0 3 (db.numLevelBytes level) 1048576 ++
      ascii ",\n".toList) ++
    snprintf 200 (ascii "\"tsec\": ".toList ++ printFixed 0 3 (db.stats level).micros 1000000 ++
      ascii ",\n".toList) ++
    snprintf 200 (ascii "\"readMB\": ".toList ++
      printFixed 0 3 (db.stats level).bytesRead 1048576 ++ ascii ",\n".toList) ++
    snprintf 200 (ascii "\"writeMB\": ".toList ++
      printFixed 0 3 (db.stats level).bytesWritten 1048576 ++ ascii ['\n']) ++
    ascii "\x7d".toList

/-- What the branch for `leveldb.jsonstats` leaves in the value. -/
def jsonstatsText : Bytes :=
  ascii "\x7b\n".toList ++ ascii "\"levels\"".toList ++ ascii ": [\n".toList ++
    (ascii ",\n".toList).intercalate (db.listedLevels.map (db.jsonLevel printFixed)) ++
    ascii "]\n".toList ++ ascii "\x7d".toList

/-- The value of `leveldb.approximate-memory-usage`. -/
def memoryUsageText : Bytes :=
  let totalUsage : Nat := (db.totalCharge + db.mem.getD 0 + db.imm.getD 0) % 2 ^ 64
  snprintf 50 (printInt totalUsage)

def leveldbPrefix : Bytes := ascii "leveldb.".toList

def numFilesAtLevel : Bytes := ascii "num-files-at-level".toList

/-- `GetProperty`: what it returns and what it leaves in the value. The branch for
`leveldb.jsonstats` ends at the `return false` behind the branches. -/
def getProperty (property : Bytes) : Bool × Bytes :=
  if ¬ leveldbPrefix <+: property then (false, [])
  else
    let input := property.drop leveldbPrefix.length
    if numFilesAtLevel <+: input then
      match consumeDecimalNumber (input.drop numFilesAtLevel.length) with
      | some (level, []) =>
        if Config.kNumLevels ≤ level then (false, [])
        else (true, snprintf 100 (printInt (db.numLevelFiles level)))
      | _ => (false, [])
    else if input = ascii "stats".toList then (true, db.statsText printFixed)
    else if input = ascii "jsonstats".toList then (false, db.jsonstatsText printFixed)
    else if input = ascii "sstables".toList then (true, db.current.debugString)
    else if input = ascii "approximate-memory-usage".toList then (true, db.memoryUsageText)
    else (false, [])

/-! ### The names it implements -/

/-- The names that `GetProperty` implements. -/
inductive IsProperty : Bytes → Prop
  | stats : IsProperty (ascii "leveldb.stats".toList)
  | jsonstats : IsProperty (ascii "leveldb.jsonstats".toList)
  | sstables : IsProperty (ascii "leveldb.sstables".toList)
  | approximateMemoryUsage : IsProperty (ascii "leveldb.approximate-memory-usage".toList)
  | numFilesAtLevel {digits : Bytes} (nonempty : digits ≠ [])
      (areDigits : ∀ byte ∈ digits, 48 ≤ byte.toNat ∧ byte.toNat ≤ 57)
      (below : decimalValue 0 digits < Config.kNumLevels) :
      IsProperty (ascii "leveldb.num-files-at-level".toList ++ digits)

/-- The names behind the common prefix that have no number in them. -/
def plainNames : List Bytes :=
  [ascii "stats".toList, ascii "jsonstats".toList, ascii "sstables".toList,
    ascii "approximate-memory-usage".toList]

/-- The names behind the common prefix. -/
def IsName (input : Bytes) : Prop :=
  input ∈ plainNames ∨ ∃ digits, input = numFilesAtLevel ++ digits ∧ digits ≠ [] ∧
    (∀ byte ∈ digits, 48 ≤ byte.toNat ∧ byte.toNat ≤ 57) ∧
    decimalValue 0 digits < Config.kNumLevels

theorem isProperty_iff {property : Bytes} :
    IsProperty property ↔ ∃ input, property = leveldbPrefix ++ input ∧ IsName input := by
  constructor
  · rintro (_ | _ | _ | _ | ⟨nonempty, areDigits, below⟩)
    · exact ⟨ascii "stats".toList, by decide, Or.inl (by decide)⟩
    · exact ⟨ascii "jsonstats".toList, by decide, Or.inl (by decide)⟩
    · exact ⟨ascii "sstables".toList, by decide, Or.inl (by decide)⟩
    · exact ⟨ascii "approximate-memory-usage".toList, by decide, Or.inl (by decide)⟩
    · refine ⟨_, ?_, Or.inr ⟨_, rfl, nonempty, areDigits, below⟩⟩
      rw [← List.append_assoc]
      exact congrArg (· ++ _) (by decide)
  · rintro ⟨input, rfl, plain | ⟨digits, rfl, nonempty, areDigits, below⟩⟩
    · simp only [plainNames, List.mem_cons, List.not_mem_nil, or_false] at plain
      rcases plain with rfl | rfl | rfl | rfl
      · exact IsProperty.stats
      · exact IsProperty.jsonstats
      · exact IsProperty.sstables
      · exact IsProperty.approximateMemoryUsage
    · rw [← List.append_assoc]
      exact IsProperty.numFilesAtLevel nonempty areDigits below

theorem not_numFilesAtLevel_of_plain {input : Bytes} (plain : input ∈ plainNames) :
    ¬ numFilesAtLevel <+: input := by
  simp only [plainNames, List.mem_cons, List.not_mem_nil, or_false] at plain
  rcases plain with rfl | rfl | rfl | rfl <;> decide

/-- Behind `num-files-at-level` the name is a number below the number of levels. -/
theorem isName_numFilesAtLevel_iff {rest : Bytes} :
    IsName (numFilesAtLevel ++ rest) ↔
      ∃ level, consumeDecimalNumber rest = some (level, []) ∧ level < Config.kNumLevels := by
  constructor
  · rintro (plain | ⟨digits, same, nonempty, areDigits, below⟩)
    · exact absurd (List.prefix_append _ _) (not_numFilesAtLevel_of_plain plain)
    · obtain rfl := List.append_cancel_left same
      have isNumber : IsNumber rest := ⟨nonempty, areDigits, below.trans (by decide)⟩
      exact ⟨_, consumeDecimalNumber_all_iff.mpr ⟨isNumber, rfl⟩, below⟩
  · rintro ⟨level, consumed, below⟩
    obtain ⟨isNumber, rfl⟩ := consumeDecimalNumber_all_iff.mp consumed
    exact Or.inr ⟨rest, rfl, isNumber.nonempty, isNumber.areDigits, below⟩

/-- `GetProperty` returns true for the names it implements, all but one. -/
theorem getProperty_returns_iff (property : Bytes) :
    (db.getProperty printFixed property).1 = true ↔
      IsProperty property ∧ property ≠ ascii "leveldb.jsonstats".toList := by
  rw [isProperty_iff, getProperty]
  by_cases hasPrefix : leveldbPrefix <+: property
  · obtain ⟨input, rfl⟩ := hasPrefix
    have jsonstats : ascii "leveldb.jsonstats".toList =
        leveldbPrefix ++ ascii "jsonstats".toList := by decide
    simp only [List.prefix_append, not_true_eq_false, if_false, List.drop_left, jsonstats,
      ne_eq, List.append_right_inj, exists_eq_left']
    split
    · next numbered =>
      obtain ⟨rest, rfl⟩ := numbered
      have notJson : ¬ numFilesAtLevel ++ rest = ascii "jsonstats".toList := fun same =>
        not_numFilesAtLevel_of_plain (by decide) (same ▸ List.prefix_append numFilesAtLevel rest)
      rw [isName_numFilesAtLevel_iff, and_iff_left notJson, List.drop_left]
      split
      · next level consumed =>
        rw [consumed]
        split
        · next tooLarge => simpa using tooLarge
        · next below => simpa using below
      · next notNumber =>
        refine iff_of_false (by simp) ?_
        rintro ⟨level, consumed, -⟩
        exact notNumber level consumed
    · next notNumbered =>
      have plain : IsName input ↔ input ∈ plainNames := by
        refine or_iff_left ?_
        rintro ⟨digits, rfl, -⟩
        exact notNumbered (List.prefix_append _ _)
      rw [plain]
      split
      · next same =>
        subst same
        exact iff_of_true rfl ⟨by decide, by decide⟩
      · next notStats =>
        split
        · next same => exact iff_of_false (by simp) fun both => both.2 same
        · next notJson =>
          split
          · next same =>
            subst same
            exact iff_of_true rfl ⟨by decide, by decide⟩
          · next notTables =>
            split
            · next same =>
              subst same
              exact iff_of_true rfl ⟨by decide, by decide⟩
            · next notUsage =>
              refine iff_of_false (by simp) ?_
              rintro ⟨member, -⟩
              simp only [plainNames, List.mem_cons, List.not_mem_nil, or_false] at member
              rcases member with same | same | same | same <;> contradiction
  · rw [if_pos hasPrefix]
    refine iff_of_false (by simp) ?_
    rintro ⟨⟨input, rfl, -⟩, -⟩
    exact hasPrefix (List.prefix_append _ _)

/-- Every other branch that returns false leaves the value as it was cleared. -/
theorem getProperty_value_of_false {property : Bytes}
    (other : property ≠ ascii "leveldb.jsonstats".toList)
    (returns : (db.getProperty printFixed property).1 = false) :
    (db.getProperty printFixed property).2 = [] := by
  unfold getProperty at returns ⊢
  split
  · rfl
  · next hasPrefix =>
    obtain ⟨input, rfl⟩ := not_not.mp hasPrefix
    rw [if_neg hasPrefix] at returns
    dsimp only at returns ⊢
    split
    · next numbered =>
      rw [if_pos numbered] at returns
      split
      · next level consumed =>
        rw [consumed] at returns
        dsimp only at returns
        split
        · rfl
        · next below =>
          rw [if_neg below] at returns
          cases returns
      · rfl
    · next notNumbered =>
      rw [if_neg notNumbered] at returns
      split
      · next same => rw [if_pos same] at returns; cases returns
      · next notStats =>
        rw [if_neg notStats] at returns
        split
        · next same =>
          rw [List.drop_left] at same
          exact absurd (by rw [same]; decide) other
        · next notJson =>
          rw [if_neg notJson] at returns
          split
          · next same => rw [if_pos same] at returns; cases returns
          · next notTables =>
            rw [if_neg notTables] at returns
            split
            · next same => rw [if_pos same] at returns; cases returns
            · rfl

/-- `GetProperty` returns true exactly for the names it implements, and leaves the value empty
when it returns false, exactly as long as it is not asked for `leveldb.jsonstats`. -/
theorem getProperty_answers_iff (property : Bytes) :
    (((db.getProperty printFixed property).1 = true ↔ IsProperty property) ∧
      ((db.getProperty printFixed property).1 = false →
        (db.getProperty printFixed property).2 = [])) ↔
      property ≠ ascii "leveldb.jsonstats".toList := by
  rw [getProperty_returns_iff]
  constructor
  · rintro ⟨returns, -⟩ rfl
    exact (returns.mpr IsProperty.jsonstats).2 rfl
  · intro other
    exact ⟨and_iff_left other, getProperty_value_of_false printFixed db other⟩

/-- Asked for `leveldb.jsonstats`, a database without files returns false and leaves a text. -/
theorem getProperty_jsonstats_fails :
    let db : PropertySource Nat := ⟨Version.empty, fun _ => ⟨0, 0, 0⟩, 0, some 0, none⟩
    let answer := db.getProperty (fun _ _ _ _ => []) (ascii "leveldb.jsonstats".toList)
    ¬ ((answer.1 = true ↔ IsProperty (ascii "leveldb.jsonstats".toList)) ∧
      (answer.1 = false → answer.2 = [])) := by
  intro db answer
  have returns : answer.1 = false := by decide +kernel
  rw [returns]
  rintro ⟨answers, -⟩
  cases answers.mpr IsProperty.jsonstats

end PropertySource

end LevelDb
