/-
This file models how a version edit is stored (`VersionEdit::EncodeTo` and `DecodeFrom` in
`db/version_edit`). An encoded edit is a list of fields, each a tag with varints and
length-prefixed slices behind it; a decoder reads one tag after the other. At this level an
internal key is the string it is stored as, as in the class `InternalKey`.

User keys are byte strings here, and an edit over user keys is stored by storing its keys.
-/

import LevelDb.VersionEdit
import Mathlib.Data.Finset.Sort

namespace LevelDb

variable {β : Type}

/-! ### Fields -/

inductive Tag
  | kComparator
  | kLogNumber
  | kNextFileNumber
  | kLastSequence
  | kCompactPointer
  | kDeletedFile
  | kNewFile
  | kPrevLogNumber
  deriving DecidableEq, Repr

/-- The number a tag is written to disk as. -/
def Tag.code : Tag → Nat
  | .kComparator => 1
  | .kLogNumber => 2
  | .kNextFileNumber => 3
  | .kLastSequence => 4
  | .kCompactPointer => 5
  | .kDeletedFile => 6
  | .kNewFile => 7
  | .kPrevLogNumber => 9

/-- The tag with a number; 8 was used for large values. -/
def Tag.ofCode : Nat → Option Tag
  | 1 => some .kComparator
  | 2 => some .kLogNumber
  | 3 => some .kNextFileNumber
  | 4 => some .kLastSequence
  | 5 => some .kCompactPointer
  | 6 => some .kDeletedFile
  | 7 => some .kNewFile
  | 9 => some .kPrevLogNumber
  | _ => none

/-- What an edit says of a table file. -/
structure FileRecord where
  number : Nat
  fileSize : Nat
  smallest : Bytes
  largest : Bytes
  deriving DecidableEq, Repr

/-- A field of an encoded edit. -/
inductive EditField
  | comparator (name : Bytes)
  | logNumber (number : Nat)
  | prevLogNumber (number : Nat)
  | nextFileNumber (number : Nat)
  | lastSequence (sequence : Nat)
  | compactPointer (level : Nat) (key : Bytes)
  | deletedFile (level number : Nat)
  | newFile (level : Nat) (file : FileRecord)
  deriving DecidableEq, Repr

namespace EditField

def tag : EditField → Tag
  | .comparator _ => .kComparator
  | .logNumber _ => .kLogNumber
  | .prevLogNumber _ => .kPrevLogNumber
  | .nextFileNumber _ => .kNextFileNumber
  | .lastSequence _ => .kLastSequence
  | .compactPointer _ _ => .kCompactPointer
  | .deletedFile _ _ => .kDeletedFile
  | .newFile _ _ => .kNewFile

/-- What stands behind the tag. -/
def body : EditField → Bytes
  | .comparator name => putLengthPrefixedSlice name
  | .logNumber number | .prevLogNumber number | .nextFileNumber number => encodeVarint64 number
  | .lastSequence sequence => encodeVarint64 sequence
  | .compactPointer level key => encodeVarint32 level ++ putLengthPrefixedSlice key
  | .deletedFile level number => encodeVarint32 level ++ encodeVarint64 number
  | .newFile level file =>
    encodeVarint32 level ++ (encodeVarint64 file.number ++ (encodeVarint64 file.fileSize ++
      (putLengthPrefixedSlice file.smallest ++ putLengthPrefixedSlice file.largest)))

def encode (field : EditField) : Bytes := encodeVarint32 field.tag.code ++ field.body

/-- The values of the field fit their types: the numbers have 64 bits, the lengths 32 bits, and
the level exists. -/
def Fits : EditField → Prop
  | .comparator name => name.length < 2 ^ 32
  | .logNumber number | .prevLogNumber number | .nextFileNumber number => number < 2 ^ 64
  | .lastSequence sequence => sequence < 2 ^ 64
  | .compactPointer level key => level < Config.kNumLevels ∧ key.length < 2 ^ 32
  | .deletedFile level number => level < Config.kNumLevels ∧ number < 2 ^ 64
  | .newFile level file =>
    level < Config.kNumLevels ∧ file.number < 2 ^ 64 ∧ file.fileSize < 2 ^ 64 ∧
      file.smallest.length < 2 ^ 32 ∧ file.largest.length < 2 ^ 32

end EditField

/-- `GetLevel`. -/
def getLevel (input : Bytes) : Option (Nat × Bytes) :=
  (getVarint32 input).filter fun result => result.1 < Config.kNumLevels

/-- `GetInternalKey`. -/
def getInternalKey (input : Bytes) : Option (Bytes × Bytes) := getLengthPrefixedSlice input

/-- The field a tag announces, and the bytes after it. -/
def getBody (tag : Tag) (input : Bytes) : Option (EditField × Bytes) :=
  match tag with
  | .kComparator => (getLengthPrefixedSlice input).map fun (name, rest) => (.comparator name, rest)
  | .kLogNumber => (getVarint64 input).map fun (number, rest) => (.logNumber number, rest)
  | .kPrevLogNumber => (getVarint64 input).map fun (number, rest) => (.prevLogNumber number, rest)
  | .kNextFileNumber => (getVarint64 input).map fun (number, rest) => (.nextFileNumber number, rest)
  | .kLastSequence => (getVarint64 input).map fun (sequence, rest) => (.lastSequence sequence, rest)
  | .kCompactPointer => do
    let (level, rest) ← getLevel input
    let (key, rest) ← getInternalKey rest
    return (.compactPointer level key, rest)
  | .kDeletedFile => do
    let (level, rest) ← getLevel input
    let (number, rest) ← getVarint64 rest
    return (.deletedFile level number, rest)
  | .kNewFile => do
    let (level, rest) ← getLevel input
    let (number, rest) ← getVarint64 rest
    let (fileSize, rest) ← getVarint64 rest
    let (smallest, rest) ← getInternalKey rest
    let (largest, rest) ← getInternalKey rest
    return (.newFile level { number, fileSize, smallest, largest }, rest)

/-- The message of the corruption when the field of a tag cannot be read. -/
def Tag.message : Tag → String
  | .kComparator => "comparator name"
  | .kLogNumber => "log number"
  | .kPrevLogNumber => "previous log number"
  | .kNextFileNumber => "next file number"
  | .kLastSequence => "last sequence number"
  | .kCompactPointer => "compaction pointer"
  | .kDeletedFile => "deleted file"
  | .kNewFile => "new-file entry"

/-! ### Edits -/

/-- `VersionEdit` with its internal keys as they are stored. -/
structure EditRecord where
  comparator : Option Bytes := none
  logNumber : Option Nat := none
  prevLogNumber : Option Nat := none
  nextFileNumber : Option Nat := none
  lastSequence : Option Nat := none
  compactPointers : List (Nat × Bytes) := []
  deletedFiles : Finset (Nat × Nat) := ∅
  newFiles : List (Nat × FileRecord) := []
  deriving DecidableEq

namespace EditRecord

/-- `Clear`. It leaves the compaction pointers. -/
def clear (edit : EditRecord) : EditRecord := { compactPointers := edit.compactPointers }

/-- What a field read by `DecodeFrom` does to the edit. -/
def set (edit : EditRecord) : EditField → EditRecord
  | .comparator name => { edit with comparator := some name }
  | .logNumber number => { edit with logNumber := some number }
  | .prevLogNumber number => { edit with prevLogNumber := some number }
  | .nextFileNumber number => { edit with nextFileNumber := some number }
  | .lastSequence sequence => { edit with lastSequence := some sequence }
  | .compactPointer level key =>
    { edit with compactPointers := edit.compactPointers ++ [(level, key)] }
  | .deletedFile level number =>
    { edit with deletedFiles := insert (level, number) edit.deletedFiles }
  | .newFile level file => { edit with newFiles := edit.newFiles ++ [(level, file)] }

/-- The deleted files in the order of their set: by level, then by number. -/
def deletedInOrder (edit : EditRecord) : List (Nat × Nat) :=
  (edit.deletedFiles.map toLex.toEmbedding).sort.map ofLex

/-- The fields of the edit in the order `EncodeTo` writes them. -/
def fields (edit : EditRecord) : List EditField :=
  edit.comparator.toList.map .comparator ++ (edit.logNumber.toList.map .logNumber ++
    (edit.prevLogNumber.toList.map .prevLogNumber ++
      (edit.nextFileNumber.toList.map .nextFileNumber ++
        (edit.lastSequence.toList.map .lastSequence ++
          (edit.compactPointers.map (fun pair => .compactPointer pair.1 pair.2) ++
            (edit.deletedInOrder.map (fun pair => .deletedFile pair.1 pair.2) ++
              edit.newFiles.map fun pair => .newFile pair.1 pair.2))))))

/-- `EncodeTo`. -/
def encodeTo (edit : EditRecord) : Bytes := edit.fields.flatMap EditField.encode

/-- The loop of `DecodeFrom`: the message of the corruption if there is one, and the edit. Every
turn but the last consumes a byte. -/
def decodeLoop : Nat → EditRecord → Bytes → Option String × EditRecord
  | 0, edit, _ => (none, edit)
  | turns + 1, edit, input =>
    match getVarint32 input with
    | none => (if input.isEmpty then none else some "invalid tag", edit)
    | some (code, rest) =>
      match Tag.ofCode code with
      | none => (some "unknown tag", edit)
      | some tag =>
        match getBody tag rest with
        | none => (some tag.message, edit)
        | some (field, rest) => decodeLoop turns (edit.set field) rest

/-- `DecodeFrom`. -/
def decodeFrom (edit : EditRecord) (src : Bytes) : Option String × EditRecord :=
  decodeLoop (src.length + 1) edit.clear src

/-- Every field of the edit fits its type. -/
def Fits (edit : EditRecord) : Prop := ∀ field ∈ edit.fields, field.Fits

end EditRecord

/-! ### Decoding undoes encoding -/

theorem Tag.ofCode_code (tag : Tag) : Tag.ofCode tag.code = some tag := by
  cases tag <;> rfl

theorem Tag.code_lt (tag : Tag) : tag.code < 2 ^ 32 := by
  cases tag <;> decide

theorem getLevel_encodeVarint32 {level : Nat} (fits : level < Config.kNumLevels) (rest : Bytes) :
    getLevel (encodeVarint32 level ++ rest) = some (level, rest) := by
  have small : level < 2 ^ 32 := fits.trans (by decide)
  rw [getLevel, getVarint32_encodeVarint32 small]
  exact Option.filter_some_pos (by simpa using fits)

theorem getBody_body {field : EditField} (fits : field.Fits) (rest : Bytes) :
    getBody field.tag (field.body ++ rest) = some (field, rest) := by
  cases field with
  | comparator name =>
    simp only [EditField.tag, EditField.body, getBody,
      getLengthPrefixedSlice_putLengthPrefixedSlice fits, Option.map_some]
  | logNumber number | prevLogNumber number | nextFileNumber number | lastSequence sequence =>
    simp only [EditField.tag, EditField.body, getBody, getVarint64_encodeVarint64 fits,
      Option.map_some]
  | compactPointer level key =>
    simp only [EditField.tag, EditField.body, getBody, getInternalKey, List.append_assoc,
      getLevel_encodeVarint32 fits.1, Option.bind_eq_bind, Option.bind_some,
      getLengthPrefixedSlice_putLengthPrefixedSlice fits.2]
    rfl
  | deletedFile level number =>
    simp only [EditField.tag, EditField.body, getBody, List.append_assoc,
      getLevel_encodeVarint32 fits.1, Option.bind_eq_bind, Option.bind_some,
      getVarint64_encodeVarint64 fits.2]
    rfl
  | newFile level file =>
    obtain ⟨levelFits, numberFits, sizeFits, smallestFits, largestFits⟩ := fits
    simp only [EditField.tag, EditField.body, getBody, getInternalKey, List.append_assoc,
      getLevel_encodeVarint32 levelFits, Option.bind_eq_bind, Option.bind_some,
      getVarint64_encodeVarint64 numberFits, getVarint64_encodeVarint64 sizeFits,
      getLengthPrefixedSlice_putLengthPrefixedSlice smallestFits,
      getLengthPrefixedSlice_putLengthPrefixedSlice largestFits]
    rfl

theorem EditField.encode_ne_nil (field : EditField) : field.encode ≠ [] := by
  have reads := getVarint32_encodeVarint32 field.tag.code_lt field.body
  intro isNil
  rw [← EditField.encode, isNil] at reads
  cases reads

namespace EditRecord

theorem decodeLoop_encode {fields : List EditField} (fits : ∀ field ∈ fields, field.Fits)
    {turns : Nat} (enough : fields.length < turns) (edit : EditRecord) :
    decodeLoop turns edit (fields.flatMap EditField.encode) = (none, fields.foldl set edit) := by
  induction fields generalizing turns edit with
  | nil =>
    obtain ⟨turns, rfl⟩ := Nat.exists_eq_add_of_lt enough
    rfl
  | cons field rest inductionHypothesis =>
    obtain ⟨turns, rfl⟩ : ∃ more, turns = more + 1 := ⟨turns - 1, by omega⟩
    have restFits : ∀ field ∈ rest, field.Fits :=
      fun other member => fits other (List.mem_cons_of_mem _ member)
    rw [List.flatMap_cons, decodeLoop, EditField.encode, List.append_assoc,
      getVarint32_encodeVarint32 field.tag.code_lt]
    simp only [Tag.ofCode_code, getBody_body (fits field List.mem_cons_self)]
    exact inductionHypothesis restFits (Nat.lt_of_succ_lt_succ enough) _

theorem length_le_encode (fields : List EditField) :
    fields.length ≤ (fields.flatMap EditField.encode).length := by
  induction fields with
  | nil => exact le_rfl
  | cons field rest inductionHypothesis =>
    have positive := List.length_pos_of_ne_nil field.encode_ne_nil
    rw [List.flatMap_cons, List.length_append, List.length_cons]
    omega

theorem foldl_set_compactPointers (pointers : List (Nat × Bytes)) (edit : EditRecord) :
    (pointers.map fun pair => EditField.compactPointer pair.1 pair.2).foldl set edit =
      { edit with compactPointers := edit.compactPointers ++ pointers } := by
  induction pointers generalizing edit with
  | nil => rw [List.map_nil, List.foldl_nil, List.append_nil]
  | cons pointer rest inductionHypothesis =>
    rw [List.map_cons, List.foldl_cons, inductionHypothesis, set, List.append_assoc,
      List.singleton_append]

theorem foldl_set_newFiles (files : List (Nat × FileRecord)) (edit : EditRecord) :
    (files.map fun pair => EditField.newFile pair.1 pair.2).foldl set edit =
      { edit with newFiles := edit.newFiles ++ files } := by
  induction files generalizing edit with
  | nil => rw [List.map_nil, List.foldl_nil, List.append_nil]
  | cons file rest inductionHypothesis =>
    rw [List.map_cons, List.foldl_cons, inductionHypothesis, set, List.append_assoc,
      List.singleton_append]

theorem foldl_set_deletedFiles (files : List (Nat × Nat)) (edit : EditRecord) :
    (files.map fun pair => EditField.deletedFile pair.1 pair.2).foldl set edit =
      { edit with deletedFiles := edit.deletedFiles ∪ files.toFinset } := by
  induction files generalizing edit with
  | nil => rw [List.map_nil, List.foldl_nil, List.toFinset_nil, Finset.union_empty]
  | cons file rest inductionHypothesis =>
    rw [List.map_cons, List.foldl_cons, inductionHypothesis, set, List.toFinset_cons,
      Finset.insert_union, Finset.union_insert]

theorem toFinset_deletedInOrder (edit : EditRecord) :
    edit.deletedInOrder.toFinset = edit.deletedFiles := by
  ext pair
  simp [deletedInOrder]

/-- Setting the fields of an edit one after the other builds it. -/
theorem foldl_set_fields (edit : EditRecord) : edit.fields.foldl set {} = edit := by
  obtain ⟨comparator, logNumber, prevLogNumber, nextFileNumber, lastSequence, compactPointers,
    deletedFiles, newFiles⟩ := edit
  have deleted := toFinset_deletedInOrder
    ⟨comparator, logNumber, prevLogNumber, nextFileNumber, lastSequence, compactPointers,
      deletedFiles, newFiles⟩
  simp only [fields, List.foldl_append, foldl_set_compactPointers, foldl_set_newFiles,
    foldl_set_deletedFiles, deleted]
  cases comparator <;> cases logNumber <;> cases prevLogNumber <;> cases nextFileNumber <;>
    cases lastSequence <;> simp [set]

/-- Decoding the encoding of an edit gives the edit back. -/
theorem decodeFrom_encodeTo {edit : EditRecord} (fits : edit.Fits) :
    ({} : EditRecord).decodeFrom edit.encodeTo = (none, edit) := by
  have enough : edit.fields.length < (edit.fields.flatMap EditField.encode).length + 1 :=
    Nat.lt_succ_of_le (length_le_encode edit.fields)
  rw [decodeFrom, encodeTo, decodeLoop_encode fits enough]
  exact congrArg (Prod.mk none) (foldl_set_fields edit)

end EditRecord

/-! ### Edits over user keys -/

/-- A user key as the byte string it is. The order on user keys is the comparator's. -/
structure UserKey where
  bytes : Bytes
  deriving DecidableEq, Repr

/-- `InternalKey::Encode`: the user key and its tag. -/
def InternalKey.encode (key : InternalKey UserKey) : Bytes :=
  key.userKey.bytes ++ encodeFixed64 key.tag

/-- `InternalKey::DecodeFrom`. The tag is in the last eight bytes, of which there have to be
eight. -/
def InternalKey.decodeFrom (rep : Bytes) : InternalKey UserKey :=
  ⟨⟨rep.take (rep.length - 8)⟩, decodeFixed64 (rep.drop (rep.length - 8))⟩

theorem InternalKey.decodeFrom_encode {key : InternalKey UserKey} (fits : key.tag < 2 ^ 64) :
    InternalKey.decodeFrom key.encode = key := by
  have length : key.encode.length - 8 = key.userKey.bytes.length := by
    rw [InternalKey.encode, List.length_append, length_encodeFixed64, Nat.add_sub_cancel]
  have tag := decodeFixed64_encodeFixed64 fits []
  rw [List.append_nil] at tag
  rw [InternalKey.decodeFrom, length, InternalKey.encode, List.take_left, List.drop_left, tag]

/-- What an edit stores of a file. -/
def FileMetaData.record (file : FileMetaData UserKey β) : FileRecord :=
  { number := file.number
    fileSize := file.fileSize
    smallest := file.smallest.encode
    largest := file.largest.encode }

/-- The file an edit names, with what the table file of that number holds. -/
def FileRecord.toFile (tables : Nat → List (Entry UserKey β)) (record : FileRecord) :
    FileMetaData UserKey β :=
  { number := record.number
    fileSize := record.fileSize
    allowedSeeks := 2 ^ 30
    smallest := InternalKey.decodeFrom record.smallest
    largest := InternalKey.decodeFrom record.largest
    entries := tables record.number }

/-- The edit as it is stored. -/
def VersionEdit.record (edit : VersionEdit UserKey β) : EditRecord :=
  { comparator := edit.comparator
    logNumber := edit.logNumber
    prevLogNumber := edit.prevLogNumber
    nextFileNumber := edit.nextFileNumber
    lastSequence := edit.lastSequence
    compactPointers := edit.compactPointers.map fun pair => (pair.1, pair.2.encode)
    deletedFiles := edit.deletedFiles
    newFiles := edit.newFiles.map fun pair => (pair.1, pair.2.record) }

/-- The edit that is stored. -/
def EditRecord.toEdit (tables : Nat → List (Entry UserKey β)) (record : EditRecord) :
    VersionEdit UserKey β :=
  { comparator := record.comparator
    logNumber := record.logNumber
    prevLogNumber := record.prevLogNumber
    nextFileNumber := record.nextFileNumber
    lastSequence := record.lastSequence
    compactPointers := record.compactPointers.map fun pair =>
      (pair.1, InternalKey.decodeFrom pair.2)
    deletedFiles := record.deletedFiles
    newFiles := record.newFiles.map fun pair => (pair.1, pair.2.toFile tables) }

end LevelDb
