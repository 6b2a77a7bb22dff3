/-
This file describes what decoding can make of a stored edit. The values that `DecodeFrom` reads fit
their types, so an edit that was decoded can be stored and decoded again. `Clear` does not forget
the compaction pointers, and the lengths of the keys are not checked: a key shorter than the eight
bytes of its tag comes out of a manifest as it stands there.
-/

import LevelDb.VersionEditCodec

namespace LevelDb

/-! ### Decoded fields -/

theorem getLevel_lt {input rest : Bytes} {level : Nat}
    (reads : getLevel input = some (level, rest)) : level < Config.kNumLevels := by
  have small := (Option.filter_eq_some_iff.mp reads).2
  exact of_decide_eq_true small

theorem getBody_fits {tag : Tag} {input rest : Bytes} {field : EditField}
    (reads : getBody tag input = some (field, rest)) : field.Fits := by
  cases tag with
  | kComparator =>
    obtain ⟨⟨name, tail⟩, isName, ⟨⟩⟩ := Option.map_eq_some_iff.mp reads
    exact getLengthPrefixedSlice_lt isName
  | kLogNumber | kPrevLogNumber | kNextFileNumber | kLastSequence =>
    obtain ⟨⟨number, tail⟩, isNumber, ⟨⟩⟩ := Option.map_eq_some_iff.mp reads
    exact getVarint64_lt isNumber
  | kCompactPointer =>
    obtain ⟨⟨level, tail⟩, isLevel, reads⟩ := Option.bind_eq_some_iff.mp reads
    obtain ⟨⟨key, tail⟩, isKey, ⟨⟩⟩ := Option.bind_eq_some_iff.mp reads
    exact ⟨getLevel_lt isLevel, getLengthPrefixedSlice_lt isKey⟩
  | kDeletedFile =>
    obtain ⟨⟨level, tail⟩, isLevel, reads⟩ := Option.bind_eq_some_iff.mp reads
    obtain ⟨⟨number, tail⟩, isNumber, ⟨⟩⟩ := Option.bind_eq_some_iff.mp reads
    exact ⟨getLevel_lt isLevel, getVarint64_lt isNumber⟩
  | kNewFile =>
    obtain ⟨⟨level, tail⟩, isLevel, reads⟩ := Option.bind_eq_some_iff.mp reads
    obtain ⟨⟨number, tail⟩, isNumber, reads⟩ := Option.bind_eq_some_iff.mp reads
    obtain ⟨⟨size, tail⟩, isSize, reads⟩ := Option.bind_eq_some_iff.mp reads
    obtain ⟨⟨smallest, tail⟩, isSmallest, reads⟩ := Option.bind_eq_some_iff.mp reads
    obtain ⟨⟨largest, tail⟩, isLargest, ⟨⟩⟩ := Option.bind_eq_some_iff.mp reads
    exact ⟨getLevel_lt isLevel, getVarint64_lt isNumber, getVarint64_lt isSize,
      getLengthPrefixedSlice_lt isSmallest, getLengthPrefixedSlice_lt isLargest⟩

/-- A string is a sequence of fields, one behind the other. -/
inductive Stores : Bytes → List EditField → Prop
  | nil : Stores [] []
  | cons {input body rest : Bytes} {code : Nat} {tag : Tag} {field : EditField}
      {fields : List EditField} : getVarint32 input = some (code, body) → Tag.ofCode code = some tag →
      getBody tag body = some (field, rest) → Stores rest fields → Stores input (field :: fields)

theorem length_getBody {tag : Tag} {input rest : Bytes} {field : EditField}
    (reads : getBody tag input = some (field, rest)) : rest.length ≤ input.length := by
  have level : ∀ {input rest : Bytes} {level : Nat}, getLevel input = some (level, rest) →
      rest.length < input.length := fun reads =>
    length_getVarint32 (Option.filter_eq_some_iff.mp reads).1
  cases tag with
  | kComparator =>
    obtain ⟨⟨name, tail⟩, isName, ⟨⟩⟩ := Option.map_eq_some_iff.mp reads
    exact (length_getLengthPrefixedSlice isName).le
  | kLogNumber | kPrevLogNumber | kNextFileNumber | kLastSequence =>
    obtain ⟨⟨number, tail⟩, isNumber, ⟨⟩⟩ := Option.map_eq_some_iff.mp reads
    exact (length_getVarint64 isNumber).le
  | kCompactPointer =>
    obtain ⟨⟨_, tail⟩, isLevel, reads⟩ := Option.bind_eq_some_iff.mp reads
    obtain ⟨⟨key, tail⟩, isKey, ⟨⟩⟩ := Option.bind_eq_some_iff.mp reads
    exact ((length_getLengthPrefixedSlice isKey).trans (level isLevel)).le
  | kDeletedFile =>
    obtain ⟨⟨_, tail⟩, isLevel, reads⟩ := Option.bind_eq_some_iff.mp reads
    obtain ⟨⟨number, tail⟩, isNumber, ⟨⟩⟩ := Option.bind_eq_some_iff.mp reads
    exact ((length_getVarint64 isNumber).trans (level isLevel)).le
  | kNewFile =>
    obtain ⟨⟨_, tail⟩, isLevel, reads⟩ := Option.bind_eq_some_iff.mp reads
    obtain ⟨⟨number, tail⟩, isNumber, reads⟩ := Option.bind_eq_some_iff.mp reads
    obtain ⟨⟨size, tail⟩, isSize, reads⟩ := Option.bind_eq_some_iff.mp reads
    obtain ⟨⟨smallest, tail⟩, isSmallest, reads⟩ := Option.bind_eq_some_iff.mp reads
    obtain ⟨⟨largest, tail⟩, isLargest, ⟨⟩⟩ := Option.bind_eq_some_iff.mp reads
    exact (((((length_getLengthPrefixedSlice isLargest).trans
      (length_getLengthPrefixedSlice isSmallest)).trans (length_getVarint64 isSize)).trans
      (length_getVarint64 isNumber)).trans (level isLevel)).le

namespace EditRecord

theorem mem_deletedInOrder {edit : EditRecord} {pair : Nat × Nat} :
    pair ∈ edit.deletedInOrder ↔ pair ∈ edit.deletedFiles := by
  rw [← List.mem_toFinset, toFinset_deletedInOrder]

/-- The edit has a field. -/
def Holds (edit : EditRecord) : EditField → Prop
  | .comparator name => edit.comparator = some name
  | .logNumber number => edit.logNumber = some number
  | .prevLogNumber number => edit.prevLogNumber = some number
  | .nextFileNumber number => edit.nextFileNumber = some number
  | .lastSequence sequence => edit.lastSequence = some sequence
  | .compactPointer level key => (level, key) ∈ edit.compactPointers
  | .deletedFile level number => (level, number) ∈ edit.deletedFiles
  | .newFile level file => (level, file) ∈ edit.newFiles

theorem mem_fields_iff {edit : EditRecord} {field : EditField} :
    field ∈ edit.fields ↔ edit.Holds field := by
  cases field with
  | comparator | logNumber | prevLogNumber | nextFileNumber | lastSequence =>
    simp [fields, Holds, eq_comm]
  | compactPointer | newFile => simp [fields, Holds]
  | deletedFile => simp [fields, Holds, mem_deletedInOrder]

/-- Setting a field adds no other field to an edit. -/
theorem holds_set {edit : EditRecord} {field other : EditField}
    (holds : (edit.set field).Holds other) : edit.Holds other ∨ other = field := by
  cases field with
  | comparator | logNumber | prevLogNumber | nextFileNumber | lastSequence =>
    cases other <;> simp_all [Holds, set]
  | compactPointer | newFile =>
    cases other <;> simp_all [Holds, set]
  | deletedFile =>
    cases other <;> simp_all [Holds, set, or_comm]

theorem Fits.set {edit : EditRecord} {field : EditField} (fits : edit.Fits) (fieldFits : field.Fits) :
    (edit.set field).Fits := by
  intro other member
  obtain holds | rfl := holds_set (mem_fields_iff.mp member)
  · exact fits other (mem_fields_iff.mpr holds)
  · exact fieldFits

/-- The values of a decoded edit fit their types. -/
theorem Fits.decodeLoop {turns : Nat} {edit : EditRecord} {input : Bytes} (fits : edit.Fits) :
    (decodeLoop turns edit input).2.Fits := by
  induction turns generalizing edit input with
  | zero => exact fits
  | succ turns inductionHypothesis =>
    rw [EditRecord.decodeLoop]
    split
    · exact fits
    · split
      · exact fits
      · split
        · exact fits
        next field rest reads => exact inductionHypothesis (fits.set (getBody_fits reads))

theorem fits_decodeFrom (src : Bytes) : (({} : EditRecord).decodeFrom src).2.Fits :=
  Fits.decodeLoop fun field member => by
    have holds := mem_fields_iff.mp member
    cases field <;> simp [Holds, clear] at holds

/-- The loop sets the fields of a string that is a sequence of fields, and reports every other
string. -/
theorem decodeLoop_eq_none_iff {turns : Nat} {edit result : EditRecord} {input : Bytes}
    (enough : input.length < turns) :
    decodeLoop turns edit input = (none, result) ↔
      ∃ fields, Stores input fields ∧ result = fields.foldl set edit := by
  induction turns generalizing edit input with
  | zero => exact absurd enough (Nat.not_lt_zero _)
  | succ turns inductionHypothesis =>
    rw [decodeLoop]
    constructor
    · intro decodes
      split at decodes
      · cases input with
        | nil =>
          cases decodes
          exact ⟨[], .nil, rfl⟩
        | cons => cases decodes
      next code body isCode =>
        split at decodes
        · cases decodes
        next tag isTag =>
          split at decodes
          · cases decodes
          next field rest reads =>
            have shorter := (length_getBody reads).trans_lt (length_getVarint32 isCode)
            obtain ⟨fields, stores, rfl⟩ := (inductionHypothesis
              (shorter.trans_le (Nat.le_of_lt_succ enough))).mp decodes
            exact ⟨field :: fields, .cons isCode isTag reads stores, rfl⟩
    · rintro ⟨fields, stores, rfl⟩
      cases stores with
      | nil => rfl
      | cons isCode isTag reads stores =>
        have shorter := (length_getBody reads).trans_lt (length_getVarint32 isCode)
        rw [isCode]
        dsimp only
        rw [isTag]
        dsimp only
        rw [reads]
        exact (inductionHypothesis (shorter.trans_le (Nat.le_of_lt_succ enough))).mpr
          ⟨_, stores, rfl⟩

theorem decodeFrom_eq_none_iff {src : Bytes} {edit : EditRecord} :
    ({} : EditRecord).decodeFrom src = (none, edit) ↔
      ∃ fields, Stores src fields ∧ edit = fields.foldl set {} :=
  decodeLoop_eq_none_iff (Nat.lt_succ_self _)

/-- Encoding and decoding give back an edit whose values fit their types, and every edit that was
decoded. -/
theorem codec_round_trips :
    (∀ edit : EditRecord, edit.Fits → ({} : EditRecord).decodeFrom edit.encodeTo = (none, edit)) ∧
    ∀ (src : Bytes) (edit : EditRecord), ({} : EditRecord).decodeFrom src = (none, edit) →
      ({} : EditRecord).decodeFrom edit.encodeTo = (none, edit) := by
  refine ⟨fun edit fits => decodeFrom_encodeTo fits, fun src edit decodes => ?_⟩
  have fits := fits_decodeFrom src
  rw [decodes] at fits
  exact decodeFrom_encodeTo fits

def smallEdit : EditRecord :=
  { logNumber := some 5
    compactPointers := [(1, [97, 1, 0, 0, 0, 0, 0, 0, 0])]
    deletedFiles := {(2, 300), (1, 4)}
    newFiles := [(1, ⟨7, 4096, [97, 1, 0, 0, 0, 0, 0, 0, 0], [98, 1, 0, 0, 0, 0, 0, 0, 0]⟩)] }

theorem codec_round_trips_small :
    ({} : EditRecord).decodeFrom smallEdit.encodeTo = (none, smallEdit) ∧
    ({} : EditRecord).decodeFrom ({ logNumber := some 5 } : EditRecord).encodeTo =
      (none, { logNumber := some 5 }) := by
  refine ⟨codec_round_trips.1 _ fun field member => ?_, codec_round_trips.2 [2, 5] _ rfl⟩
  have holds := mem_fields_iff.mp member
  cases field with
  | comparator | prevLogNumber | nextFileNumber | lastSequence => cases holds
  | logNumber number =>
    obtain rfl := Option.some.inj holds
    show 5 < 2 ^ 64
    decide
  | compactPointer level key =>
    obtain ⟨rfl, rfl⟩ := Prod.mk.inj (List.mem_singleton.mp holds)
    exact ⟨by decide, by decide⟩
  | deletedFile level number =>
    have isDeleted : (level, number) = (2, 300) ∨ (level, number) = (1, 4) := by
      simpa [Holds, smallEdit] using holds
    obtain same | same := isDeleted
    · obtain ⟨rfl, rfl⟩ := Prod.mk.inj same
      exact ⟨by decide, by decide⟩
    · obtain ⟨rfl, rfl⟩ := Prod.mk.inj same
      exact ⟨by decide, by decide⟩
  | newFile level file =>
    obtain ⟨rfl, rfl⟩ := Prod.mk.inj (List.mem_singleton.mp holds)
    exact ⟨by decide, by decide, by decide, by decide, by decide⟩

/-- The length of a comparator name of 4 GB is stored as 0. -/
theorem decodeFrom_encodeTo_long_name {rest : Bytes} (long : (rest.length + 1) % 2 ^ 32 = 0) :
    (({} : EditRecord).decodeFrom ({ comparator := some (0 :: rest) } : EditRecord).encodeTo).1 =
      some "unknown tag" := by
  have encoded : ({ comparator := some (0 :: rest) } : EditRecord).encodeTo =
      1 :: 0 :: 0 :: rest := by
    have noFiles : ({ comparator := some (0 :: rest) } : EditRecord).deletedInOrder = [] := by
      simp [deletedInOrder]
    have noLength : putLengthPrefixedSlice (0 :: rest) = 0 :: 0 :: rest := by
      rw [putLengthPrefixedSlice, List.length_cons, long]
      rfl
    simp only [encodeTo, fields, noFiles]
    simp [EditField.encode, EditField.body, EditField.tag, Tag.code, noLength, encodeVarint32]
  rw [encoded]
  rfl

theorem codec_loses_long_name :
    ¬ ∀ edit : EditRecord, (∀ field ∈ edit.fields, (∀ name, field ≠ .comparator name) → field.Fits) →
      ({} : EditRecord).decodeFrom edit.encodeTo = (none, edit) := by
  intro always
  obtain ⟨rest, isLength⟩ : ∃ rest : Bytes, rest.length = 2 ^ 32 - 1 :=
    ⟨List.replicate _ 0, List.length_replicate⟩
  have reported := @decodeFrom_encodeTo_long_name rest (by rw [isLength]; norm_num)
  rw [always _ fun field member notName => ?_] at reported
  · cases reported
  · have holds := mem_fields_iff.mp member
    cases field <;> simp [Holds] at holds notName

/-! ### What decoding does not forget -/

/-- An edit with compaction pointers before its own. -/
def pointed (pointers : List (Nat × Bytes)) (edit : EditRecord) : EditRecord :=
  { edit with compactPointers := pointers ++ edit.compactPointers }

theorem pointed_set (pointers : List (Nat × Bytes)) (edit : EditRecord) (field : EditField) :
    (pointed pointers edit).set field = pointed pointers (edit.set field) := by
  cases field with
  | compactPointer level key => simp [pointed, set]
  | _ => rfl

theorem decodeLoop_pointed (pointers : List (Nat × Bytes)) (turns : Nat) (edit : EditRecord)
    (input : Bytes) :
    decodeLoop turns (pointed pointers edit) input =
      ((decodeLoop turns edit input).1, pointed pointers (decodeLoop turns edit input).2) := by
  induction turns generalizing edit input with
  | zero => rfl
  | succ turns inductionHypothesis =>
    rw [decodeLoop, decodeLoop]
    split
    · rfl
    · split
      · rfl
      · split
        · rfl
        next field rest _ => rw [pointed_set, inductionHypothesis]

/-- Decoding into an edit is decoding into a fresh one, behind the compaction pointers that the edit
had. -/
theorem decodeFrom_eq (edit : EditRecord) (src : Bytes) :
    edit.decodeFrom src = ((({} : EditRecord).decodeFrom src).1,
      pointed edit.compactPointers (({} : EditRecord).decodeFrom src).2) := by
  have cleared : edit.clear = pointed edit.compactPointers ({} : EditRecord).clear := by
    simp [clear, pointed]
  rw [decodeFrom, decodeFrom, cleared, decodeLoop_pointed]

theorem pointed_eq_iff {pointers : List (Nat × Bytes)} {edit : EditRecord} :
    pointed pointers edit = edit ↔ pointers = [] := by
  constructor
  · intro same
    have lists : pointers ++ edit.compactPointers = edit.compactPointers :=
      congrArg compactPointers same
    exact List.append_left_eq_self.mp lists
  · rintro rfl
    rfl

/-- A decoder that forgets the past gives what it gives a fresh edit. -/
def Forgets (edit : EditRecord) (src : Bytes) : Prop :=
  (edit.decodeFrom src).1 = (({} : EditRecord).decodeFrom src).1 ∧
    ((edit.decodeFrom src).1 = none →
      (edit.decodeFrom src).2 = (({} : EditRecord).decodeFrom src).2)

/-- Decoding forgets the past exactly when there was no compaction pointer, or the string is not a
sequence of fields. -/
theorem decodeFrom_forgets_iff (edit : EditRecord) (src : Bytes) :
    Forgets edit src ↔ edit.compactPointers = [] ∨ ¬ ∃ fields, Stores src fields := by
  rw [Forgets, decodeFrom_eq edit src]
  have decodes : (({} : EditRecord).decodeFrom src).1 = none ↔ ∃ fields, Stores src fields := by
    constructor
    · intro isNone
      obtain ⟨fields, stores, -⟩ := decodeFrom_eq_none_iff.mp (Prod.ext isNone rfl)
      exact ⟨fields, stores⟩
    · rintro ⟨fields, stores⟩
      exact congrArg Prod.fst (decodeFrom_eq_none_iff.mpr ⟨fields, stores, rfl⟩)
  dsimp only
  rw [decodes, pointed_eq_iff, and_iff_right rfl, imp_iff_not_or, or_comm]

/-- An edit that was given a compaction pointer keeps it when it decodes an edit with no fields. -/
theorem decodeFrom_keeps_pointer :
    ¬ ∀ (edit : EditRecord) (src : Bytes), Forgets edit src := by
  intro always
  have forgets := always { compactPointers := [(1, [0, 1, 0, 0, 0, 0, 0, 0, 0])] } []
  exact absurd (forgets.2 rfl) (by decide)

end EditRecord

end LevelDb
