/-
This file follows the keys of a manifest to the comparisons that read them. `ExtractUserKey` and
`InternalKeyComparator::Compare` take the last eight bytes of a key for its tag; a shorter key makes
them read in front of it, which is no value here. A builder compares only keys of its base and of
the edits it is given, so it is safe exactly as long as the manifest stores keys of eight bytes.
-/

import LevelDb.EditDecoding
import LevelDb.Lib.CheckedOrder

namespace LevelDb

/-! ### Comparisons of stored keys -/

/-- `ExtractUserKey`; `none` when it would read in front of the key. -/
def extractUserKey (key : Bytes) : Option Bytes :=
  if 8 ≤ key.length then some (key.take (key.length - 8)) else none

/-- `InternalKeyComparator::Compare` over a user comparator. -/
def compareKeys (user : Bytes → Bytes → Ordering) (first second : Bytes) : Option Ordering := do
  match user (← extractUserKey first) (← extractUserKey second) with
  | .eq =>
    let firstTag := decodeFixed64 (first.drop (first.length - 8))
    let secondTag := decodeFixed64 (second.drop (second.length - 8))
    return if firstTag > secondTag then .lt else if firstTag < secondTag then .gt else .eq
  | result => return result

/-- `BySmallestKey`. -/
def bySmallestKey? (user : Bytes → Bytes → Ordering) (first second : FileRecord) : Option Bool := do
  match ← compareKeys user first.smallest second.smallest with
  | .eq => return first.number < second.number
  | result => return result = .lt

/-- What `VersionSet::Builder` keeps of a level. -/
structure RecordLevel where
  deletedFiles : Finset Nat
  addedFiles : List FileRecord

/-- `VersionSet::Builder`, with the compaction pointers of its version set. -/
structure RecordBuilder where
  base : Nat → List FileRecord
  levels : Nat → RecordLevel
  compactPointer : Nat → Option Bytes

namespace RecordBuilder

def new (base : Nat → List FileRecord) : RecordBuilder := ⟨base, fun _ => ⟨∅, []⟩, fun _ => none⟩

/-- The part of `Apply` for one new file. -/
def addFile? (user : Bytes → Bytes → Ordering) (builder : RecordBuilder) (new : Nat × FileRecord) :
    Option RecordBuilder := do
  let added ← Lib.setInsert? (bySmallestKey? user) new.2 (builder.levels new.1).addedFiles
  return { builder with
    levels := Function.update builder.levels new.1
      ⟨(builder.levels new.1).deletedFiles.erase new.2.number, added⟩ }

/-- The part of `Apply` in front of the new files. -/
def prepare (builder : RecordBuilder) (edit : EditRecord) : RecordBuilder :=
  { builder with
    compactPointer := edit.compactPointers.foldl
      (fun pointers pair => Function.update pointers pair.1 (some pair.2)) builder.compactPointer
    levels := fun level => ⟨(builder.levels level).deletedFiles ∪
      (edit.deletedFiles.filter fun pair => pair.1 = level).image Prod.snd,
      (builder.levels level).addedFiles⟩ }

/-- `Apply`. -/
def applyChecked? (user : Bytes → Bytes → Ordering) (builder : RecordBuilder) (edit : EditRecord) :
    Option RecordBuilder :=
  edit.newFiles.foldlM (addFile? user) (builder.prepare edit)

/-- `SaveTo` and `MaybeAddFile` for one level. -/
def saveLevel? (user : Bytes → Bytes → Ordering) (builder : RecordBuilder) (level : Nat) :
    Option (List FileRecord) := do
  let merged ← Lib.mergeInto? (bySmallestKey? user) (builder.levels level).addedFiles
    (builder.base level)
  return merged.filter fun file => file.number ∉ (builder.levels level).deletedFiles

/-- `SaveTo`. -/
def saveTo? (user : Bytes → Bytes → Ordering) (builder : RecordBuilder) :
    Option (List (List FileRecord)) :=
  (List.range Config.kNumLevels).mapM (builder.saveLevel? user)

end RecordBuilder

/-! ### Keys that hold their tag -/

/-- The key is long enough for its tag. -/
def IsLong (key : Bytes) : Prop := 8 ≤ key.length

instance : DecidablePred IsLong := fun key => inferInstanceAs (Decidable (8 ≤ key.length))

def FileRecord.LongKeys (file : FileRecord) : Prop := IsLong file.smallest ∧ IsLong file.largest

theorem extractUserKey_isSome {key : Bytes} (isLong : IsLong key) :
    extractUserKey key = some (key.take (key.length - 8)) := if_pos isLong

theorem compareKeys_isSome {first second : Bytes} (user : Bytes → Bytes → Ordering)
    (firstLong : IsLong first) (secondLong : IsLong second) :
    (compareKeys user first second).isSome := by
  rw [compareKeys, extractUserKey_isSome firstLong, extractUserKey_isSome secondLong]
  dsimp only [Option.bind_eq_bind, Option.bind_some]
  split <;> rfl

/-- The comparison of files as it comes out when their keys are long. -/
def bySmallestStored (user : Bytes → Bytes → Ordering) (first second : FileRecord) : Bool :=
  (bySmallestKey? user first second).getD false

theorem bySmallestKey?_eq (user : Bytes → Bytes → Ordering) (first second : FileRecord)
    (firstLong : first.LongKeys) (secondLong : second.LongKeys) :
    bySmallestKey? user first second = some (bySmallestStored user first second) := by
  obtain ⟨order, isOrder⟩ :=
    Option.isSome_iff_exists.mp (compareKeys_isSome user firstLong.1 secondLong.1)
  rw [bySmallestStored, bySmallestKey?, isOrder]
  cases order <;> rfl

namespace RecordBuilder

/-- All keys that the builder holds are long enough for their tags. -/
structure LongKeys (builder : RecordBuilder) : Prop where
  base : ∀ level, ∀ file ∈ builder.base level, file.LongKeys
  added : ∀ level, ∀ file ∈ (builder.levels level).addedFiles, file.LongKeys
  pointers : ∀ level, ∀ key ∈ builder.compactPointer level, IsLong key

variable {builder : RecordBuilder} {edit : EditRecord} (user : Bytes → Bytes → Ordering)

theorem LongKeys.addFile? (longKeys : builder.LongKeys) {new : Nat × FileRecord}
    (isLong : new.2.LongKeys) :
    ∃ builder', builder.addFile? user new = some builder' ∧ builder'.LongKeys := by
  rw [RecordBuilder.addFile?, Lib.setInsert?_eq (bySmallestKey?_eq user) isLong
    (longKeys.added new.1)]
  refine ⟨_, rfl, longKeys.base, fun level file member => ?_, longKeys.pointers⟩
  dsimp only at member
  obtain rfl | other := eq_or_ne level new.1
  · rw [Function.update_self] at member
    obtain rfl | isOld := Lib.mem_of_mem_setInsert _ member
    · exact isLong
    · exact longKeys.added _ file isOld
  · rw [Function.update_of_ne other] at member
    exact longKeys.added level file member

theorem LongKeys.addFiles? (longKeys : builder.LongKeys) {files : List (Nat × FileRecord)}
    (allLong : ∀ new ∈ files, new.2.LongKeys) :
    ∃ builder', files.foldlM (RecordBuilder.addFile? user) builder = some builder' ∧
      builder'.LongKeys := by
  induction files generalizing builder with
  | nil => exact ⟨builder, rfl, longKeys⟩
  | cons new rest inductionHypothesis =>
    obtain ⟨middle, added, middleLong⟩ := longKeys.addFile? user (allLong new List.mem_cons_self)
    obtain ⟨builder', result, builderLong⟩ := inductionHypothesis middleLong
      fun other member => allLong other (List.mem_cons_of_mem _ member)
    refine ⟨builder', ?_, builderLong⟩
    rw [List.foldlM_cons, added]
    exact result

theorem LongKeys.prepare (longKeys : builder.LongKeys)
    (allLong : ∀ pair ∈ edit.compactPointers, IsLong pair.2) : (builder.prepare edit).LongKeys := by
  refine ⟨longKeys.base, longKeys.added, ?_⟩
  show ∀ level, ∀ key ∈ (edit.compactPointers.foldl (fun (pointers : Nat → Option Bytes) pair =>
    Function.update pointers pair.1 (some pair.2)) builder.compactPointer) level, IsLong key
  have old := longKeys.pointers
  revert allLong old
  generalize edit.compactPointers = news
  generalize builder.compactPointer = pointers
  intro allLong old
  induction news generalizing pointers with
  | nil => exact old
  | cons pair rest inductionHypothesis =>
    refine inductionHypothesis _ (fun other member => allLong other (List.mem_cons_of_mem _ member))
      fun level key isKey => ?_
    dsimp only at isKey
    obtain rfl | other := eq_or_ne level pair.1
    · rw [Function.update_self] at isKey
      exact Option.some.inj isKey ▸ allLong pair List.mem_cons_self
    · rw [Function.update_of_ne other] at isKey
      exact old level key isKey

theorem LongKeys.saveLevel? (longKeys : builder.LongKeys) (level : Nat) :
    ∃ files, builder.saveLevel? user level = some files ∧ ∀ file ∈ files, file.LongKeys := by
  rw [RecordBuilder.saveLevel?, Lib.mergeInto?_eq (bySmallestKey?_eq user) (longKeys.added level)
    (longKeys.base level)]
  refine ⟨_, rfl, fun file member => ?_⟩
  have inMerge := (Lib.mergeInto_perm (bySmallestStored user) _ _).mem_iff.mp
    (List.mem_filter.mp member).1
  obtain inBase | isAdded := List.mem_append.mp inMerge
  · exact longKeys.base level file inBase
  · exact longKeys.added level file isAdded

theorem LongKeys.saveTo? (longKeys : builder.LongKeys) :
    ∃ levels, builder.saveTo? user = some levels ∧
      ∀ files ∈ levels, ∀ file ∈ files, file.LongKeys := by
  rw [RecordBuilder.saveTo?]
  induction List.range Config.kNumLevels with
  | nil => exact ⟨[], rfl, fun files impossible => absurd impossible List.not_mem_nil⟩
  | cons level rest inductionHypothesis =>
    obtain ⟨files, saved, filesLong⟩ := longKeys.saveLevel? user level
    obtain ⟨levels, savedRest, levelsLong⟩ := inductionHypothesis
    refine ⟨files :: levels, ?_, List.forall_mem_cons.mpr ⟨filesLong, levelsLong⟩⟩
    rw [List.mapM_cons, saved, savedRest]
    rfl

end RecordBuilder

/-! ### Keys that come out of a manifest -/

/-- The keys of a field have room for their tags. -/
def EditField.KeysLong : EditField → Prop
  | .compactPointer _ key => IsLong key
  | .newFile _ file => file.LongKeys
  | _ => True

/-- The edit can be used: its keys have room for their tags, no comparison of one of them with
another such key reads in front of it, and a builder of such keys applies the edit and saves a
version of such keys. -/
structure EditRecord.SafeToUse (edit : EditRecord) : Prop where
  pointers : ∀ pair ∈ edit.compactPointers, IsLong pair.2
  files : ∀ pair ∈ edit.newFiles, pair.2.LongKeys
  builds : ∀ user (builder : RecordBuilder), builder.LongKeys →
    ∃ builder', builder.applyChecked? user edit = some builder' ∧ builder'.LongKeys ∧
      ∃ levels, builder'.saveTo? user = some levels ∧
        ∀ files ∈ levels, ∀ first ∈ files, ∀ key, IsLong key →
          (compareKeys user first.smallest key).isSome ∧
            (compareKeys user first.largest key).isSome

theorem EditRecord.safeToUse_iff {edit : EditRecord} :
    edit.SafeToUse ↔ ∀ field, edit.Holds field → field.KeysLong := by
  constructor
  · intro safe field holds
    cases field with
    | compactPointer level key => exact safe.pointers _ holds
    | newFile level file => exact safe.files _ holds
    | _ => trivial
  · intro allLong
    have pointers : ∀ pair ∈ edit.compactPointers, IsLong pair.2 := fun pair member =>
      allLong (.compactPointer pair.1 pair.2) member
    have files : ∀ pair ∈ edit.newFiles, pair.2.LongKeys := fun pair member =>
      allLong (.newFile pair.1 pair.2) member
    refine ⟨pointers, files, fun user builder longKeys => ?_⟩
    obtain ⟨builder', applied, longKeys'⟩ := (longKeys.prepare pointers).addFiles? user files
    obtain ⟨levels, saved, levelsLong⟩ := longKeys'.saveTo? user
    refine ⟨builder', applied, longKeys', levels, saved, fun files member first inFiles key isLong => ?_⟩
    have firstLong := levelsLong files member first inFiles
    exact ⟨compareKeys_isSome user firstLong.1 isLong, compareKeys_isSome user firstLong.2 isLong⟩

/-- The fields that an edit has after setting some are the old ones and those that were set, as far
as keys go. -/
theorem EditRecord.keysLong_foldl_set {fields : List EditField} {edit : EditRecord} :
    (∀ field, (fields.foldl EditRecord.set edit).Holds field → field.KeysLong) ↔
      (∀ field, edit.Holds field → field.KeysLong) ∧ ∀ field ∈ fields, field.KeysLong := by
  induction fields generalizing edit with
  | nil => simp
  | cons first rest inductionHypothesis =>
    have step : (∀ field, (edit.set first).Holds field → field.KeysLong) ↔
        (∀ field, edit.Holds field → field.KeysLong) ∧ first.KeysLong := by
      constructor
      · intro allLong
        refine ⟨fun field holds => ?_, ?_⟩
        · cases field with
          | compactPointer level key =>
            refine allLong (.compactPointer level key) ?_
            cases first <;> simp_all [EditRecord.Holds, EditRecord.set]
          | newFile level file =>
            refine allLong (.newFile level file) ?_
            cases first <;> simp_all [EditRecord.Holds, EditRecord.set]
          | _ => trivial
        · cases first with
          | compactPointer level key =>
            exact allLong (.compactPointer level key) (by simp [EditRecord.Holds, EditRecord.set])
          | newFile level file =>
            exact allLong (.newFile level file) (by simp [EditRecord.Holds, EditRecord.set])
          | _ => trivial
      · rintro ⟨oldLong, firstLong⟩ field holds
        obtain isOld | rfl := EditRecord.holds_set holds
        · exact oldLong field isOld
        · exact firstLong
    rw [List.foldl_cons, inductionHypothesis, step, List.forall_mem_cons, and_assoc]

/-- What decodes is safe to use exactly when every key that the string stores has room for its tag. -/
theorem decoded_safe_iff (src : Bytes) :
    (∀ edit, ({} : EditRecord).decodeFrom src = (none, edit) → edit.SafeToUse) ↔
      ∀ fields, Stores src fields → ∀ field ∈ fields, field.KeysLong := by
  have fresh : ∀ field, ({} : EditRecord).Holds field → field.KeysLong := by
    intro field holds
    cases field <;> simp [EditRecord.Holds] at holds
  constructor
  · intro safe fields stores
    have isSafe := safe _ (EditRecord.decodeFrom_eq_none_iff.mpr ⟨fields, stores, rfl⟩)
    exact (EditRecord.keysLong_foldl_set.mp (EditRecord.safeToUse_iff.mp isSafe)).2
  · intro allLong edit decodes
    obtain ⟨fields, stores, rfl⟩ := EditRecord.decodeFrom_eq_none_iff.mp decodes
    exact EditRecord.safeToUse_iff.mpr
      (EditRecord.keysLong_foldl_set.mpr ⟨fresh, allLong fields stores⟩)

/-- Two new files with keys of one byte decode, and the builder compares them. -/
theorem short_keys_decode :
    ¬ ∀ src edit, ({} : EditRecord).decodeFrom src = (none, edit) → edit.SafeToUse := by
  intro always
  have safe := always [7, 0, 5, 10, 1, 97, 1, 98, 7, 0, 6, 10, 1, 99, 1, 100]
    { newFiles := [(0, ⟨5, 10, [97], [98]⟩), (0, ⟨6, 10, [99], [100]⟩)] } (by decide)
  obtain ⟨builder', applied, -⟩ := safe.builds (fun _ _ => .eq) (.new fun _ => [])
    ⟨fun _ _ impossible => absurd impossible List.not_mem_nil,
      fun _ _ impossible => absurd impossible List.not_mem_nil,
      fun _ _ impossible => absurd impossible (Option.not_mem_none _)⟩
  cases applied

end LevelDb
