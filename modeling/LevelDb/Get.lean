/-
This file models point lookups: `MemTable::Get`, `Version::Get` with its per-level choice of
files, and `DBImpl::Get`. The lookup asks the memtable, the immutable memtable and the levels in
turn and stops at the first answer. Where each of these is newer, user key by user key, than the
ones after it, the answer is the newest visible entry.
-/

import LevelDb.Table
import LevelDb.Recency

namespace LevelDb

variable {α β φ : Type} [LinearOrder α]

/-! ### The lookup -/

/-- `LookupKey`. -/
structure LookupKey (α : Type) where
  userKey : α
  sequence : Nat

def LookupKey.internalKey (lookup : LookupKey α) : InternalKey α :=
  InternalKey.make lookup.userKey lookup.sequence kValueTypeForSeek

/-- The status of a read, with the value it stores on success. -/
inductive ReadStatus (β : Type)
  | ok (value : β)
  | notFound
  | corruption
  deriving DecidableEq, Repr

/-- `MemTable::Get`; `none` means that the memtable has no answer. -/
def memTableGet (mem : List (Entry α β)) (lookup : LookupKey α) : Option (ReadStatus β) :=
  match mem.find? fun entry => lookup.internalKey ≤ entry.key with
  | none => none
  | some entry =>
    if entry.userKey = lookup.userKey then
      match entry.key.typeByte with
      | 0 => some .notFound
      | 1 => some (.ok entry.value)
      | _ => none
    else none

inductive SaverState (β : Type)
  | kNotFound
  | kFound (value : β)
  | kDeleted
  | kCorrupt
  deriving DecidableEq, Repr

/-- `SaveValue`, called on a saver in state `kNotFound`. -/
def saveValue (userKey : α) (entry : Entry α β) : SaverState β :=
  match parseInternalKey entry.key with
  | none => .kCorrupt
  | some parsed =>
    if parsed.userKey = userKey then
      if parsed.type = .kTypeValue then .kFound entry.value else .kDeleted
    else .kNotFound

/-- `TableCache::Get`: the saver is called on what the table hands out, if anything. -/
def tableCacheGet (options : TableOptions α β φ) (file : FileMetaData α β)
    (lookup : LookupKey α) : SaverState β :=
  match (Table.build options file.entries).internalGet options lookup.internalKey with
  | none => .kNotFound
  | some entry => saveValue lookup.userKey entry

def newestFirst (first second : FileMetaData α β) : Prop := second.number < first.number

instance (first second : FileMetaData α β) : Decidable (newestFirst first second) :=
  inferInstanceAs (Decidable (_ < _))

/-- The files of a level that `Version::Get` reads, in the order it reads them: at level 0 all
that cover the user key, newest first, and below the one the binary search finds. -/
def Version.filesToSearch (version : Version α β) (lookup : LookupKey α) (level : Nat) :
    List (FileMetaData α β) :=
  if level = 0 then
    ((version.files level).filter fun file =>
      file.smallest.userKey ≤ lookup.userKey ∧ lookup.userKey ≤ file.largest.userKey).insertionSort
        fun first second => ¬ newestFirst second first
  else
    match (version.files level)[findFile (version.files level) lookup.internalKey]? with
    | none => []
    | some file => if lookup.userKey < file.smallest.userKey then [] else [file]

/-- A file and its level. -/
abbrev LeveledFile (α β : Type) : Type := Nat × FileMetaData α β

/-- The loop of `Version::Get` over the files to read. `seekFile` is the file to charge and
`lastFileRead` the one read before. -/
def searchFiles (options : TableOptions α β φ) (lookup : LookupKey α) :
    Option (LeveledFile α β) → Option (LeveledFile α β) → List (LeveledFile α β) →
      ReadStatus β × Option (LeveledFile α β)
  | seekFile, _, [] => (.notFound, seekFile)
  | seekFile, lastFileRead, file :: rest =>
    let charged := if seekFile.isNone then lastFileRead else seekFile
    match tableCacheGet options file.2 lookup with
    | .kNotFound => searchFiles options lookup charged (some file) rest
    | .kFound value => (.ok value, charged)
    | .kDeleted => (.notFound, charged)
    | .kCorrupt => (.corruption, charged)

/-- `Version::Get`: the status and the file to charge for the seek. -/
def Version.get (options : TableOptions α β φ) (version : Version α β) (lookup : LookupKey α) :
    ReadStatus β × Option (LeveledFile α β) :=
  searchFiles options lookup none none
    ((List.range Config.kNumLevels).flatMap fun level =>
      (version.filesToSearch lookup level).map fun file => (level, file))

/-- `DBImpl::Get`, with the file to charge when the version was read. -/
def Db.get (options : TableOptions α β φ) (db : Db α β) (userKey : α) (snapshot : Option Nat) :
    ReadStatus β × Option (LeveledFile α β) :=
  let lookup : LookupKey α := ⟨userKey, snapshot.getD db.lastSequence⟩
  match memTableGet db.mem lookup with
  | some status => (status, none)
  | none =>
    match db.imm.bind fun imm => memTableGet imm lookup with
    | some status => (status, none)
    | none => db.version.get options lookup

/-! ### One sorted run of entries -/

/-- The first entry at or after the lookup key, if it has the user key of the lookup. -/
def seekAnswer (entries : List (Entry α β)) (lookup : LookupKey α) : Option (Entry α β) :=
  (entries.find? fun entry => lookup.internalKey ≤ entry.key).filter fun entry =>
    entry.userKey = lookup.userKey

/-- The status a read ends with when the newest visible entry is `answer`. -/
def statusOf (answer : Option (Entry α β)) : ReadStatus β :=
  match answer with
  | none => .notFound
  | some entry => if entry.IsDeletion then .notFound else .ok entry.value

/-- The entries answer a lookup with the newest visible one. -/
abbrev AnswersLookup (content : Set (Entry α β)) (lookup : LookupKey α)
    (answer : Option (Entry α β)) : Prop :=
  Lib.Answers Entry.userKey Entry.sequence content lookup.userKey lookup.sequence answer

theorem internalKey_le_iff {lookup : LookupKey α} {entry : Entry α β} (parses : entry.Parses)
    (same : entry.userKey = lookup.userKey) :
    lookup.internalKey ≤ entry.key ↔ entry.sequence ≤ lookup.sequence := by
  unfold LookupKey.internalKey
  rw [InternalKey.seek_le_iff parses]
  constructor
  · rintro (less | ⟨_, visible⟩)
    · exact absurd same (ne_of_gt less)
    · exact visible
  · intro visible
    exact Or.inr ⟨same.symm, visible⟩

/-- A seek in a sorted run finds the newest visible entry of its user key. -/
theorem seekAnswer_answers {entries : List (Entry α β)} (sorted : Sorted entries)
    (parses : ∀ entry ∈ entries, entry.Parses) (lookup : LookupKey α) :
    AnswersLookup {entry | entry ∈ entries} lookup (seekAnswer entries lookup) := by
  constructor
  · intro entry found
    obtain ⟨first, same⟩ := Option.filter_eq_some_iff.mp found
    obtain ⟨member, after, least⟩ := (find_seek_eq_some sorted).mp first
    have sameKey : entry.userKey = lookup.userKey := by simpa using same
    refine ⟨member, sameKey, (internalKey_le_iff (parses entry member) sameKey).mp after, ?_⟩
    intro other otherMember otherSame visible
    have otherAfter := (internalKey_le_iff (parses other otherMember) otherSame).mpr visible
    exact InternalKey.sequence_le_of_le (least other otherMember otherAfter)
      (sameKey.trans otherSame.symm)
  · intro notFound entry member same
    by_contra notAbove
    have after := (internalKey_le_iff (parses entry member) same).mpr (not_lt.mp notAbove)
    obtain ⟨first, found⟩ : ∃ first,
        (entries.find? fun other => decide (lookup.internalKey ≤ other.key)) = some first := by
      rw [← Option.isSome_iff_exists, List.find?_isSome]
      exact ⟨entry, member, by simpa using after⟩
    obtain ⟨_, firstAfter, least⟩ := (find_seek_eq_some sorted).mp found
    have lower : lookup.userKey ≤ first.userKey := InternalKey.userKey_le_of_le firstAfter
    have upper : first.userKey ≤ entry.userKey :=
      InternalKey.userKey_le_of_le (least entry member after)
    have sameFirst : first.userKey = lookup.userKey := le_antisymm (upper.trans_eq same) lower
    rw [seekAnswer, found, Option.filter_eq_none_iff] at notFound
    exact notFound first rfl (by simpa using sameFirst)

/-- The memtable answers with its newest visible entry. -/
theorem memTableGet_eq {mem : List (Entry α β)} (parses : ∀ entry ∈ mem, entry.Parses)
    (lookup : LookupKey α) :
    memTableGet mem lookup = (seekAnswer mem lookup).map fun entry => statusOf (some entry) := by
  unfold memTableGet seekAnswer
  cases found : mem.find? fun entry => decide (lookup.internalKey ≤ entry.key) with
  | none => rfl
  | some entry =>
    have isParsed := parses entry (List.mem_of_find?_eq_some found)
    by_cases same : entry.userKey = lookup.userKey
    · rw [Option.filter_some_pos (by simpa using same), Option.map_some]
      simp only [if_pos same, statusOf]
      by_cases deletion : entry.IsDeletion
      · have byte : entry.key.typeByte = 0 := deletion
        rw [if_pos deletion, byte]
        rfl
      · have byte : entry.key.typeByte = 1 := isParsed.isValue deletion
        rw [if_neg deletion, byte]
        rfl
    · rw [Option.filter_some_neg (by simpa using same), Option.map_none]
      simp only [if_neg same]

theorem saveValue_eq {entry : Entry α β} (parses : entry.Parses) (userKey : α) :
    saveValue userKey entry =
      if entry.userKey = userKey then
        if entry.IsDeletion then .kDeleted else .kFound entry.value
      else .kNotFound := by
  unfold saveValue
  by_cases deletion : entry.IsDeletion
  · rw [deletion.parse, if_pos deletion]
    rfl
  · rw [(parses.isValue deletion).parse, if_neg deletion]
    rfl

/-- The state a saver is left in by the answer of a table. -/
def saverOf (answer : Option (Entry α β)) : SaverState β :=
  match answer with
  | none => .kNotFound
  | some entry => if entry.IsDeletion then .kDeleted else .kFound entry.value

/-- Reading a table through its index, filter and blocks answers as a seek in its entries. -/
theorem tableCacheGet_eq (options : TableOptions α β φ) {file : FileMetaData α β}
    (sorted : Sorted file.entries) (parses : ∀ entry ∈ file.entries, entry.Parses)
    (lookup : LookupKey α) :
    tableCacheGet options file lookup = saverOf (seekAnswer file.entries lookup) := by
  have isTable := Table.build_of options sorted
  have spec := Table.internalGet_spec sorted isTable lookup.internalKey
  have same : seekAnswer file.entries lookup =
      ((Table.build options file.entries).internalGet options lookup.internalKey).filter
        fun entry => entry.userKey = lookup.userKey := spec.symm
  rw [same]
  unfold tableCacheGet
  cases handed : (Table.build options file.entries).internalGet options lookup.internalKey with
  | none => rfl
  | some entry =>
    obtain ⟨member, _⟩ := Table.mem_of_internalGet isTable sorted handed
    simp only [saveValue_eq (parses entry member)]
    by_cases sameKey : entry.userKey = lookup.userKey
    · rw [if_pos sameKey, Option.filter_some_pos (by simpa using sameKey)]
      rfl
    · rw [if_neg sameKey, Option.filter_some_neg (by simpa using sameKey)]
      rfl

/-! ### The levels -/

/-- The loop stops at the first file with an answer. -/
theorem searchFiles_eq (options : TableOptions α β φ) {files : List (LeveledFile α β)}
    (sorted : ∀ file ∈ files, Sorted file.2.entries)
    (parses : ∀ file ∈ files, ∀ entry ∈ file.2.entries, entry.Parses) (lookup : LookupKey α)
    (seekFile lastFileRead : Option (LeveledFile α β)) :
    (searchFiles options lookup seekFile lastFileRead files).1 =
      statusOf (files.findSome? fun file => seekAnswer file.2.entries lookup) := by
  induction files generalizing seekFile lastFileRead with
  | nil => rfl
  | cons file rest inductionHypothesis =>
    unfold searchFiles
    simp only [List.findSome?_cons,
      tableCacheGet_eq options (sorted file List.mem_cons_self) (parses file List.mem_cons_self)]
    cases answer : seekAnswer file.2.entries lookup with
    | none =>
      exact inductionHypothesis (fun other member => sorted other (List.mem_cons_of_mem _ member))
        (fun other member => parses other (List.mem_cons_of_mem _ member)) _ _
    | some entry =>
      by_cases deletion : entry.IsDeletion
      · simp only [saverOf, statusOf, if_pos deletion]
      · simp only [saverOf, statusOf, if_neg deletion]

/-- The entries of sorted disjoint files, one file after the other, are sorted. -/
theorem DisjointSorted.entries_sorted {files : List (FileMetaData α β)}
    (disjoint : DisjointSorted files) (valid : ∀ file ∈ files, file.Valid) :
    Sorted (files.flatMap FileMetaData.entries) := by
  refine List.pairwise_flatMap.mpr ⟨fun file member => (valid file member).sorted, ?_⟩
  refine disjoint.imp_of_mem fun {first second} firstMember secondMember apart => ?_
  intro entry inFirst other inSecond
  exact ((valid first firstMember).le_largest entry inFirst).trans_lt
    (apart.trans_le ((valid second secondMember).smallest_le other inSecond))

/-- A seek in a whole level is a seek in the file the binary search finds. -/
theorem find_level {files : List (FileMetaData α β)} (disjoint : DisjointSorted files)
    (valid : ∀ file ∈ files, file.Valid) (key : InternalKey α) :
    ((files.flatMap FileMetaData.entries).find? fun entry => key ≤ entry.key) =
      (files[findFile files key]?).bind fun file =>
        file.entries.find? fun entry => key ≤ entry.key := by
  have ordered := fun file member => (valid file member).smallest_le_largest
  have skipped : (files.take (findFile files key)).findSome?
      (fun file => file.entries.find? fun entry => decide (key ≤ entry.key)) = none := by
    refine List.findSome?_eq_none_iff.mpr fun file member => ?_
    obtain ⟨index, bound, rfl⟩ := List.mem_take_iff_getElem.mp member
    have inBounds := lt_min_iff.mp bound
    have below := largest_lt_of_lt_findFile disjoint ordered inBounds.1 inBounds.2
    refine List.find?_eq_none.mpr fun entry inFile => ?_
    have early := ((valid _ (List.getElem_mem inBounds.2)).le_largest entry inFile).trans_lt below
    simpa using early
  rw [List.find?_flatMap]
  conv_lhs => rw [← List.take_append_drop (findFile files key) files]
  rw [List.findSome?_append, skipped, Option.none_or]
  cases atIndex : files[findFile files key]? with
  | none =>
    rw [List.drop_eq_nil_of_le (List.getElem?_eq_none_iff.mp atIndex)]
    rfl
  | some file =>
    obtain ⟨bound, isFile⟩ := List.getElem?_eq_some_iff.mp atIndex
    have reaches : key ≤ files[findFile files key].largest :=
      le_largest_of_findFile_le disjoint ordered le_rfl bound
    have fileValid := valid _ (List.getElem_mem bound)
    obtain ⟨last, lastMember, lastKey⟩ := fileValid.largest_eq
    obtain ⟨entry, found⟩ : ∃ entry,
        (file.entries.find? fun entry => decide (key ≤ entry.key)) = some entry := by
      rw [← Option.isSome_iff_exists, List.find?_isSome]
      refine ⟨last, isFile ▸ lastMember, ?_⟩
      rw [lastKey]
      simpa using reaches
    rw [List.drop_eq_getElem_cons bound, isFile, List.findSome?_cons, found, Option.bind_some,
      found]

/-- Below level 0 the one file read answers for the whole level. -/
theorem filesToSearch_answers_of_pos {version : Version α β} (sorted : version.Sorted)
    {level : Nat} (positive : level ≠ 0)
    (parses : ∀ entry ∈ version.levelEntries level, entry.Parses) (lookup : LookupKey α) :
    AnswersLookup (version.levelEntries level) lookup
      ((version.filesToSearch lookup level).findSome? fun file =>
        seekAnswer file.entries lookup) := by
  have disjoint := sorted.disjoint level (Nat.pos_of_ne_zero positive)
  have valid := sorted.valid level
  have content : version.levelEntries level =
      {entry | entry ∈ (version.files level).flatMap FileMetaData.entries} := by
    ext entry
    exact mem_fileEntries
  have whole := seekAnswer_answers (disjoint.entries_sorted valid)
    (fun entry member => parses entry (mem_fileEntries.mpr member)) lookup
  rw [← content, seekAnswer, find_level disjoint valid] at whole
  unfold Version.filesToSearch
  rw [if_neg positive]
  cases atIndex : (version.files level)[findFile (version.files level) lookup.internalKey]? with
  | none =>
    rw [atIndex] at whole
    exact whole
  | some file =>
    rw [atIndex, Option.bind_some] at whole
    simp only
    split
    · rename_i before
      have noAnswer : (file.entries.find? fun entry =>
          decide (lookup.internalKey ≤ entry.key)).filter
            (fun entry => decide (entry.userKey = lookup.userKey)) = none := by
        refine Option.filter_eq_none_iff.mpr fun entry found same => ?_
        have inFile := List.mem_of_find?_eq_some found
        have fileValid := valid file (List.mem_of_getElem? atIndex)
        have sameKey : entry.userKey = lookup.userKey := by simpa using same
        exact absurd (fileValid.userKey_smallest_le inFile) (not_le_of_gt (sameKey ▸ before))
      rw [noAnswer] at whole
      exact whole
    · rw [List.findSome?_singleton]
      exact whole

/-- The files of level 0 are newer the higher their number. -/
def Version.NewestFirst (version : Version α β) : Prop :=
  ∀ newer ∈ version.files 0, ∀ older ∈ version.files 0, newestFirst newer older →
    Lib.Newer Entry.userKey Entry.sequence {entry | entry ∈ newer.entries}
      {entry | entry ∈ older.entries}

/-- The files of level 0 that cover the user key answer for the whole level. -/
theorem filesToSearch_answers_zero {version : Version α β} (sorted : version.Sorted)
    (numbers : ((version.files 0).map FileMetaData.number).Nodup) (newest : version.NewestFirst)
    (parses : ∀ entry ∈ version.levelEntries 0, entry.Parses) (lookup : LookupKey α) :
    AnswersLookup (version.levelEntries 0) lookup
      ((version.filesToSearch lookup 0).findSome? fun file =>
        seekAnswer file.entries lookup) := by
  set searched := version.filesToSearch lookup 0 with searchedEq
  have perm : searched.Perm ((version.files 0).filter fun file =>
      file.smallest.userKey ≤ lookup.userKey ∧ lookup.userKey ≤ file.largest.userKey) :=
    List.perm_insertionSort _ _
  have member : ∀ file ∈ searched, file ∈ version.files 0 :=
    fun file inSearched => List.mem_of_mem_filter (perm.mem_iff.mp inSearched)
  have descending : searched.Pairwise fun first second => ¬ newestFirst second first := by
    have total : Std.Total fun first second : FileMetaData α β => ¬ newestFirst second first :=
      ⟨fun first second => by unfold newestFirst; omega⟩
    have trans : IsTrans (FileMetaData α β) fun first second => ¬ newestFirst second first :=
      ⟨fun first second third => by unfold newestFirst; omega⟩
    exact List.pairwise_insertionSort _ _
  have distinct : searched.Pairwise fun first second => first.number ≠ second.number :=
    (perm.pairwise_iff fun different => different.symm).mpr
      ((List.pairwise_map.mp numbers).filter _)
  have answers := Lib.answers_findSome
    (fun file inSearched => seekAnswer_answers (sorted.valid 0 file (member file inSearched)).sorted
      (fun entry inFile => parses entry ⟨file, member file inSearched, inFile⟩) lookup)
    ((descending.and distinct).imp_of_mem fun {first second} inFirst inSecond order =>
      newest first (member first inFirst) second (member second inSecond)
        (lt_of_le_of_ne (not_lt.mp order.1) order.2.symm))
  have hidden : Lib.NoneVisible Entry.userKey Entry.sequence
      {entry | ∃ file ∈ version.files 0, file ∉ searched ∧ entry ∈ file.entries}
      lookup.userKey lookup.sequence := by
    rintro entry ⟨file, inLevel, notSearched, inFile⟩ same
    have valid := sorted.valid 0 file inLevel
    refine absurd (perm.mem_iff.mpr (List.mem_filter.mpr ⟨inLevel, ?_⟩)) notSearched
    have lower := valid.userKey_smallest_le inFile
    have upper := valid.userKey_le_largest inFile
    rw [same] at lower upper
    simpa using ⟨lower, upper⟩
  have split : version.levelEntries 0 =
      {entry | ∃ file ∈ version.files 0, file ∉ searched ∧ entry ∈ file.entries} ∪
        {entry | ∃ file ∈ searched, entry ∈ {entry | entry ∈ file.entries}} := by
    ext entry
    constructor
    · rintro ⟨file, inLevel, inFile⟩
      by_cases inSearched : file ∈ searched
      · exact Or.inr ⟨file, inSearched, inFile⟩
      · exact Or.inl ⟨file, inLevel, inSearched, inFile⟩
    · rintro (⟨file, inLevel, _, inFile⟩ | ⟨file, inSearched, inFile⟩)
      · exact ⟨file, inLevel, inFile⟩
      · exact ⟨file, member file inSearched, inFile⟩
  rw [split]
  exact answers.union_of_noneVisible hidden

/-! ### The whole lookup -/

/-- What a lookup rests on: sorted memtables, levels in shape, entries that parse, one entry for
each user key and sequence number, and layers that are newer, user key by user key, than the
layers after them. -/
structure Db.Layered (db : Db α β) : Prop where
  mem_sorted : LevelDb.Sorted db.mem
  imm_sorted : ∀ imm ∈ db.imm, LevelDb.Sorted imm
  version_sorted : db.version.Sorted
  numLevels : ∀ level, Config.kNumLevels ≤ level → db.version.files level = []
  numbers : ((db.version.files 0).map FileMetaData.number).Nodup
  parses : ∀ entry ∈ db.entries, entry.Parses
  unique : ∀ first ∈ db.entries, ∀ second ∈ db.entries, first.userKey = second.userKey →
    first.sequence = second.sequence → first = second
  mem_newer_imm : ∀ imm ∈ db.imm, Lib.Newer Entry.userKey Entry.sequence
    {entry | entry ∈ db.mem} {entry | entry ∈ imm}
  mem_newer : ∀ level, Lib.Newer Entry.userKey Entry.sequence
    {entry | entry ∈ db.mem} (db.version.levelEntries level)
  imm_newer : ∀ imm ∈ db.imm, ∀ level, Lib.Newer Entry.userKey Entry.sequence
    {entry | entry ∈ imm} (db.version.levelEntries level)
  newestFirst : db.version.NewestFirst
  recent : db.version.Recent

/-- The files a version's lookup reads. -/
theorem mem_filesToSearch {version : Version α β} {lookup : LookupKey α} {level : Nat}
    {file : FileMetaData α β} (member : file ∈ version.filesToSearch lookup level) :
    file ∈ version.files level := by
  unfold Version.filesToSearch at member
  split at member
  · exact List.mem_of_mem_filter ((List.perm_insertionSort _ _).mem_iff.mp member)
  · split at member
    · exact absurd member List.not_mem_nil
    · rename_i found atIndex
      split at member
      · exact absurd member List.not_mem_nil
      · rw [List.mem_singleton.mp member]
        exact List.mem_of_getElem? atIndex

theorem findSome?_flatMap {γ δ ε : Type} (items : List γ) (inner : γ → List δ)
    (lookup : δ → Option ε) :
    (items.flatMap inner).findSome? lookup =
      items.findSome? fun item => (inner item).findSome? lookup := by
  induction items with
  | nil => rfl
  | cons item rest inductionHypothesis =>
    rw [List.flatMap_cons, List.findSome?_append, inductionHypothesis, List.findSome?_cons]
    cases (inner item).findSome? lookup <;> rfl

/-- The version answers with the newest visible entry of its levels. -/
theorem Db.Layered.version_get {db : Db α β} (layered : db.Layered)
    (options : TableOptions α β φ) (lookup : LookupKey α) :
    ∃ answer, AnswersLookup {entry | ∃ level, entry ∈ db.version.levelEntries level} lookup answer ∧
      (db.version.get options lookup).1 = statusOf answer := by
  have parses : ∀ level, ∀ entry ∈ db.version.levelEntries level, entry.Parses :=
    fun level entry member => layered.parses entry (Or.inr (Or.inr ⟨level, member⟩))
  have answers : AnswersLookup
      {entry | ∃ level ∈ List.range Config.kNumLevels, entry ∈ db.version.levelEntries level} lookup
      ((List.range Config.kNumLevels).findSome? fun level =>
        (db.version.filesToSearch lookup level).findSome? fun file =>
          seekAnswer file.entries lookup) := by
    refine Lib.answers_findSome (fun level _ => ?_)
      (List.pairwise_lt_range.imp fun {upper lower} order => layered.recent upper lower order)
    by_cases zero : level = 0
    · subst zero
      exact filesToSearch_answers_zero layered.version_sorted layered.numbers
        layered.newestFirst (parses 0) lookup
    · exact filesToSearch_answers_of_pos layered.version_sorted zero (parses level) lookup
  have content : {entry | ∃ level ∈ List.range Config.kNumLevels,
      entry ∈ db.version.levelEntries level} =
        {entry | ∃ level, entry ∈ db.version.levelEntries level} := by
    ext entry
    constructor
    · rintro ⟨level, _, member⟩
      exact ⟨level, member⟩
    · rintro ⟨level, file, inLevel, member⟩
      refine ⟨level, List.mem_range.mpr ?_, file, inLevel, member⟩
      by_contra outside
      rw [layered.numLevels level (not_lt.mp outside)] at inLevel
      exact absurd inLevel List.not_mem_nil
  rw [content] at answers
  refine ⟨_, answers, ?_⟩
  have readFile : ∀ file ∈ (List.range Config.kNumLevels).flatMap (fun level =>
      (db.version.filesToSearch lookup level).map fun file => (level, file)),
        file.2 ∈ db.version.files file.1 := by
    intro file member
    obtain ⟨level, _, inLevel⟩ := List.mem_flatMap.mp member
    obtain ⟨read, isRead, rfl⟩ := List.mem_map.mp inLevel
    exact mem_filesToSearch isRead
  unfold Version.get
  rw [searchFiles_eq options
    (fun file member => (layered.version_sorted.valid _ _ (readFile file member)).sorted)
    (fun file member entry inFile => parses file.1 entry ⟨file.2, readFile file member, inFile⟩)]
  rw [findSome?_flatMap]
  simp only [List.findSome?_map, Function.comp_def]

/-- The layers a lookup asks, newest first, each with its answer. -/
def Db.layers (db : Db α β) (lookup : LookupKey α) (versionAnswer : Option (Entry α β)) :
    List (Set (Entry α β) × Option (Entry α β)) :=
  [({entry | entry ∈ db.mem}, seekAnswer db.mem lookup),
    ({entry | ∃ imm ∈ db.imm, entry ∈ imm}, db.imm.bind fun imm => seekAnswer imm lookup),
    ({entry | ∃ level, entry ∈ db.version.levelEntries level}, versionAnswer)]

theorem Db.Layered.layers_newer {db : Db α β} (layered : db.Layered) (lookup : LookupKey α)
    (versionAnswer : Option (Entry α β)) :
    (db.layers lookup versionAnswer).Pairwise
      fun newer older => Lib.Newer Entry.userKey Entry.sequence newer.1 older.1 := by
  simp only [Db.layers, List.pairwise_cons, List.mem_cons, List.not_mem_nil, or_false,
    forall_eq_or_imp, forall_eq, List.Pairwise.nil, and_true, IsEmpty.forall_iff, implies_true]
  refine ⟨⟨?_, ?_⟩, ?_⟩
  · rintro entry member older ⟨imm, isImm, olderMember⟩
    exact layered.mem_newer_imm imm isImm entry member older olderMember
  · rintro entry member older ⟨level, olderMember⟩
    exact layered.mem_newer level entry member older olderMember
  · rintro entry ⟨imm, isImm, member⟩ older ⟨level, olderMember⟩
    exact layered.imm_newer imm isImm level entry member older olderMember

/-- The memtables and the version, asked in turn, answer for the whole database. -/
theorem Db.Layered.get_answers {db : Db α β} (layered : db.Layered)
    (options : TableOptions α β φ) (userKey : α) (snapshot : Option Nat) :
    ∃ answer, AnswersLookup db.entries ⟨userKey, snapshot.getD db.lastSequence⟩ answer ∧
      (db.get options userKey snapshot).1 = statusOf answer := by
  set lookup : LookupKey α := ⟨userKey, snapshot.getD db.lastSequence⟩ with lookupEq
  obtain ⟨versionAnswer, versionAnswers, versionStatus⟩ := layered.version_get options lookup
  have memParses : ∀ entry ∈ db.mem, entry.Parses :=
    fun entry member => layered.parses entry (Or.inl member)
  have immParses : ∀ imm ∈ db.imm, ∀ entry ∈ imm, entry.Parses :=
    fun imm isImm entry member => layered.parses entry (Or.inr (Or.inl ⟨imm, isImm, member⟩))
  have memAnswers := seekAnswer_answers layered.mem_sorted memParses lookup
  have immAnswers : AnswersLookup {entry | ∃ imm ∈ db.imm, entry ∈ imm} lookup
      (db.imm.bind fun imm => seekAnswer imm lookup) := by
    cases isImm : db.imm with
    | none => exact ⟨nofun, fun _ entry member => absurd member (by simp)⟩
    | some imm =>
      have answers := seekAnswer_answers (layered.imm_sorted imm isImm) (immParses imm isImm) lookup
      simpa using answers
  have immStatus : (db.imm.bind fun imm => memTableGet imm lookup) =
      (db.imm.bind fun imm => seekAnswer imm lookup).map fun entry => statusOf (some entry) := by
    cases isImm : db.imm with
    | none => rfl
    | some imm => exact memTableGet_eq (immParses imm isImm) lookup
  have each : ∀ layer ∈ db.layers lookup versionAnswer, AnswersLookup layer.1 lookup layer.2 :=
    List.forall_mem_cons.mpr ⟨memAnswers, List.forall_mem_cons.mpr ⟨immAnswers,
      List.forall_mem_singleton.mpr versionAnswers⟩⟩
  have answers := Lib.answers_findSome each (layered.layers_newer lookup versionAnswer)
  have content : {entry | ∃ layer ∈ db.layers lookup versionAnswer, entry ∈ layer.1} =
      db.entries := by
    ext entry
    simp [Db.entries, Db.layers]
  rw [content] at answers
  refine ⟨_, answers, ?_⟩
  unfold Db.get
  simp only [← lookupEq, memTableGet_eq memParses, immStatus, Db.layers, List.findSome?_cons]
  cases seekAnswer db.mem lookup with
  | some entry => rfl
  | none =>
    cases db.imm.bind fun imm => seekAnswer imm lookup with
    | some entry => rfl
    | none =>
      cases versionAnswer with
      | some entry => exact versionStatus
      | none => exact versionStatus

/-- `Get` returns the value of the newest entry of the user key that is visible at the snapshot,
and NotFound exactly when there is none or it is a deletion. -/
theorem get_newest_visible (options : TableOptions α β φ) (db : Db α β) (layered : db.Layered)
    (userKey : α) (snapshot : Option Nat) :
    (∀ value, (db.get options userKey snapshot).1 = .ok value ↔
      ∃ entry, Lib.IsNewest Entry.userKey Entry.sequence db.entries userKey
        (snapshot.getD db.lastSequence) entry ∧ entry.IsValue ∧ entry.value = value) ∧
    ((db.get options userKey snapshot).1 = .notFound ↔
      Lib.NoneVisible Entry.userKey Entry.sequence db.entries userKey
        (snapshot.getD db.lastSequence) ∨
      ∃ entry, Lib.IsNewest Entry.userKey Entry.sequence db.entries userKey
        (snapshot.getD db.lastSequence) entry ∧ entry.IsDeletion) := by
  obtain ⟨answer, answers, status⟩ := layered.get_answers options userKey snapshot
  rw [status]
  cases answer with
  | none =>
    have nothing := answers.noneVisible rfl
    refine ⟨fun value => ⟨nofun, ?_⟩, fun _ => Or.inl nothing, fun _ => rfl⟩
    rintro ⟨entry, newest, _⟩
    exact absurd nothing newest.not_noneVisible
  | some found =>
    have newest := answers.isNewest found rfl
    have same : ∀ entry, Lib.IsNewest Entry.userKey Entry.sequence db.entries userKey
        (snapshot.getD db.lastSequence) entry → entry = found := fun entry isNewest =>
      layered.unique entry isNewest.1 found newest.1 (isNewest.2.1.trans newest.2.1.symm)
        (isNewest.stamp_eq newest)
    by_cases deletion : found.IsDeletion
    · rw [statusOf, if_pos deletion]
      refine ⟨fun value => ⟨nofun, ?_⟩, fun _ => Or.inr ⟨found, newest, deletion⟩, fun _ => rfl⟩
      rintro ⟨entry, isNewest, isValue, _⟩
      rw [same entry isNewest] at isValue
      exact absurd (isValue.symm.trans deletion) (by decide)
    · have isValue := (layered.parses found newest.1).isValue deletion
      rw [statusOf, if_neg deletion]
      refine ⟨fun value => ⟨?_, ?_⟩, nofun, ?_⟩
      · rintro isOk
        exact ⟨found, newest, isValue, ReadStatus.ok.inj isOk⟩
      · rintro ⟨entry, isNewest, _, rfl⟩
        rw [same entry isNewest]
      · rintro (nothing | ⟨entry, isNewest, isDeletion⟩)
        · exact absurd nothing newest.not_noneVisible
        · exact absurd (same entry isNewest ▸ isDeletion) deletion

/-! ### A database with a user key in two files of one level -/

/-- Keys are not shortened, and the filter of a block is the list of its user keys. -/
def listedTableOptions : TableOptions Nat Nat (List Nat) where
  shortener :=
    { size := fun userKey => userKey
      findShortestSeparator := fun start _ => start
      findShortSuccessor := fun userKey => userKey
      separator_lt := fun _ _ less => less
      separator_self := fun _ _ _ => rfl }
  filterPolicy := some
    { createFilter := fun keys => keys
      emptyFilter := []
      keyMayMatch := fun userKey keys => keys.contains userKey
      mayMatch_of_mem := fun _ _ member => by simpa using member }
  blockRestartInterval := 16
  blockFull := fun entries => 2 ≤ entries.length
  blockBytes := fun entries => 1024 * entries.length

/-- A table with the one entry `(userKey, sequence)`. -/
def singletonFile (number userKey sequence : Nat) : FileMetaData Nat Nat :=
  { number := number
    fileSize := 1024
    allowedSeeks := 100
    smallest := InternalKey.make userKey sequence .kTypeValue
    largest := InternalKey.make userKey sequence .kTypeValue
    entries := [⟨InternalKey.make userKey sequence .kTypeValue, 10 * sequence⟩] }

/-- User key 2 has versions in both files of level 0 and in both files of level 1; user key 1
has a deletion in the memtable over a value in the immutable memtable. -/
def straddlingDb : Db Nat Nat :=
  { (Db.empty : Db Nat Nat) with
    mem := [⟨InternalKey.make 1 9 .kTypeDeletion, 0⟩]
    imm := some [⟨InternalKey.make 1 8 .kTypeValue, 80⟩]
    lastSequence := 9
    version := { (Version.empty : Version Nat Nat) with
      files := fun level => match level with
        | 0 => [singletonFile 11 2 6, singletonFile 12 2 7]
        | 1 => [singletonFile 5 2 5, singletonFile 6 2 4]
        | _ => [] } }

theorem singletonFile_valid (number userKey : Nat) {sequence : Nat}
    (small : sequence ≤ kMaxSequenceNumber) : (singletonFile number userKey sequence).Valid := by
  refine ⟨List.pairwise_singleton _ _, ?_, ⟨_, List.mem_singleton.mpr rfl, rfl⟩,
    ⟨_, List.mem_singleton.mpr rfl, rfl⟩, ?_, ?_⟩
  · intro entry member
    rw [List.mem_singleton.mp member]
    exact Nat.add_le_add_right (Nat.mul_le_mul_right 256 small) 1
  · intro entry member
    rw [List.mem_singleton.mp member]
    exact le_rfl
  · intro entry member
    rw [List.mem_singleton.mp member]
    exact le_rfl

/-- The entries of a level of `straddlingDb`. -/
def straddlingEntries (level : Nat) : List (Entry Nat Nat) :=
  (straddlingDb.version.files level).flatMap FileMetaData.entries

theorem straddlingDb_entries {entry : Entry Nat Nat} (member : entry ∈ straddlingDb.entries) :
    entry ∈ straddlingDb.mem ++ straddlingDb.imm.getD [] ++ straddlingEntries 0 ++
      straddlingEntries 1 := by
  rcases member with inMem | ⟨imm, isImm, inImm⟩ | ⟨level, inLevel⟩
  · simp [inMem]
  · cases isImm
    exact List.mem_append_left _ (List.mem_append_left _ (List.mem_append_right _ inImm))
  · have inFiles := mem_fileEntries.mp inLevel
    match level with
    | 0 => exact List.mem_append_left _ (List.mem_append_right _ inFiles)
    | 1 => exact List.mem_append_right _ inFiles
    | _ + 2 => exact absurd inFiles List.not_mem_nil

theorem straddlingDb_newer {newer : List (Entry Nat Nat)}
    (above : ∀ entry ∈ newer, ∀ older ∈ straddlingEntries 0 ++ straddlingEntries 1,
      entry.userKey = older.userKey → older.sequence < entry.sequence) (level : Nat) :
    Lib.Newer Entry.userKey Entry.sequence {entry | entry ∈ newer}
      (straddlingDb.version.levelEntries level) := by
  intro entry member older olderMember
  have inFiles := mem_fileEntries.mp olderMember
  match level with
  | 0 => exact above entry member older (List.mem_append_left _ inFiles)
  | 1 => exact above entry member older (List.mem_append_right _ inFiles)
  | _ + 2 => exact absurd inFiles List.not_mem_nil

theorem straddlingDb_levels : ∀ entry ∈ straddlingEntries 0, ∀ older ∈ straddlingEntries 1,
    entry.userKey = older.userKey → older.sequence < entry.sequence := by decide

theorem straddlingDb_layered : straddlingDb.Layered where
  mem_sorted := by decide
  imm_sorted := fun imm isImm => by cases isImm; decide
  version_sorted := by
    refine ⟨fun level file member => ?_, fun level positive => ?_⟩
    · match level with
      | 0 =>
        rcases List.mem_pair.mp member with rfl | rfl
        · exact singletonFile_valid 11 2 (by decide)
        · exact singletonFile_valid 12 2 (by decide)
      | 1 =>
        rcases List.mem_pair.mp member with rfl | rfl
        · exact singletonFile_valid 5 2 (by decide)
        · exact singletonFile_valid 6 2 (by decide)
      | _ + 2 => exact absurd member List.not_mem_nil
    · match level with
      | 0 => exact absurd positive (lt_irrefl 0)
      | 1 => decide
      | _ + 2 => exact List.Pairwise.nil
  numLevels := fun level beyond => by
    match level with
    | _ + 2 => rfl
  numbers := by decide
  parses := fun entry member =>
    (by decide : ∀ entry ∈ straddlingDb.mem ++ straddlingDb.imm.getD [] ++ straddlingEntries 0 ++
      straddlingEntries 1, entry.Parses) entry (straddlingDb_entries member)
  unique := fun first firstMember second secondMember =>
    (by decide : ∀ first ∈ straddlingDb.mem ++ straddlingDb.imm.getD [] ++ straddlingEntries 0 ++
      straddlingEntries 1, ∀ second ∈ straddlingDb.mem ++ straddlingDb.imm.getD [] ++
        straddlingEntries 0 ++ straddlingEntries 1, first.userKey = second.userKey →
          first.sequence = second.sequence → first = second)
      first (straddlingDb_entries firstMember) second (straddlingDb_entries secondMember)
  mem_newer_imm := fun imm isImm => by
    cases isImm
    show ∀ entry ∈ straddlingDb.mem, ∀ older ∈ straddlingDb.imm.getD [], _ → _
    decide
  mem_newer := straddlingDb_newer (by decide)
  imm_newer := fun imm isImm => by
    cases isImm
    exact straddlingDb_newer (by decide)
  newestFirst := by
    show ∀ newer ∈ straddlingDb.version.files 0, ∀ older ∈ straddlingDb.version.files 0,
      older.number < newer.number → ∀ entry ∈ newer.entries, ∀ other ∈ older.entries,
        entry.userKey = other.userKey → other.sequence < entry.sequence
    decide
  recent := by
    intro upper lower order
    match lower with
    | 1 =>
      rw [Nat.lt_one_iff.mp order]
      intro entry member older olderMember
      exact straddlingDb_levels entry (mem_fileEntries.mp member) older
        (mem_fileEntries.mp olderMember)
    | _ + 2 =>
      intro entry _ older olderMember
      exact absurd (mem_fileEntries.mp olderMember) List.not_mem_nil

/-- The read at sequence 4 passes both files of level 0 and the first file of level 1, which
starts with a newer version of the same user key, and the deletion hides the value below it. -/
theorem get_newest_visible_straddling :
    straddlingDb.Layered ∧
      (straddlingDb.get listedTableOptions 2 (some 4)).1 = .ok 40 ∧
      (straddlingDb.get listedTableOptions 1 none).1 = .notFound := by
  have inLevel : (⟨InternalKey.make 2 4 .kTypeValue, 40⟩ : Entry Nat Nat) ∈ straddlingDb.entries :=
    Or.inr (Or.inr ⟨1, mem_fileEntries.mpr (by decide)⟩)
  have inMem : (⟨InternalKey.make 1 9 .kTypeDeletion, 0⟩ : Entry Nat Nat) ∈ straddlingDb.entries :=
    Or.inl (List.mem_singleton.mpr rfl)
  refine ⟨straddlingDb_layered, ?_, ?_⟩
  · refine ((get_newest_visible listedTableOptions straddlingDb straddlingDb_layered 2
      (some 4)).1 40).mpr ⟨_, ⟨inLevel, rfl, by decide, fun other _ _ visible => ?_⟩, rfl, rfl⟩
    exact visible
  · refine (get_newest_visible listedTableOptions straddlingDb straddlingDb_layered 1
      none).2.mpr (Or.inr ⟨_, ⟨inMem, rfl, by decide, fun other _ _ visible => ?_⟩, rfl⟩)
    exact visible

end LevelDb
