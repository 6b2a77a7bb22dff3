/-
This file proves the shape of the levels: in every version a run reaches, the files of a level
from 1 on are sorted and disjoint in internal key order, every file describes its table, and
no file number or internal key occurs twice.

Flushes, trivial moves and compactions install the same kind of edit: it takes some files out
and adds a disjoint list of new files at one level. One lemma says when such an edit keeps the
shape. A flush meets its conditions since it is placed where it overlaps nothing and carries
newer sequence numbers; a compaction since the files of its output level that are not inputs
lie wholly before or wholly after all of its inputs.
-/

import LevelDb.DbImpl

namespace LevelDb

variable {α β : Type} [LinearOrder α]

/-! ### Edits that add files at one level -/

/-- What a run keeps true of its versions. Sequence numbers are at most `bound` and file
numbers below `next`. -/
structure Version.Shape (version : Version α β) (bound next : Nat) : Prop where
  sorted : version.Sorted
  distinct : version.Distinct
  number_lt : ∀ level, ∀ file ∈ version.files level, file.number < next
  sequence_le : ∀ level, ∀ file ∈ version.files level, ∀ entry ∈ file.entries,
    entry.sequence ≤ bound

/-- Two files are apart when one ends before the other starts. -/
def FileMetaData.Apart (first second : FileMetaData α β) : Prop :=
  first.largest < second.smallest ∨ second.largest < first.smallest

theorem FileMetaData.Apart.symm {first second : FileMetaData α β} (apart : first.Apart second) :
    second.Apart first := Or.symm apart

/-- In a sorted and disjoint level, two files with different numbers are apart. -/
theorem DisjointSorted.apart {files : List (FileMetaData α β)} (disjoint : DisjointSorted files)
    {first second : FileMetaData α β} (firstMember : first ∈ files) (secondMember : second ∈ files)
    (different : first.number ≠ second.number) : first.Apart second := by
  refine List.Pairwise.forall_of_forall_of_flip (R := fun first second : FileMetaData α β =>
    first.number ≠ second.number → first.Apart second) ?_ ?_ ?_ firstMember secondMember different
  · intro file _ ne
    exact absurd rfl ne
  · exact disjoint.imp fun less _ => Or.inl less
  · exact disjoint.imp fun less _ => Or.inr less

/-- Files sorted by their smallest keys and pairwise apart are sorted and disjoint. -/
theorem disjointSorted_of_apart {files : List (FileMetaData α β)}
    (valid : ∀ file ∈ files, file.Valid)
    (ordered : files.Pairwise fun first second => first.smallest ≤ second.smallest)
    (apart : files.Pairwise FileMetaData.Apart) : DisjointSorted files := by
  refine (ordered.and apart).imp_of_mem fun firstMember secondMember both => ?_
  rcases both.2 with before | after
  · exact before
  · have bounds := (valid _ secondMember).smallest_le_largest
    exact absurd (after.trans_le both.1) (not_lt_of_ge bounds)

section Edit

variable {version : Version α β} {edit : VersionEdit α β} {target : Nat}
  {added : List (FileMetaData α β)}

omit [LinearOrder α] in
theorem newFilesAt_target (adds : edit.newFiles = added.map fun file => (target, file)) :
    edit.newFilesAt target = added := by
  unfold VersionEdit.newFilesAt
  rw [adds, List.filter_eq_self.mpr (by simp), List.map_map]
  exact List.map_id _

omit [LinearOrder α] in
theorem newFilesAt_other (adds : edit.newFiles = added.map fun file => (target, file)) {level : Nat}
    (other : level ≠ target) : edit.newFilesAt level = [] := by
  unfold VersionEdit.newFilesAt
  rw [adds, List.filter_eq_nil_iff.mpr (by simpa using fun _ _ => Ne.symm other), List.map_nil]

omit [LinearOrder α] in
theorem newFilesAt_nodup (adds : edit.newFiles = added.map fun file => (target, file))
    (numbers : (added.map FileMetaData.number).Nodup) (level : Nat) :
    ((edit.newFilesAt level).map FileMetaData.number).Nodup := by
  by_cases same : level = target
  · subst same
    rw [newFilesAt_target adds]
    exact numbers
  · rw [newFilesAt_other adds same]
    exact List.nodup_nil

/-- A file of the version the edit makes is an old one the edit leaves, or an added one. -/
theorem mem_applyEdit_adds (adds : edit.newFiles = added.map fun file => (target, file))
    (numbers : (added.map FileMetaData.number).Nodup) {level : Nat} {file : FileMetaData α β} :
    file ∈ (version.applyEdit edit).files level ↔
      (file ∈ version.files level ∧ ¬ edit.removes level file) ∨
        (level = target ∧ ∃ new ∈ added, file = preparedFile new) := by
  rw [mem_applyEdit_files (newFilesAt_nodup adds numbers level)]
  by_cases same : level = target
  · subst same
    rw [newFilesAt_target adds]
    simp
  · rw [newFilesAt_other adds same]
    simp [same]

/-- The conditions under which an edit that adds files at one level keeps the shape. -/
structure KeepsShape (version : Version α β) (edit : VersionEdit α β) (target : Nat)
    (added : List (FileMetaData α β)) : Prop where
  adds : edit.newFiles = added.map fun file => (target, file)
  numbers_nodup : (added.map FileMetaData.number).Nodup
  valid : ∀ file ∈ added, file.Valid
  disjoint : DisjointSorted added
  number_ne : ∀ level, ∀ file ∈ version.files level, ¬ edit.removes level file →
    ∀ new ∈ added, file.number ≠ new.number
  key_ne : ∀ level, ∀ file ∈ version.files level, ¬ edit.removes level file →
    ∀ new ∈ added, ∀ entry ∈ file.entries, ∀ entry' ∈ new.entries, entry.key ≠ entry'.key
  apart : 0 < target → ∀ file ∈ version.files target, ¬ edit.removes target file →
    ∀ new ∈ added, file.Apart new

theorem applyEdit_sorted (sorted : version.Sorted) (keeps : KeepsShape version edit target added) :
    (version.applyEdit edit).Sorted := by
  classical
  have nodup := newFilesAt_nodup keeps.adds keeps.numbers_nodup
  have valid : ∀ level, ∀ file ∈ (version.applyEdit edit).files level, file.Valid := by
    intro level file member
    rcases (mem_applyEdit_adds keeps.adds keeps.numbers_nodup).mp member with old | new
    · exact sorted.valid level file old.1
    · obtain ⟨_, source, inAdded, rfl⟩ := new
      exact preparedFile_valid (keeps.valid source inAdded)
  refine ⟨valid, fun level positive => ?_⟩
  obtain ⟨perm, ordered⟩ := applyEdit_files version edit level (nodup level)
  have oldDisjoint := sorted.disjoint level positive
  have oldOrdered : (version.files level).Pairwise
      fun first second => first.smallest ≤ second.smallest :=
    oldDisjoint.imp_of_mem fun firstMember _ less =>
      (sorted.valid level _ firstMember).smallest_le_largest.trans less.le
  refine disjointSorted_of_apart (valid level) (ordered oldOrdered) ?_
  refine (perm.pairwise_iff fun apart => FileMetaData.Apart.symm apart).mpr ?_
  refine List.pairwise_append.mpr ⟨?_, ?_, ?_⟩
  · exact (oldDisjoint.sublist List.filter_sublist).imp fun less => Or.inl less
  · by_cases same : level = target
    · subst same
      rw [newFilesAt_target keeps.adds]
      exact List.pairwise_map.mpr (keeps.disjoint.imp fun less => Or.inl less)
    · rw [newFilesAt_other keeps.adds same]
      exact List.Pairwise.nil
  · intro file member new newMember
    obtain ⟨inOld, stays⟩ := List.mem_filter.mp member
    obtain ⟨source, inAdded, rfl⟩ := List.mem_map.mp newMember
    by_cases same : level = target
    · subst same
      rw [newFilesAt_target keeps.adds] at inAdded
      exact keeps.apart positive file inOld (by simpa using stays) source inAdded
    · rw [newFilesAt_other keeps.adds same] at inAdded
      exact absurd inAdded List.not_mem_nil

theorem keys_ne_of_disjoint {files : List (FileMetaData α β)} (valid : ∀ file ∈ files, file.Valid)
    (disjoint : DisjointSorted files) {first second : FileMetaData α β} (firstMember : first ∈ files)
    (secondMember : second ∈ files) (different : first.number ≠ second.number) :
    ∀ entry ∈ first.entries, ∀ entry' ∈ second.entries, entry.key ≠ entry'.key := by
  intro entry member entry' member'
  rcases disjoint.apart firstMember secondMember different with less | less
  · exact ne_of_lt (((valid first firstMember).le_largest entry member).trans_lt
      (less.trans_le ((valid second secondMember).smallest_le entry' member')))
  · exact ne_of_gt (((valid second secondMember).le_largest entry' member').trans_lt
      (less.trans_le ((valid first firstMember).smallest_le entry member)))

/-- File numbers are distinct over all levels and below `next`. -/
structure Version.Counted (version : Version α β) (next : Nat) : Prop where
  numbers_nodup : ∀ level, ((version.files level).map FileMetaData.number).Nodup
  numbers_ne : ∀ level level', level ≠ level' → ∀ file ∈ version.files level,
    ∀ other ∈ version.files level', file.number ≠ other.number
  number_lt : ∀ level, ∀ file ∈ version.files level, file.number < next

/-- An edit that adds files with numbers of their own keeps the numbers distinct. -/
theorem Version.Counted.applyEdit {next next' : Nat} (counted : version.Counted next)
    (adds : edit.newFiles = added.map fun file => (target, file))
    (nodup : (added.map FileMetaData.number).Nodup)
    (number_ne : ∀ level, ∀ file ∈ version.files level, ¬ edit.removes level file →
      ∀ new ∈ added, file.number ≠ new.number)
    (nextLe : next ≤ next') (number_lt : ∀ new ∈ added, new.number < next') :
    (version.applyEdit edit).Counted next' := by
  classical
  refine ⟨fun level => ?_, ?_, ?_⟩
  · obtain ⟨perm, _⟩ := applyEdit_files version edit level (newFilesAt_nodup adds nodup level)
    refine (perm.map FileMetaData.number).nodup_iff.mpr ?_
    rw [List.map_append, List.map_map]
    refine List.Nodup.append ?_ ?_ ?_
    · exact (counted.numbers_nodup level).sublist (List.filter_sublist.map _)
    · exact newFilesAt_nodup adds nodup level
    · intro number inOld inNew
      obtain ⟨file, member, rfl⟩ := List.mem_map.mp inOld
      obtain ⟨new, newMember, same⟩ := List.mem_map.mp inNew
      obtain ⟨inFiles, stays⟩ := List.mem_filter.mp member
      by_cases isTarget : level = target
      · subst isTarget
        rw [newFilesAt_target adds] at newMember
        exact number_ne level file inFiles (by simpa using stays) new newMember same.symm
      · rw [newFilesAt_other adds isTarget] at newMember
        exact absurd newMember List.not_mem_nil
  · intro level level' differentLevel file member other otherMember
    rw [mem_applyEdit_adds adds nodup] at member otherMember
    rcases member with ⟨old, stays⟩ | ⟨isTarget, new, inAdded, rfl⟩
    · rcases otherMember with ⟨old', _⟩ | ⟨_, new, inAdded, rfl⟩
      · exact counted.numbers_ne level level' differentLevel file old other old'
      · exact number_ne level file old stays new inAdded
    · rcases otherMember with ⟨old', stays'⟩ | ⟨isTarget', _⟩
      · exact (number_ne level' other old' stays' new inAdded).symm
      · exact absurd (isTarget.trans isTarget'.symm) differentLevel
  · intro level file member
    rcases (mem_applyEdit_adds adds nodup).mp member with old | ⟨_, new, inAdded, rfl⟩
    · exact (counted.number_lt level file old.1).trans_le nextLe
    · exact number_lt new inAdded

theorem applyEdit_keys_ne (distinct : version.Distinct)
    (keeps : KeepsShape version edit target added) :
    ∀ level level', ∀ file ∈ (version.applyEdit edit).files level,
      ∀ other ∈ (version.applyEdit edit).files level', file.number ≠ other.number →
        ∀ entry ∈ file.entries, ∀ entry' ∈ other.entries, entry.key ≠ entry'.key := by
  intro level level' file member other otherMember different
  rw [mem_applyEdit_adds keeps.adds keeps.numbers_nodup] at member otherMember
  rcases member with ⟨old, stays⟩ | ⟨_, new, inAdded, rfl⟩
  · rcases otherMember with ⟨old', _⟩ | ⟨_, new, inAdded, rfl⟩
    · exact distinct.keys_ne level level' file old other old' different
    · exact keeps.key_ne level file old stays new inAdded
  · rcases otherMember with ⟨old', stays'⟩ | ⟨_, new', inAdded', rfl⟩
    · intro entry inNew entry' inOld
      exact (keeps.key_ne level' other old' stays' new inAdded entry' inOld entry inNew).symm
    · have numbers : new.number ≠ new'.number := different
      have keys := keys_ne_of_disjoint keeps.valid keeps.disjoint inAdded inAdded' numbers
      exact keys

theorem Version.Shape.counted {bound next : Nat} (shape : version.Shape bound next) :
    version.Counted next :=
  ⟨shape.distinct.numbers_nodup, shape.distinct.numbers_ne, shape.number_lt⟩

/-- An edit that adds files at one level and meets the conditions keeps the shape. -/
theorem Version.Shape.applyEdit {bound next bound' next' : Nat} (shape : version.Shape bound next)
    (keeps : KeepsShape version edit target added) (boundLe : bound ≤ bound')
    (nextLe : next ≤ next') (numberLt : ∀ file ∈ added, file.number < next')
    (sequenceLe : ∀ file ∈ added, ∀ entry ∈ file.entries, entry.sequence ≤ bound') :
    (version.applyEdit edit).Shape bound' next' := by
  have counted := shape.counted.applyEdit keeps.adds keeps.numbers_nodup keeps.number_ne nextLe
    numberLt
  refine ⟨applyEdit_sorted shape.sorted keeps, ⟨counted.numbers_nodup, counted.numbers_ne,
    applyEdit_keys_ne shape.distinct keeps⟩, counted.number_lt, ?_⟩
  intro level file member entry inFile
  rcases (mem_applyEdit_adds keeps.adds keeps.numbers_nodup).mp member with old | new
  · exact (shape.sequence_le level file old.1 entry inFile).trans boundLe
  · obtain ⟨_, source, inAdded, rfl⟩ := new
    exact sequenceLe source inAdded entry inFile

end Edit

/-! ### Flushes -/

omit [LinearOrder α] in
theorem buildTable_number {options : Options α β} {number : Nat} {entries : List (Entry α β)}
    {file : FileMetaData α β} (built : buildTable options number entries = some file) :
    file.number = number ∧ file.entries = entries := by
  cases entries with
  | nil => cases built
  | cons first rest => cases built; exact ⟨rfl, rfl⟩

theorem buildTable_valid {options : Options α β} {number : Nat} {entries : List (Entry α β)}
    {file : FileMetaData α β} (sorted : Sorted entries)
    (tags : ∀ entry ∈ entries,
      entry.key.tag ≤ packSequenceAndType kMaxSequenceNumber kValueTypeForSeek)
    (built : buildTable options number entries = some file) : file.Valid := by
  cases entries with
  | nil => cases built
  | cons first rest =>
    cases built
    refine ⟨sorted, tags, ⟨first, List.mem_cons_self, rfl⟩,
      ⟨_, List.getLast_mem (List.cons_ne_nil first rest), rfl⟩, ?_, ?_⟩
    · exact head_le_of_sorted sorted rfl
    · exact le_last_of_sorted sorted (List.getLast?_eq_some_getLast _)

/-- The edit of a flush adds one table at the level chosen for it, or nothing. -/
theorem writeLevel0Table_newFiles (options : Options α β) (base : Option (Version α β))
    (number : Nat) (mem : List (Entry α β)) :
    (writeLevel0Table options base number mem {}).deletedFiles = ∅ ∧
      ((buildTable options number mem = none ∧
          (writeLevel0Table options base number mem {}).newFiles = []) ∨
        ∃ file, buildTable options number mem = some file ∧
          (writeLevel0Table options base number mem {}).newFiles =
            [(outputLevel options base file, file)]) := by
  unfold writeLevel0Table
  cases built : buildTable options number mem with
  | none => exact ⟨rfl, Or.inl ⟨rfl, rfl⟩⟩
  | some file => exact ⟨rfl, Or.inr ⟨file, rfl, rfl⟩⟩

/-- Files whose user key ranges do not meet are apart. -/
theorem apart_of_not_meets {file other : FileMetaData α β}
    (notMeets : file.meets (some other.smallest.userKey) (some other.largest.userKey) = false) :
    file.Apart other := by
  by_contra notApart
  obtain ⟨notBefore, notAfter⟩ := not_or.mp notApart
  have meets := FileMetaData.meets_some_iff.mpr
    ⟨InternalKey.userKey_le_of_le (not_lt.mp notBefore),
      InternalKey.userKey_le_of_le (not_lt.mp notAfter)⟩
  rw [notMeets] at meets
  exact absurd meets (by simp)

omit [LinearOrder α] in
theorem not_removes_of_deletedFiles {edit : VersionEdit α β} (none : edit.deletedFiles = ∅)
    (level : Nat) (file : FileMetaData α β) : ¬ edit.removes level file := by
  rintro ⟨deleted, _⟩
  rw [none] at deleted
  exact absurd deleted (Finset.notMem_empty _)

/-- The files of a level after a flush: those before it, and its table at its level. -/
theorem mem_flush_files {version : Version α β} {options : Options α β} {number : Nat}
    {mem : List (Entry α β)} {level : Nat} {file : FileMetaData α β} :
    file ∈ (version.applyEdit (writeLevel0Table options (some version) number mem {})).files
        level ↔
      file ∈ version.files level ∨
        ∃ table, buildTable options number mem = some table ∧
          level = outputLevel options (some version) table ∧ file = preparedFile table := by
  obtain ⟨noDeletions, ⟨noTable, newFiles⟩ | ⟨table, built, newFiles⟩⟩ :=
    writeLevel0Table_newFiles options (some version) number mem
  · have adds : (writeLevel0Table options (some version) number mem {}).newFiles =
        ([] : List (FileMetaData α β)).map fun file => (0, file) := newFiles
    rw [mem_applyEdit_adds adds List.nodup_nil, noTable]
    simp [not_removes_of_deletedFiles noDeletions]
  · have adds : (writeLevel0Table options (some version) number mem {}).newFiles =
        [table].map fun other => (outputLevel options (some version) table, other) := newFiles
    rw [mem_applyEdit_adds adds (List.nodup_singleton _), built]
    simp [not_removes_of_deletedFiles noDeletions]

omit [LinearOrder α] in
theorem sequence_ne_key_ne {first second : Entry α β} (less : first.sequence < second.sequence) :
    first.key ≠ second.key := by
  intro same
  unfold Entry.sequence at less
  rw [same] at less
  exact absurd less (lt_irrefl _)

/-- A flushed table of newer entries keeps the shape, wherever the code places it. -/
theorem Version.Shape.flush {version : Version α β} {bound next bound' number : Nat}
    (shape : version.Shape bound next) (options : Options α β) {mem : List (Entry α β)}
    (sorted : LevelDb.Sorted mem)
    (tags : ∀ entry ∈ mem,
      entry.key.tag ≤ packSequenceAndType kMaxSequenceNumber kValueTypeForSeek)
    (newer : ∀ entry ∈ mem, bound < entry.sequence ∧ entry.sequence ≤ bound')
    (boundLe : bound ≤ bound') (fresh : next ≤ number) :
    (version.applyEdit (writeLevel0Table options (some version) number mem {})).Shape bound'
      (number + 1) := by
  obtain ⟨noDeletions, ⟨_, newFiles⟩ | ⟨file, built, newFiles⟩⟩ :=
    writeLevel0Table_newFiles options (some version) number mem
  · have keeps : KeepsShape version (writeLevel0Table options (some version) number mem {}) 0 [] :=
      { adds := newFiles
        numbers_nodup := List.nodup_nil
        valid := fun file member => absurd member List.not_mem_nil
        disjoint := List.Pairwise.nil
        number_ne := fun _ _ _ _ new member => absurd member List.not_mem_nil
        key_ne := fun _ _ _ _ new member => absurd member List.not_mem_nil
        apart := fun positive => absurd positive (lt_irrefl 0) }
    exact shape.applyEdit keeps boundLe (fresh.trans (Nat.le_succ _))
      (fun file member => absurd member List.not_mem_nil)
      (fun file member => absurd member List.not_mem_nil)
  · obtain ⟨isNumber, isEntries⟩ := buildTable_number built
    have single : ∀ new ∈ [file], new = file := fun new member => List.mem_singleton.mp member
    have keeps : KeepsShape version (writeLevel0Table options (some version) number mem {})
        (outputLevel options (some version) file) [file] :=
      { adds := newFiles
        numbers_nodup := List.nodup_singleton _
        valid := fun new member => single new member ▸ buildTable_valid sorted tags built
        disjoint := List.pairwise_singleton _ _
        number_ne := by
          intro level old member _ new newMember
          rw [single new newMember, isNumber]
          exact ne_of_lt ((shape.number_lt level old member).trans_le fresh)
        key_ne := by
          intro level old member _ new newMember entry inOld entry' inNew
          rw [single new newMember, isEntries] at inNew
          exact sequence_ne_key_ne
            ((shape.sequence_le level old member entry inOld).trans_lt (newer entry' inNew).1)
        apart := by
          intro positive old member _ new newMember
          rw [single new newMember]
          exact apart_of_not_meets (pickLevelForMemTableOutput_spec shape.sorted options _ _
            positive _ le_rfl old member) }
    refine shape.applyEdit keeps boundLe (fresh.trans (Nat.le_succ _)) ?_ ?_
    · intro new member
      rw [single new member, isNumber]
      exact Nat.lt_succ_self _
    · intro new member entry inNew
      rw [single new member, isEntries] at inNew
      exact (newer entry inNew).2

/-! ### Compactions -/

section Compaction

variable {version : Version α β} {compaction : Compaction α β}

/-- The entries of the inputs of a compaction. -/
def Compaction.inputEntries (compaction : Compaction α β) : Set (Entry α β) :=
  fileEntries (compaction.inputs0 ++ compaction.inputs1)

omit [LinearOrder α] in
theorem Version.Distinct.eq_of_number {version : Version α β} (distinct : version.Distinct)
    {level : Nat} {file other : FileMetaData α β} (member : file ∈ version.files level)
    (otherMember : other ∈ version.files level) (same : file.number = other.number) :
    file = other :=
  List.inj_on_of_nodup_map (distinct.numbers_nodup level) member otherMember same

theorem Compaction.Chosen.input_valid (sorted : version.Sorted) (chosen : compaction.Chosen version)
    {input : FileMetaData α β} (member : input ∈ compaction.inputs0 ++ compaction.inputs1) :
    input.Valid := by
  rcases List.mem_append.mp member with in0 | in1
  · exact sorted.valid _ input (chosen.inputs0_sublist.subset in0)
  · exact sorted.valid _ input (chosen.inputs1_sublist.subset in1)

/-- A file of the output level that is not an input lies wholly before or wholly after all
inputs. -/
theorem Compaction.Chosen.apart (sorted : version.Sorted) (distinct : version.Distinct)
    (chosen : compaction.Chosen version) {file : FileMetaData α β}
    (member : file ∈ version.files (compaction.level + 1)) (notInput : file ∉ compaction.inputs1) :
    (∀ entry ∈ compaction.inputEntries, file.largest < entry.key) ∨
      ∀ entry ∈ compaction.inputEntries, entry.key < file.smallest := by
  obtain ⟨range, isRange, inputs1Eq⟩ := chosen.inputs1_eq
  have notMeets : ¬ (range.1.userKey ≤ file.largest.userKey ∧
      file.smallest.userKey ≤ range.2.userKey) := by
    rw [← FileMetaData.meets_some_iff]
    intro meets
    exact notInput (inputs1Eq ▸ List.mem_filter.mpr ⟨member, meets⟩)
  have valid0 : ∀ input ∈ compaction.inputs0, input.Valid := fun input inInputs =>
    chosen.input_valid sorted (List.mem_append_left _ inInputs)
  have input1 : ∀ input ∈ compaction.inputs1, input.Valid ∧ file.Apart input ∧
      range.1.userKey ≤ input.largest.userKey ∧ input.smallest.userKey ≤ range.2.userKey := by
    intro input inInputs
    have inLevel := chosen.inputs1_sublist.subset inInputs
    have different : file.number ≠ input.number := fun same =>
      notInput (distinct.eq_of_number member inLevel same ▸ inInputs)
    rw [inputs1Eq] at inInputs
    exact ⟨sorted.valid _ input inLevel,
      (sorted.disjoint _ (Nat.succ_pos _)).apart member inLevel different,
      FileMetaData.meets_some_iff.mp (List.mem_filter.mp inInputs).2⟩
  have fileBounds := InternalKey.userKey_le_of_le (sorted.valid _ file member).smallest_le_largest
  rcases not_and_or.mp notMeets with before | after
  · refine Or.inl ?_
    rintro entry ⟨input, inInputs, inFile⟩
    rcases List.mem_append.mp inInputs with in0 | in1
    · have order := (isRange.le_smallest input in0).trans ((valid0 input in0).smallest_le entry inFile)
      exact InternalKey.lt_of_userKey_lt
        ((not_le.mp before).trans_le (InternalKey.userKey_le_of_le order))
    · obtain ⟨valid, apart, meets, _⟩ := input1 input in1
      rcases apart with less | greater
      · exact less.trans_le (valid.smallest_le entry inFile)
      · exact absurd ((meets.trans (InternalKey.userKey_le_of_lt greater)).trans fileBounds) before
  · refine Or.inr ?_
    rintro entry ⟨input, inInputs, inFile⟩
    rcases List.mem_append.mp inInputs with in0 | in1
    · have order := ((valid0 input in0).le_largest entry inFile).trans (isRange.largest_le input in0)
      exact InternalKey.lt_of_userKey_lt
        ((InternalKey.userKey_le_of_le order).trans_lt (not_le.mp after))
    · obtain ⟨valid, apart, _, meets⟩ := input1 input in1
      rcases apart with less | greater
      · exact absurd ((fileBounds.trans (InternalKey.userKey_le_of_lt less)).trans meets) after
      · exact (valid.le_largest entry inFile).trans_lt greater

/-- The output files of a compaction come from its inputs, so a file that lies before or after
all inputs is apart from them. -/
theorem apart_of_input_entries {file new : FileMetaData α β}
    (side : (∀ entry ∈ compaction.inputEntries, file.largest < entry.key) ∨
      ∀ entry ∈ compaction.inputEntries, entry.key < file.smallest) (valid : new.Valid)
    (entries : ∀ entry ∈ new.entries, entry ∈ compaction.inputEntries) : file.Apart new := by
  obtain ⟨first, firstMember, firstEq⟩ := valid.smallest_eq
  obtain ⟨last, lastMember, lastEq⟩ := valid.largest_eq
  rcases side with before | after
  · exact Or.inl (firstEq ▸ before first (entries first firstMember))
  · exact Or.inr (lastEq ▸ after last (entries last lastMember))

/-- The files a compaction takes out of the version: its inputs. -/
def Compaction.IsInput (compaction : Compaction α β) (level : Nat) (file : FileMetaData α β) :
    Prop :=
  (level = compaction.level ∧ file ∈ compaction.inputs0) ∨
    (level = compaction.level + 1 ∧ file ∈ compaction.inputs1)

theorem Compaction.IsInput.mem_files (chosen : compaction.Chosen version) {level : Nat}
    {file : FileMetaData α β} (isInput : compaction.IsInput level file) :
    file ∈ version.files level := by
  rcases isInput with ⟨rfl, member⟩ | ⟨rfl, member⟩
  · exact chosen.inputs0_sublist.subset member
  · exact chosen.inputs1_sublist.subset member

omit [LinearOrder α] in
theorem mem_inputEntries {entry : Entry α β} :
    entry ∈ compaction.inputEntries ↔
      ∃ level file, compaction.IsInput level file ∧ entry ∈ file.entries := by
  constructor
  · rintro ⟨file, member, inFile⟩
    rcases List.mem_append.mp member with in0 | in1
    · exact ⟨_, file, Or.inl ⟨rfl, in0⟩, inFile⟩
    · exact ⟨_, file, Or.inr ⟨rfl, in1⟩, inFile⟩
  · rintro ⟨level, file, ⟨_, in0⟩ | ⟨_, in1⟩, inFile⟩
    · exact ⟨file, List.mem_append_left _ in0, inFile⟩
    · exact ⟨file, List.mem_append_right _ in1, inFile⟩

/-- An edit that takes out the inputs of a chosen compaction and adds, at the output level,
files made of input entries keeps the shape. -/
theorem keepsShape_of_chosen {bound next : Nat} (shape : version.Shape bound next)
    (chosen : compaction.Chosen version) {edit : VersionEdit α β}
    {added : List (FileMetaData α β)}
    (adds : edit.newFiles = added.map fun file => (compaction.level + 1, file))
    (removes : ∀ level, ∀ file ∈ version.files level,
      compaction.IsInput level file → edit.removes level file)
    (numbers : (added.map FileMetaData.number).Nodup)
    (fresh : ∀ level, ∀ file ∈ version.files level, ¬ edit.removes level file →
      ∀ new ∈ added, file.number ≠ new.number)
    (valid : ∀ file ∈ added, file.Valid) (disjoint : DisjointSorted added)
    (entries : ∀ file ∈ added, ∀ entry ∈ file.entries, entry ∈ compaction.inputEntries) :
    KeepsShape version edit (compaction.level + 1) added := by
  have notInput : ∀ level, ∀ file ∈ version.files level, ¬ edit.removes level file →
      ¬ compaction.IsInput level file := fun level file member stays isInput =>
    stays (removes level file member isInput)
  refine ⟨adds, numbers, valid, disjoint, fresh, ?_, ?_⟩
  · intro level file member stays new newMember entry inFile entry' inNew
    obtain ⟨level', input, isInput, inInput⟩ :=
      mem_inputEntries.mp (entries new newMember entry' inNew)
    have different : file.number ≠ input.number := by
      intro same
      by_cases sameLevel : level = level'
      · subst sameLevel
        have equal := shape.distinct.eq_of_number member (isInput.mem_files chosen) same
        exact notInput level file member stays (equal ▸ isInput)
      · exact shape.distinct.numbers_ne level level' sameLevel file member input
          (isInput.mem_files chosen) same
    exact shape.distinct.keys_ne level level' file member input (isInput.mem_files chosen)
      different entry inFile entry' inInput
  · intro _ file member stays new newMember
    have outside : file ∉ compaction.inputs1 := fun inInputs =>
      notInput _ file member stays (Or.inr ⟨rfl, inInputs⟩)
    exact apart_of_input_entries (chosen.apart shape.sorted shape.distinct member outside)
      (valid new newMember) (entries new newMember)

/-! ### Trivial moves -/

omit [LinearOrder α] in
theorem moveEdit_eq {options : Options α β} (trivialMove : compaction.isTrivialMove options = true) :
    ∃ file, compaction.inputs0 = [file] ∧ compaction.inputs1 = [] ∧
      compaction.moveEdit.newFiles = [file].map (fun file => (compaction.level + 1, file)) ∧
      compaction.moveEdit.deletedFiles = {(compaction.level, file.number)} := by
  simp only [Compaction.isTrivialMove, Bool.and_eq_true, beq_iff_eq] at trivialMove
  obtain ⟨file, inputs0⟩ := List.length_eq_one_iff.mp trivialMove.1.1
  refine ⟨file, inputs0, List.length_eq_zero_iff.mp trivialMove.1.2, ?_⟩
  unfold Compaction.moveEdit
  rw [inputs0]
  exact ⟨rfl, rfl⟩

omit [LinearOrder α] in
theorem moveEdit_removes {options : Options α β}
    (trivialMove : compaction.isTrivialMove options = true) {level : Nat}
    {file : FileMetaData α β} (isInput : compaction.IsInput level file) :
    compaction.moveEdit.removes level file := by
  obtain ⟨input, inputs0, inputs1, newFiles, deletedFiles⟩ := moveEdit_eq trivialMove
  rcases isInput with ⟨rfl, member⟩ | ⟨_, member⟩
  · rw [inputs0, List.mem_singleton] at member
    subst member
    refine ⟨by rw [deletedFiles]; exact Finset.mem_singleton_self _, fun added inAdded => ?_⟩
    rw [newFilesAt_other newFiles (Nat.ne_of_lt (Nat.lt_succ_self compaction.level))] at inAdded
    exact absurd inAdded List.not_mem_nil
  · rw [inputs1] at member
    exact absurd member List.not_mem_nil

/-- A trivial move keeps the shape. -/
theorem Version.Shape.move {bound next : Nat} (shape : version.Shape bound next)
    (chosen : compaction.Chosen version) {options : Options α β}
    (trivialMove : compaction.isTrivialMove options = true) :
    (version.applyEdit compaction.moveEdit).Shape bound next := by
  obtain ⟨input, inputs0, _, newFiles, _⟩ := moveEdit_eq trivialMove
  have single : ∀ new ∈ [input], new = input := fun new member => List.mem_singleton.mp member
  have isInput : compaction.IsInput compaction.level input :=
    Or.inl ⟨rfl, by rw [inputs0]; exact List.mem_singleton.mpr rfl⟩
  have inLevel := isInput.mem_files chosen
  have fresh : ∀ level, ∀ file ∈ version.files level,
      ¬ compaction.moveEdit.removes level file → file.number ≠ input.number := by
    intro level file member stays same
    by_cases sameLevel : level = compaction.level
    · subst sameLevel
      have equal := shape.distinct.eq_of_number member inLevel same
      exact stays (equal ▸ moveEdit_removes trivialMove isInput)
    · exact shape.distinct.numbers_ne level _ sameLevel file member input inLevel same
  refine shape.applyEdit (keepsShape_of_chosen shape chosen newFiles
    (fun level file _ isInput => moveEdit_removes trivialMove isInput) (List.nodup_singleton _) ?_ ?_
    (List.pairwise_singleton _ _) ?_) le_rfl le_rfl ?_ ?_
  · intro level file member stays new newMember
    rw [single new newMember]
    exact fresh level file member stays
  · intro new member
    rw [single new member]
    exact shape.sorted.valid _ input inLevel
  · intro new member entry inNew
    rw [single new member] at inNew
    exact mem_inputEntries.mpr ⟨_, input, isInput, inNew⟩
  · intro new member
    rw [single new member]
    exact shape.number_lt _ input inLevel
  · intro new member entry inNew
    rw [single new member] at inNew
    exact shape.sequence_le _ input inLevel entry inNew

/-! ### Compactions with outputs -/

omit [LinearOrder α] in
theorem foldl_addFile (level : Nat) (files : List (FileMetaData α β)) (edit : VersionEdit α β) :
    (files.foldl (fun edit file => edit.addFile level file) edit).newFiles =
        edit.newFiles ++ files.map (fun file => (level, file)) ∧
      (files.foldl (fun edit file => edit.addFile level file) edit).deletedFiles =
        edit.deletedFiles := by
  induction files generalizing edit with
  | nil => exact ⟨(List.append_nil _).symm, rfl⟩
  | cons file rest inductionHypothesis =>
    obtain ⟨newFiles, deletedFiles⟩ := inductionHypothesis (edit.addFile level file)
    refine ⟨?_, deletedFiles⟩
    rw [List.foldl_cons, newFiles, VersionEdit.addFile, List.append_assoc, List.map_cons,
      List.singleton_append]

omit [LinearOrder α] in
theorem installEdit_newFiles (outputs : List (FileMetaData α β)) :
    (installEdit compaction outputs).newFiles =
      outputs.map fun file => (compaction.level + 1, file) := by
  rw [installEdit, (foldl_addFile _ _ _).1]
  rfl

omit [LinearOrder α] in
theorem mem_installEdit_deletedFiles {outputs : List (FileMetaData α β)} {level number : Nat} :
    (level, number) ∈ (installEdit compaction outputs).deletedFiles ↔
      ∃ file, compaction.IsInput level file ∧ file.number = number := by
  rw [installEdit, (foldl_addFile _ _ _).2]
  simp only [Compaction.addInputDeletions, Compaction.edit, VersionEdit.setCompactPointer,
    Finset.empty_union, Finset.mem_union, List.mem_toFinset, List.mem_map, Prod.mk.injEq]
  constructor
  · rintro (⟨file, member, rfl, rfl⟩ | ⟨file, member, rfl, rfl⟩)
    · exact ⟨file, Or.inl ⟨rfl, member⟩, rfl⟩
    · exact ⟨file, Or.inr ⟨rfl, member⟩, rfl⟩
  · rintro ⟨file, ⟨rfl, member⟩ | ⟨rfl, member⟩, rfl⟩
    · exact Or.inl ⟨file, member, rfl, rfl⟩
    · exact Or.inr ⟨file, member, rfl, rfl⟩

theorem installEdit_removes {bound next : Nat} (shape : version.Shape bound next)
    (chosen : compaction.Chosen version) {outputs : List (FileMetaData α β)}
    (fresh : ∀ new ∈ outputs, next ≤ new.number) {level : Nat} {file : FileMetaData α β}
    (member : file ∈ version.files level) :
    (installEdit compaction outputs).removes level file ↔ compaction.IsInput level file := by
  constructor
  · rintro ⟨deleted, _⟩
    obtain ⟨input, isInput, same⟩ := mem_installEdit_deletedFiles.mp deleted
    exact shape.distinct.eq_of_number (isInput.mem_files chosen) member same ▸ isInput
  · intro isInput
    refine ⟨mem_installEdit_deletedFiles.mpr ⟨file, isInput, rfl⟩, fun new inNew => ?_⟩
    rw [mem_newFilesAt, installEdit_newFiles, List.mem_map] at inNew
    obtain ⟨source, inOutputs, same⟩ := inNew
    rw [← (Prod.mk.inj same).2]
    exact ne_of_gt ((shape.number_lt level file member).trans_le (fresh source inOutputs))

/-- The outputs of a chosen compaction. -/
theorem doCompactionWork_spec {bound next : Nat} (shape : version.Shape bound next)
    (chosen : compaction.Chosen version) (options : Options α β) (smallestSnapshot : Nat) :
    OutputFiles next (doCompactionWork options compaction smallestSnapshot next).2
        (keptEntries compaction smallestSnapshot DropState.initial (makeInputIterator compaction))
        (doCompactionWork options compaction smallestSnapshot next).1 ∧
      ∀ file ∈ (doCompactionWork options compaction smallestSnapshot next).1,
        ∀ entry ∈ file.entries, entry ∈ compaction.inputEntries := by
  have inputOf : ∀ entry ∈ makeInputIterator compaction, entry ∈ compaction.inputEntries := by
    intro entry member
    exact mem_fileEntries.mpr ((makeInputIterator_perm compaction).mem_iff.mp member)
  refine ⟨doCompactionWork_outputs options compaction smallestSnapshot next
    (makeInputIterator_sorted shape.sorted shape.distinct chosen) ?_, ?_⟩
  · intro entry member
    obtain ⟨level, file, isInput, inFile⟩ := mem_inputEntries.mp (inputOf entry member)
    exact (shape.sorted.valid level file (isInput.mem_files chosen)).tag_le entry inFile
  · intro file member entry inFile
    have kept : entry ∈ (doCompactionWork options compaction smallestSnapshot next).1.flatMap
        FileMetaData.entries := List.mem_flatMap.mpr ⟨file, member, inFile⟩
    rw [doCompactionWork_entries] at kept
    exact inputOf entry ((keptEntries_sublist _ _ _ _).subset kept)

theorem OutputFiles.number_bounds {start next : Nat} {kept : List (Entry α β)}
    {files : List (FileMetaData α β)} (outputs : OutputFiles start next kept files)
    {file : FileMetaData α β} (member : file ∈ files) :
    start ≤ file.number ∧ file.number < next := by
  have inRange : file.number ∈ files.map FileMetaData.number := List.mem_map_of_mem member
  rw [outputs.numbers_eq, List.mem_range'_1] at inRange
  rw [outputs.next_eq]
  exact inRange

/-- A compaction keeps the shape, wherever its outputs are cut. -/
theorem Version.Shape.compact {bound next : Nat} (shape : version.Shape bound next)
    (chosen : compaction.Chosen version) (options : Options α β) (smallestSnapshot : Nat) :
    (version.applyEdit (installEdit compaction
      (doCompactionWork options compaction smallestSnapshot next).1)).Shape bound
        (doCompactionWork options compaction smallestSnapshot next).2 := by
  obtain ⟨outputs, entries⟩ := doCompactionWork_spec shape chosen options smallestSnapshot
  set files := (doCompactionWork options compaction smallestSnapshot next).1
  have fresh : ∀ new ∈ files, next ≤ new.number := fun new member =>
    (outputs.number_bounds member).1
  refine shape.applyEdit (keepsShape_of_chosen shape chosen (installEdit_newFiles files)
    (fun level file member isInput => (installEdit_removes shape chosen fresh member).mpr isInput)
    ?_ ?_ outputs.valid outputs.disjoint entries) le_rfl ?_ ?_ ?_
  · rw [outputs.numbers_eq]
    exact List.nodup_range'
  · intro level file member _ new newMember
    exact ne_of_lt ((shape.number_lt level file member).trans_le (fresh new newMember))
  · rw [outputs.next_eq]
    exact Nat.le_add_right _ _
  · intro new member
    exact (outputs.number_bounds member).2
  · intro new member entry inNew
    obtain ⟨level, input, isInput, inInput⟩ := mem_inputEntries.mp (entries new member entry inNew)
    exact shape.sequence_le level input (isInput.mem_files chosen) entry inInput

end Compaction

end LevelDb
