/-
This file models version edits and the builder that applies them (`db/version_edit`,
`VersionSet::Builder`, `VersionSet::Finalize` and the part of `VersionSet::LogAndApply` that
computes the new version). The builder keeps, per level, the numbers of deleted files and the
added files sorted by smallest key; saving merges the added files into the base list of the
level and drops the deleted ones.
-/

import LevelDb.Coding
import LevelDb.Version
import LevelDb.Lib.OrderedSet
import Mathlib.Data.Finset.Image
import Mathlib.Data.Finset.Prod

namespace LevelDb

variable {α β : Type}

/-- `VersionEdit`; an optional field that was not set is `none`. -/
structure VersionEdit (α β : Type) where
  comparator : Option Bytes := none
  logNumber : Option Nat := none
  prevLogNumber : Option Nat := none
  nextFileNumber : Option Nat := none
  lastSequence : Option Nat := none
  compactPointers : List (Nat × InternalKey α) := []
  deletedFiles : Finset (Nat × Nat) := ∅
  newFiles : List (Nat × FileMetaData α β) := []

namespace VersionEdit

def setLogNumber (edit : VersionEdit α β) (number : Nat) : VersionEdit α β :=
  { edit with logNumber := some number }

def setPrevLogNumber (edit : VersionEdit α β) (number : Nat) : VersionEdit α β :=
  { edit with prevLogNumber := some number }

def setNextFile (edit : VersionEdit α β) (number : Nat) : VersionEdit α β :=
  { edit with nextFileNumber := some number }

def setLastSequence (edit : VersionEdit α β) (sequence : Nat) : VersionEdit α β :=
  { edit with lastSequence := some sequence }

def setCompactPointer (edit : VersionEdit α β) (level : Nat) (key : InternalKey α) :
    VersionEdit α β :=
  { edit with compactPointers := edit.compactPointers ++ [(level, key)] }

def addFile (edit : VersionEdit α β) (level : Nat) (file : FileMetaData α β) : VersionEdit α β :=
  { edit with newFiles := edit.newFiles ++ [(level, file)] }

def deleteFile (edit : VersionEdit α β) (level number : Nat) : VersionEdit α β :=
  { edit with deletedFiles := insert (level, number) edit.deletedFiles }

end VersionEdit

/-! ### The builder -/

/-- What the builder has collected for one level. -/
structure LevelState (α β : Type) where
  deletedFiles : Finset Nat
  addedFiles : List (FileMetaData α β)

structure Builder (α β : Type) where
  base : Version α β
  levels : Nat → LevelState α β

def Builder.new (base : Version α β) : Builder α β := ⟨base, fun _ => ⟨∅, []⟩⟩

/-- The copy of a new file the builder keeps: one seek is allowed for every 16 KB of the
file, and at least a hundred. -/
def preparedFile (file : FileMetaData α β) : FileMetaData α β :=
  { file with allowedSeeks := max 100 (file.fileSize / 16384 : Nat) }

/-- The files an edit adds to a level, in order. -/
def VersionEdit.newFilesAt (edit : VersionEdit α β) (level : Nat) : List (FileMetaData α β) :=
  (edit.newFiles.filter fun pair => pair.1 = level).map Prod.snd

/-- The numbers an edit deletes from a level. -/
def VersionEdit.deletedFilesAt (edit : VersionEdit α β) (level : Nat) : Finset Nat :=
  (edit.deletedFiles.filter fun pair => pair.1 = level).image Prod.snd

theorem mem_newFilesAt {edit : VersionEdit α β} {level : Nat} {file : FileMetaData α β} :
    file ∈ edit.newFilesAt level ↔ (level, file) ∈ edit.newFiles := by
  unfold VersionEdit.newFilesAt
  constructor
  · intro member
    obtain ⟨⟨level', file'⟩, filtered, rfl⟩ := List.mem_map.mp member
    obtain ⟨inNew, same⟩ := List.mem_filter.mp filtered
    have equal : level' = level := by simpa using same
    exact equal ▸ inNew
  · intro member
    exact List.mem_map.mpr ⟨(level, file), List.mem_filter.mpr ⟨member, by simp⟩, rfl⟩

theorem mem_deletedFilesAt {edit : VersionEdit α β} {level number : Nat} :
    number ∈ edit.deletedFilesAt level ↔ (level, number) ∈ edit.deletedFiles := by
  unfold VersionEdit.deletedFilesAt
  simp

/-- The numbers an edit takes out of a level: deleted and not added again. -/
def VersionEdit.removes (edit : VersionEdit α β) (level : Nat) (file : FileMetaData α β) : Prop :=
  (level, file.number) ∈ edit.deletedFiles ∧
    ∀ added ∈ edit.newFilesAt level, added.number ≠ file.number

@[simp] theorem preparedFile_number (file : FileMetaData α β) :
    (preparedFile file).number = file.number := rfl

@[simp] theorem preparedFile_smallest (file : FileMetaData α β) :
    (preparedFile file).smallest = file.smallest := rfl

@[simp] theorem preparedFile_largest (file : FileMetaData α β) :
    (preparedFile file).largest = file.largest := rfl

@[simp] theorem preparedFile_entries (file : FileMetaData α β) :
    (preparedFile file).entries = file.entries := rfl

variable [LinearOrder α]

/-- `BySmallestKey`: by smallest key, ties broken by file number. -/
def bySmallestKey (first second : FileMetaData α β) : Bool :=
  if first.smallest ≠ second.smallest then first.smallest < second.smallest
  else first.number < second.number

/-- `Builder::Apply` for one new file of a level. -/
def LevelState.add (state : LevelState α β) (file : FileMetaData α β) : LevelState α β :=
  ⟨state.deletedFiles.erase file.number,
    Lib.setInsert bySmallestKey (preparedFile file) state.addedFiles⟩

/-- `Builder::Apply`. Its loops visit one level at a time, first the deletions and then the
additions; the compaction pointers it sets belong to the version set. -/
def Builder.apply (builder : Builder α β) (edit : VersionEdit α β) : Builder α β :=
  { builder with
    levels := fun level =>
      (edit.newFilesAt level).foldl LevelState.add
        ⟨(builder.levels level).deletedFiles ∪ edit.deletedFilesAt level,
          (builder.levels level).addedFiles⟩ }

/-- `Builder::SaveTo` and `MaybeAddFile` for one level. -/
def saveLevel (state : LevelState α β) (base : List (FileMetaData α β)) :
    List (FileMetaData α β) :=
  (Lib.mergeInto bySmallestKey state.addedFiles base).filter fun file =>
    file.number ∉ state.deletedFiles

def Builder.saveTo (builder : Builder α β) : Version α β :=
  { (Version.empty : Version α β) with
    files := fun level => saveLevel (builder.levels level) (builder.base.files level) }

/-! ### `Finalize` -/

/-- `MaxBytesForLevel`: ten megabytes at levels 0 and 1, ten times more per level below. -/
def maxBytesForLevel (level : Nat) : ℚ := 10 * 1048576 * 10 ^ (level - 1)

/-- The compaction score of a level, in exact arithmetic. -/
def compactionScoreAt (version : Version α β) (level : Nat) : ℚ :=
  if level = 0 then ((version.files 0).length : ℚ) / Config.kL0CompactionTrigger
  else (totalFileSize (version.files level) : ℚ) / maxBytesForLevel level

/-- The best level among the first `count` ones and its score. -/
def bestLevel (version : Version α β) : Nat → Nat × ℚ
  | 0 => (0, -1)
  | level + 1 =>
    let best := bestLevel version level
    if compactionScoreAt version level > best.2 then (level, compactionScoreAt version level)
    else best

def finalize (version : Version α β) : Version α β :=
  { version with
    compactionLevel := (bestLevel version (Config.kNumLevels - 1)).1
    compactionScore := (bestLevel version (Config.kNumLevels - 1)).2 }

/-- The version an edit makes of a base version. -/
def Version.applyEdit (base : Version α β) (edit : VersionEdit α β) : Version α β :=
  finalize ((Builder.new base).apply edit).saveTo

/-! ### What an edit does to a level -/

theorem preparedFile_valid {file : FileMetaData α β} (valid : file.Valid) :
    (preparedFile file).Valid :=
  ⟨valid.sorted, valid.tag_le, valid.smallest_eq, valid.largest_eq, valid.smallest_le,
    valid.le_largest⟩

theorem smallest_le_trans (first second third : FileMetaData α β)
    (order : first.smallest ≤ second.smallest) (order' : second.smallest ≤ third.smallest) :
    first.smallest ≤ third.smallest := order.trans order'

theorem bySmallestKey_true {first second : FileMetaData α β}
    (before : bySmallestKey first second = true) : first.smallest ≤ second.smallest := by
  unfold bySmallestKey at before
  split at before
  · exact le_of_lt (by simpa using before)
  · rename_i same
    exact le_of_eq (not_not.mp same)

theorem bySmallestKey_false {first second : FileMetaData α β}
    (notBefore : bySmallestKey first second = false) : second.smallest ≤ first.smallest := by
  unfold bySmallestKey at notBefore
  split at notBefore
  · exact le_of_not_gt (by simpa using notBefore)
  · rename_i same
    exact le_of_eq (not_not.mp same).symm

/-- Files with different numbers are never equivalent in the order of the builder. -/
theorem bySmallestKey_total {first second : FileMetaData α β}
    (different : first.number ≠ second.number) :
    bySmallestKey first second = true ∨ bySmallestKey second first = true := by
  unfold bySmallestKey
  by_cases same : first.smallest = second.smallest
  · simpa [same] using lt_or_gt_of_ne different
  · simp [same, Ne.symm same]

theorem foldl_add_deletedFiles (files : List (FileMetaData α β)) (state : LevelState α β)
    (number : Nat) :
    number ∈ (files.foldl LevelState.add state).deletedFiles ↔
      number ∈ state.deletedFiles ∧ ∀ file ∈ files, file.number ≠ number := by
  induction files generalizing state with
  | nil => simp
  | cons file rest inductionHypothesis =>
    rw [List.foldl_cons, inductionHypothesis]
    simp only [LevelState.add, Finset.mem_erase, List.forall_mem_cons]
    constructor
    · rintro ⟨⟨different, member⟩, others⟩
      exact ⟨member, Ne.symm different, others⟩
    · rintro ⟨member, different, others⟩
      exact ⟨⟨Ne.symm different, member⟩, others⟩

theorem foldl_add_pairwise (files : List (FileMetaData α β)) (state : LevelState α β)
    (sorted : state.addedFiles.Pairwise fun first second => first.smallest ≤ second.smallest) :
    (files.foldl LevelState.add state).addedFiles.Pairwise
      fun first second => first.smallest ≤ second.smallest := by
  induction files generalizing state with
  | nil => exact sorted
  | cons file rest inductionHypothesis =>
    exact inductionHypothesis _
      (Lib.setInsert_pairwise bySmallestKey smallest_le_trans (fun _ _ => bySmallestKey_true) sorted)

/-- New files with distinct numbers all enter the sorted set of the level. -/
theorem foldl_add_perm (files : List (FileMetaData α β)) (state : LevelState α β)
    (distinct : ((state.addedFiles ++ files).map FileMetaData.number).Nodup) :
    (files.foldl LevelState.add state).addedFiles.Perm
      (state.addedFiles ++ files.map preparedFile) := by
  induction files generalizing state with
  | nil => simp
  | cons file rest inductionHypothesis =>
    have inserted : (state.add file).addedFiles.Perm (preparedFile file :: state.addedFiles) := by
      rcases Lib.setInsert_perm bySmallestKey (preparedFile file) state.addedFiles with perm | same
      · exact perm
      · have member : preparedFile file ∈ state.addedFiles := by
          rw [← same]
          refine Lib.mem_setInsert_self bySmallestKey fun other inAdded => ?_
          refine bySmallestKey_total fun equal => ?_
          rw [List.map_append, List.nodup_append] at distinct
          exact distinct.2.2 other.number (List.mem_map_of_mem inAdded) file.number
            (List.mem_map_of_mem List.mem_cons_self) equal.symm
        rw [List.map_append, List.nodup_append] at distinct
        exact absurd rfl (distinct.2.2 _ (List.mem_map_of_mem member) file.number
          (List.mem_map_of_mem List.mem_cons_self))
    have restDistinct :
        (((state.add file).addedFiles ++ rest).map FileMetaData.number).Nodup := by
      have perm : (((state.add file).addedFiles ++ rest).map FileMetaData.number).Perm
          ((state.addedFiles ++ file :: rest).map FileMetaData.number) := by
        rw [List.map_append, List.map_append]
        refine ((inserted.map FileMetaData.number).append_right _).trans ?_
        exact List.perm_middle.symm
      exact perm.nodup_iff.mpr distinct
    refine (inductionHypothesis _ restDistinct).trans ?_
    refine (inserted.append_right _).trans ?_
    exact List.perm_middle.symm

/-- The one description of an edited level: the level of the new version is the merge of the
base files that the edit does not remove with the files it adds, sorted by smallest key. -/
theorem applyEdit_files (base : Version α β) (edit : VersionEdit α β) (level : Nat)
    (distinct : ((edit.newFilesAt level).map FileMetaData.number).Nodup)
    [DecidablePred (edit.removes level)] :
    ((base.applyEdit edit).files level).Perm
        ((base.files level).filter (fun file => ¬ edit.removes level file) ++
          (edit.newFilesAt level).map preparedFile) ∧
      ((base.files level).Pairwise (fun first second => first.smallest ≤ second.smallest) →
        ((base.applyEdit edit).files level).Pairwise
          fun first second => first.smallest ≤ second.smallest) := by
  set state := (edit.newFilesAt level).foldl LevelState.add
    (⟨∅ ∪ edit.deletedFilesAt level, []⟩ : LevelState α β) with stateEq
  have files : (base.applyEdit edit).files level = saveLevel state (base.files level) := rfl
  have deleted : ∀ file : FileMetaData α β,
      file.number ∈ state.deletedFiles ↔ edit.removes level file := by
    intro file
    rw [stateEq, foldl_add_deletedFiles]
    simp only [Finset.empty_union, mem_deletedFilesAt]
    rfl
  have added : state.addedFiles.Perm ((edit.newFilesAt level).map preparedFile) := by
    have perm := foldl_add_perm (edit.newFilesAt level)
      (⟨∅ ∪ edit.deletedFilesAt level, []⟩ : LevelState α β) (by simpa using distinct)
    rwa [List.nil_append] at perm
  have addedKept : ∀ file ∈ state.addedFiles, ¬ edit.removes level file := by
    intro file member removes
    obtain ⟨new, inNew, rfl⟩ := List.mem_map.mp (added.mem_iff.mp member)
    exact removes.2 new inNew rfl
  rw [files]
  unfold saveLevel
  constructor
  · refine ((Lib.mergeInto_perm bySmallestKey state.addedFiles (base.files level)).filter _).trans ?_
    rw [List.filter_append]
    refine List.Perm.append (List.Perm.of_eq ?_) ?_
    · refine List.filter_congr fun file _ => ?_
      simp only [deleted]
    · rw [List.filter_eq_self.mpr fun file member => by
        simpa [deleted] using addedKept file member]
      exact added
  · intro baseSorted
    refine List.Pairwise.sublist List.filter_sublist ?_
    refine Lib.mergeInto_pairwise bySmallestKey smallest_le_trans
      (fun _ _ => bySmallestKey_true) (fun _ _ => bySmallestKey_false) ?_ baseSorted
    exact foldl_add_pairwise _ _ List.Pairwise.nil

theorem mem_applyEdit_files {base : Version α β} {edit : VersionEdit α β} {level : Nat}
    (distinct : ((edit.newFilesAt level).map FileMetaData.number).Nodup)
    {file : FileMetaData α β} :
    file ∈ (base.applyEdit edit).files level ↔
      (file ∈ base.files level ∧ ¬ edit.removes level file) ∨
        ∃ new ∈ edit.newFilesAt level, file = preparedFile new := by
  classical
  rw [(applyEdit_files base edit level distinct).1.mem_iff, List.mem_append, List.mem_filter,
    List.mem_map]
  simp only [decide_eq_true_eq]
  refine or_congr Iff.rfl ⟨?_, ?_⟩
  · rintro ⟨new, member, equal⟩
    exact ⟨new, member, equal.symm⟩
  · rintro ⟨new, member, equal⟩
    exact ⟨new, member, equal.symm⟩

end LevelDb
