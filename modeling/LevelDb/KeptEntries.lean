/-
This file says what a manifest keeps of the entries that were ever in its tables: an entry stays in a
table of the version until an edit takes the table out, and that edit carries it on to one of its
own tables, or records that the compaction behind it has dropped it. A longer manifest keeps all that a
shorter one keeps.
-/

import LevelDb.SuccessiveEdits

namespace LevelDb

variable {α β : Type} [LinearOrder α]

/-! ### Entries of a manifest -/

/-- The entry is in a table of the version that is read of the records, or was dropped by a
compaction whose edit is one of them. -/
def Kept (records : List (ManifestRecord α β)) (entry : Entry α β) : Prop :=
  (versionOf (records.map ManifestRecord.edit)).Holds entry ∨
    ∃ record ∈ records, entry ∈ record.dropped

/-- The entries of the tables that the record deletes are in the tables that it adds, or dropped. -/
def ManifestRecord.Carries (record : ManifestRecord α β) (edits : List (VersionEdit α β)) : Prop :=
  ∀ level, ∀ file ∈ (versionOf edits).files level, (level, file.number) ∈ record.edit.deletedFiles →
    ∀ entry ∈ file.entries, entry ∈ record.dropped ∨
      ∃ added ∈ record.edit.newFiles, entry ∈ added.2.entries

section Records

variable {records : List (ManifestRecord α β)} {record : ManifestRecord α β}
  {edits : List (VersionEdit α β)} {edit : VersionEdit α β} {entry : Entry α β}

theorem Successive.mem_append_of_added (successive : Successive edits) (follows : edit.Follows edits)
    {level : Nat} {file : FileMetaData α β} (isAdded : (level, file) ∈ edit.newFiles) :
    preparedFile file ∈ (versionOf (edits ++ [edit])).files level := by
  have inEdit := mem_newFilesAt.mpr isAdded
  refine (mem_versionOf_iff (successive.append follows).placed.distinct).mpr ⟨⟨file, ?_, rfl⟩, ?_⟩
  · rw [addedAt_append]
    exact List.mem_append_right _ inEdit
  · rw [removed_append]
    exact fun removed => removed.2 file inEdit rfl

theorem Successive.mem_append_of_stays (successive : Successive edits) (follows : edit.Follows edits)
    {level : Nat} {file : FileMetaData α β} (inVersion : file ∈ (versionOf edits).files level)
    (stays : (level, file.number) ∉ edit.deletedFiles) :
    file ∈ (versionOf (edits ++ [edit])).files level := by
  obtain ⟨⟨new, isNew, isPrepared⟩, notRemoved⟩ :=
    (mem_versionOf_iff successive.placed.distinct).mp inVersion
  refine (mem_versionOf_iff (successive.append follows).placed.distinct).mpr
    ⟨⟨new, ?_, isPrepared⟩, ?_⟩
  · rw [addedAt_append]
    exact List.mem_append_left _ isNew
  · rw [removed_append]
    exact fun removed => removed.1.elim notRemoved stays

theorem kept_of_added (successive : Successive (records.map ManifestRecord.edit))
    (follows : record.edit.Follows (records.map ManifestRecord.edit))
    {added : Nat × FileMetaData α β} (isAdded : added ∈ record.edit.newFiles)
    (inFile : entry ∈ added.2.entries) : Kept (records ++ [record]) entry := by
  left
  rw [List.map_append]
  exact ⟨added.1, _, successive.mem_append_of_added follows isAdded, inFile⟩

/-- One more record keeps what was kept. -/
theorem Kept.append (kept : Kept records entry)
    (successive : Successive (records.map ManifestRecord.edit))
    (follows : record.edit.Follows (records.map ManifestRecord.edit))
    (carries : record.Carries (records.map ManifestRecord.edit)) :
    Kept (records ++ [record]) entry := by
  obtain ⟨level, file, inVersion, inFile⟩ | ⟨dropping, isRecord, isDropped⟩ := kept
  · by_cases deleted : (level, file.number) ∈ record.edit.deletedFiles
    · obtain isDropped | ⟨added, isAdded, inAdded⟩ :=
        carries level file inVersion deleted entry inFile
      · exact Or.inr ⟨record, List.mem_append_right _ (List.mem_singleton_self _), isDropped⟩
      · exact kept_of_added successive follows isAdded inAdded
    · left
      rw [List.map_append]
      exact ⟨level, file, successive.mem_append_of_stays follows inVersion deleted, inFile⟩
  · exact Or.inr ⟨dropping, List.mem_append_left _ isRecord, isDropped⟩

end Records

/-! ### Files of one number -/

/-- All files that the edits add with one number have the same entries. -/
theorem Successive.entries_eq {edits : List (VersionEdit α β)} (successive : Successive edits) :
    ∀ first ∈ addedFiles edits, ∀ second ∈ addedFiles edits,
      first.2.number = second.2.number → first.2.entries = second.2.entries := by
  induction successive with
  | nil => exact fun _ member => absurd member List.not_mem_nil
  | @append edits edit successive follows inductionHypothesis =>
    obtain adds | ⟨level, file, moves⟩ := follows.files
    · have isNew : ∀ old ∈ addedFiles edits, ∀ new ∈ edit.newFiles, old.2.number ≠ new.2.number :=
        fun old isOld new member => adds.isNew new member old isOld
      rw [addedFiles_append]
      intro first isFirst second isSecond same
      rcases List.mem_append.mp isFirst with oldFirst | newFirst
      · rcases List.mem_append.mp isSecond with oldSecond | newSecond
        · exact inductionHypothesis first oldFirst second oldSecond same
        · exact absurd same (isNew first oldFirst second newSecond)
      · rcases List.mem_append.mp isSecond with oldSecond | newSecond
        · exact absurd same.symm (isNew second oldSecond first newFirst)
        · rw [List.inj_on_of_nodup_map adds.distinct newFirst newSecond same]
    · obtain ⟨old, isOld, isPrepared⟩ := mem_versionOf moves.inVersion
      have known : ∀ added ∈ addedFiles (edits ++ [edit]), ∃ listed ∈ addedFiles edits,
          listed.2.number = added.2.number ∧ listed.2.entries = added.2.entries := by
        rw [addedFiles_append, moves.newFiles_eq]
        intro added member
        rcases List.mem_append.mp member with earlier | isMoved
        · exact ⟨added, earlier, rfl, rfl⟩
        · rw [List.mem_singleton.mp isMoved, isPrepared]
          exact ⟨_, isOld, rfl, rfl⟩
      intro first isFirst second isSecond same
      obtain ⟨listed, isListed, sameNumber, sameEntries⟩ := known first isFirst
      obtain ⟨listed', isListed', sameNumber', sameEntries'⟩ := known second isSecond
      rw [← sameEntries, ← sameEntries']
      exact inductionHypothesis listed isListed listed' isListed'
        (sameNumber.trans (same.trans sameNumber'.symm))

end LevelDb
