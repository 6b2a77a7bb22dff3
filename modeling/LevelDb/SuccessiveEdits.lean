/-
This file describes the edits that a database writes to its manifest one after the other: each adds
files with new numbers, or moves a file of the version one level down. Reading a manifest feeds all
edits to one builder; for such edits this gives the files that applying them one at a time gives,
so one more edit in a manifest is one more edit applied to the version.
-/

import LevelDb.EditReplay
import LevelDb.RecoverableFiles

namespace LevelDb

variable {α β : Type}

/-! ### Edits that follow each other -/

/-- None of the edits adds a file of the number. -/
def NewNumber (edits : List (VersionEdit α β)) (number : Nat) : Prop :=
  ∀ added ∈ addedFiles edits, added.2.number ≠ number

/-- The edit adds files of different numbers, none of which is taken. -/
structure VersionEdit.AddsNew (edit : VersionEdit α β) (edits : List (VersionEdit α β)) : Prop where
  distinct : (edit.newFiles.map fun added => added.2.number).Nodup
  isNew : ∀ added ∈ edit.newFiles, NewNumber edits added.2.number

variable {edits : List (VersionEdit α β)} {edit : VersionEdit α β}

theorem newNumber_append {number : Nat} :
    NewNumber (edits ++ [edit]) number ↔
      NewNumber edits number ∧ ∀ added ∈ edit.newFiles, added.2.number ≠ number := by
  rw [NewNumber, addedFiles_append, List.forall_mem_append]
  rfl

theorem mem_addedAt {level : Nat} {file : FileMetaData α β} :
    file ∈ addedAt edits level ↔ (level, file) ∈ addedFiles edits := by
  rw [addedAt, addedFiles, List.mem_flatMap, List.mem_flatMap]
  exact exists_congr fun edit => and_congr_right fun _ => mem_newFilesAt

variable [LinearOrder α]

/-- The edit takes a file of the version one level down. -/
structure VersionEdit.MovesDown (edit : VersionEdit α β) (edits : List (VersionEdit α β))
    (level : Nat) (file : FileMetaData α β) : Prop where
  inVersion : file ∈ (versionOf edits).files level
  newFiles_eq : edit.newFiles = [(level + 1, file)]
  deletes : (level, file.number) ∈ edit.deletedFiles

/-- The edit is one that a database writes after the others. -/
structure VersionEdit.Follows (edit : VersionEdit α β) (edits : List (VersionEdit α β)) : Prop where
  levels : ∀ added ∈ edit.newFiles, added.1 < Config.kNumLevels
  files : edit.AddsNew edits ∨ ∃ level file, edit.MovesDown edits level file

/-- Edits that were written one after the other. -/
inductive Successive : List (VersionEdit α β) → Prop
  | nil : Successive []
  | append {edits : List (VersionEdit α β)} {edit : VersionEdit α β} (successive : Successive edits)
      (follows : edit.Follows edits) : Successive (edits ++ [edit])

theorem Successive.take (successive : Successive edits)
    (kept : Nat) : Successive (edits.take kept) := by
  induction successive with
  | nil =>
    rw [List.take_nil]
    exact .nil
  | @append edits edit successive follows inductionHypothesis =>
    rcases take_append_singleton edits edit kept with ⟨same, -⟩ | ⟨same, -⟩
    · rw [same]
      exact inductionHypothesis
    · rw [same]
      exact successive.append follows

theorem Successive.levels (successive : Successive edits) :
    ∀ added ∈ addedFiles edits, added.1 < Config.kNumLevels := by
  induction successive with
  | nil => exact fun _ member => absurd member List.not_mem_nil
  | append _ follows inductionHypothesis =>
    rw [addedFiles_append]
    exact List.forall_mem_append.mpr ⟨inductionHypothesis, follows.levels⟩

/-! ### No number comes back to a level -/

/-- No level is given a number twice, and no file of the version has been at a deeper level. -/
structure Placed (edits : List (VersionEdit α β)) : Prop where
  distinct : ∀ level, ((addedAt edits level).map FileMetaData.number).Nodup
  deepest : ∀ level, ∀ file ∈ (versionOf edits).files level, ∀ added ∈ addedFiles edits,
    added.2.number = file.number → added.1 ≤ level

section Batched

variable {edits : List (VersionEdit α β)}

omit [LinearOrder α] in
theorem apart_empty (distinct : ∀ level, ((addedAt edits level).map FileMetaData.number).Nodup)
    (level : Nat) : Apart ((Version.empty : Version α β).files level) (addedAt edits level) :=
  ⟨distinct level, fun _ isOld => absurd isOld List.not_mem_nil⟩

theorem versionOf_files_eq
    (distinct : ∀ level, ((addedAt edits level).map FileMetaData.number).Nodup) :
    (versionOf edits).files = (edits.foldl Version.applyEdit Version.empty).files :=
  saveTo_new_files (fun _ => List.Pairwise.nil) (apart_empty distinct)

theorem versionOf_ranked (distinct : ∀ level, ((addedAt edits level).map FileMetaData.number).Nodup)
    (level : Nat) : Ranked ((versionOf edits).files level) := by
  rw [versionOf_files_eq distinct]
  exact foldl_applyEdit_ranked (fun _ => List.Pairwise.nil) (apart_empty distinct) level

theorem mem_versionOf_iff (distinct : ∀ level, ((addedAt edits level).map FileMetaData.number).Nodup)
    {level : Nat} {file : FileMetaData α β} :
    file ∈ (versionOf edits).files level ↔
      (∃ new ∈ addedAt edits level, file = preparedFile new) ∧
        ¬ Removed edits level file.number := by
  rw [versionOf_files_eq distinct, mem_foldl_applyEdit (apart_empty distinct level)]
  exact and_congr_left fun _ => or_iff_right List.not_mem_nil

end Batched

/-- One more edit in a manifest is one more edit applied to the version. -/
theorem versionOf_append (placed : Placed edits) (placed' : Placed (edits ++ [edit])) :
    (versionOf (edits ++ [edit])).files = ((versionOf edits).applyEdit edit).files := by
  rw [versionOf_files_eq placed'.distinct, List.foldl_append]
  exact foldl_applyEdit_files_congr (versionOf_files_eq placed.distinct).symm [edit]

section Append

variable {edits : List (VersionEdit α β)} {edit : VersionEdit α β}

omit [LinearOrder α] in
theorem VersionEdit.AddsNew.distinct_append (adds : edit.AddsNew edits)
    (distinct : ∀ level, ((addedAt edits level).map FileMetaData.number).Nodup) (level : Nat) :
    ((addedAt (edits ++ [edit]) level).map FileMetaData.number).Nodup := by
  rw [addedAt_append, List.map_append, List.nodup_append]
  refine ⟨distinct level, ?_, ?_⟩
  · rw [VersionEdit.newFilesAt, List.map_map]
    exact adds.distinct.sublist (List.filter_sublist.map _)
  · intro number isOld other isNew same
    obtain ⟨old, inOld, rfl⟩ := List.mem_map.mp isOld
    obtain ⟨new, inNew, rfl⟩ := List.mem_map.mp isNew
    exact adds.isNew (level, new) (mem_newFilesAt.mp inNew) (level, old) (mem_addedAt.mp inOld) same

theorem VersionEdit.MovesDown.distinct_append {from' : Nat} {file : FileMetaData α β}
    (moves : edit.MovesDown edits from' file) (placed : Placed edits) (level : Nat) :
    ((addedAt (edits ++ [edit]) level).map FileMetaData.number).Nodup := by
  rw [addedAt_append, List.map_append, List.nodup_append, VersionEdit.newFilesAt,
    moves.newFiles_eq]
  refine ⟨placed.distinct level, ?_, ?_⟩
  · exact (List.nodup_singleton file.number).sublist ((List.filter_sublist.map _).map _)
  · intro number isOld other isNew same
    obtain ⟨old, inOld, rfl⟩ := List.mem_map.mp isOld
    obtain ⟨new, inNew, rfl⟩ := List.mem_map.mp isNew
    obtain ⟨added, isAdded, rfl⟩ := List.mem_map.mp inNew
    obtain ⟨isMoved, atLevel⟩ := List.mem_filter.mp isAdded
    rw [List.mem_singleton.mp isMoved] at atLevel same
    have here : from' + 1 = level := of_decide_eq_true atLevel
    have deep := placed.deepest from' file moves.inVersion (level, old) (mem_addedAt.mp inOld) same
    exact absurd deep (by rw [← here]; exact Nat.not_succ_le_self from')

/-- A file that the edit neither adds nor deletes at its level was in the version before. -/
theorem inVersion_before
    (distinct : ∀ level, ((addedAt edits level).map FileMetaData.number).Nodup)
    (distinct' : ∀ level, ((addedAt (edits ++ [edit]) level).map FileMetaData.number).Nodup)
    {level : Nat} {file : FileMetaData α β}
    (inVersion : file ∈ (versionOf (edits ++ [edit])).files level)
    (notAdded : ∀ new ∈ edit.newFilesAt level, new.number ≠ file.number) :
    file ∈ (versionOf edits).files level ∧ (level, file.number) ∉ edit.deletedFiles := by
  obtain ⟨⟨new, isNew, rfl⟩, stays⟩ := (mem_versionOf_iff distinct').mp inVersion
  rw [addedAt_append] at isNew
  rw [removed_append, not_and'] at stays
  obtain ⟨notRemoved, notDeleted⟩ := not_or.mp (stays notAdded)
  refine ⟨(mem_versionOf_iff distinct).mpr ⟨⟨new, ?_, rfl⟩, notRemoved⟩, notDeleted⟩
  refine (List.mem_append.mp isNew).resolve_right fun inLast => notAdded new inLast rfl

theorem Placed.append_new (placed : Placed edits) (adds : edit.AddsNew edits) :
    Placed (edits ++ [edit]) := by
  have distinct := adds.distinct_append placed.distinct
  refine ⟨distinct, fun level file inVersion added isAdded same => ?_⟩
  rw [addedFiles_append] at isAdded
  by_cases isNew : ∃ new ∈ edit.newFilesAt level, new.number = file.number
  · obtain ⟨new, inNew, sameNumber⟩ := isNew
    have inEdit := mem_newFilesAt.mp inNew
    obtain earlier | inLast := List.mem_append.mp isAdded
    · exact absurd (same.trans sameNumber.symm) (adds.isNew _ inEdit added earlier)
    · have isSame := List.inj_on_of_nodup_map adds.distinct inLast inEdit
        (same.trans sameNumber.symm)
      rw [isSame]
  · have notAdded : ∀ new ∈ edit.newFilesAt level, new.number ≠ file.number :=
      fun new member number => isNew ⟨new, member, number⟩
    obtain ⟨before, -⟩ := inVersion_before placed.distinct distinct inVersion notAdded
    obtain earlier | inLast := List.mem_append.mp isAdded
    · exact placed.deepest level file before added earlier same
    · obtain ⟨old, isOld, rfl⟩ := mem_versionOf before
      exact absurd same.symm (adds.isNew added inLast (level, old) isOld)

theorem Placed.append_move (placed : Placed edits) {from' : Nat} {moved : FileMetaData α β}
    (moves : edit.MovesDown edits from' moved) : Placed (edits ++ [edit]) := by
  have distinct := moves.distinct_append placed
  refine ⟨distinct, fun level file inVersion added isAdded same => ?_⟩
  have news : ∀ {new}, new ∈ edit.newFilesAt level → new = moved ∧ from' + 1 = level := by
    intro new member
    have inEdit := mem_newFilesAt.mp member
    rw [moves.newFiles_eq] at inEdit
    obtain ⟨isLevel, isMoved⟩ := Prod.mk.inj (List.mem_singleton.mp inEdit)
    exact ⟨isMoved, isLevel.symm⟩
  rw [addedFiles_append, moves.newFiles_eq] at isAdded
  by_cases isMoved : file.number = moved.number
  · have bound : added.1 ≤ from' + 1 := by
      obtain earlier | inLast := List.mem_append.mp isAdded
      · exact (placed.deepest from' moved moves.inVersion added earlier
          (same.trans isMoved)).trans (Nat.le_succ _)
      · rw [List.mem_singleton.mp inLast]
    by_cases here : from' + 1 = level
    · exact here ▸ bound
    · have notAdded : ∀ new ∈ edit.newFilesAt level, new.number ≠ file.number :=
        fun new member _ => here (news member).2
      obtain ⟨before, notDeleted⟩ := inVersion_before placed.distinct distinct inVersion notAdded
      obtain ⟨old, isOld, isPrepared⟩ := mem_versionOf before
      obtain ⟨old', isOld', isPrepared'⟩ := mem_versionOf moves.inVersion
      have up := placed.deepest from' moved moves.inVersion (level, old) isOld (by
        rw [← isMoved, isPrepared]
        rfl)
      have down := placed.deepest level file before (from', old') isOld' (by
        rw [isMoved, isPrepared']
        rfl)
      have sameLevel : level = from' := le_antisymm up down
      rw [sameLevel, isMoved] at notDeleted
      exact absurd moves.deletes notDeleted
  · have notAdded : ∀ new ∈ edit.newFilesAt level, new.number ≠ file.number := by
      intro new member number
      rw [(news member).1] at number
      exact isMoved number.symm
    obtain ⟨before, -⟩ := inVersion_before placed.distinct distinct inVersion notAdded
    obtain earlier | inLast := List.mem_append.mp isAdded
    · exact placed.deepest level file before added earlier same
    · rw [List.mem_singleton.mp inLast] at same
      exact absurd same.symm isMoved

theorem Placed.append (placed : Placed edits) (follows : edit.Follows edits) :
    Placed (edits ++ [edit]) := by
  obtain adds | ⟨level, file, moves⟩ := follows.files
  · exact placed.append_new adds
  · exact placed.append_move moves

end Append

theorem Successive.placed (successive : Successive edits) :
    Placed edits := by
  induction successive with
  | nil => exact ⟨fun _ => List.nodup_nil, fun _ _ _ _ member => absurd member List.not_mem_nil⟩
  | append _ follows inductionHypothesis => exact inductionHypothesis.append follows

/-- What is read after an edit was written is the version before it with the edit applied. -/
theorem Successive.versionOf_append (successive : Successive edits) (follows : edit.Follows edits) :
    (versionOf (edits ++ [edit])).files = ((versionOf edits).applyEdit edit).files :=
  LevelDb.versionOf_append successive.placed (successive.append follows).placed

theorem Successive.of_append
    (successive : Successive (edits ++ [edit])) : Successive edits ∧ edit.Follows edits := by
  generalize isWhole : edits ++ [edit] = whole at successive
  cases successive with
  | nil => exact absurd isWhole (List.append_ne_nil_of_right_ne_nil _ (List.cons_ne_nil _ _))
  | append successive follows =>
    obtain ⟨rfl, same⟩ := List.append_inj' isWhole rfl
    obtain rfl := List.head_eq_of_cons_eq same
    exact ⟨successive, follows⟩

/-! ### Snapshots -/

section Snapshot

variable {edits : List (VersionEdit α β)} {memory : Memory α β}

omit [LinearOrder α] in
theorem mem_snapshot_newFiles {added : Nat × FileMetaData α β} :
    added ∈ memory.snapshot.newFiles ↔
      added.1 < Config.kNumLevels ∧ added.2 ∈ memory.db.version.files added.1 := by
  rw [Memory.snapshot, List.mem_flatMap]
  constructor
  · rintro ⟨level, inRange, inLevel⟩
    obtain ⟨file, inFiles, rfl⟩ := List.mem_map.mp inLevel
    exact ⟨List.mem_range.mp inRange, inFiles⟩
  · rintro ⟨inRange, inFiles⟩
    exact ⟨added.1, List.mem_range.mpr inRange, List.mem_map.mpr ⟨added.2, inFiles, rfl⟩⟩

theorem Placed.eq_of_number (placed : Placed edits) {level : Nat} {first second : FileMetaData α β}
    (isFirst : first ∈ (versionOf edits).files level)
    (isSecond : second ∈ (versionOf edits).files level) (same : first.number = second.number) :
    first = second := by
  obtain ⟨⟨new, isNew, rfl⟩, -⟩ := (mem_versionOf_iff placed.distinct).mp isFirst
  obtain ⟨⟨new', isNew', rfl⟩, -⟩ := (mem_versionOf_iff placed.distinct).mp isSecond
  rw [List.inj_on_of_nodup_map (placed.distinct level) isNew isNew' same]

theorem Placed.level_numbers_nodup (placed : Placed edits) (level : Nat) :
    (((versionOf edits).files level).map FileMetaData.number).Nodup :=
  List.Nodup.map_on (fun _ isFirst _ isSecond same => placed.eq_of_number isFirst isSecond same)
    (List.Nodup.of_map _ (versionOf_ranked placed.distinct level).nodup)

/-- No two files of the version have one number. -/
theorem Placed.numbers_nodup (placed : Placed edits) (count : Nat) :
    (((List.range count).flatMap fun level =>
      ((versionOf edits).files level).map fun file => (level, file)).map
        fun added => added.2.number).Nodup := by
  rw [List.map_flatMap, List.nodup_flatMap]
  refine ⟨fun level _ => ?_, List.pairwise_lt_range.imp fun {level other} less => ?_⟩
  · rw [List.map_map]
    exact placed.level_numbers_nodup level
  · rw [Function.onFun, List.map_map, List.map_map]
    intro number inLevel inOther
    obtain ⟨file, isFile, rfl⟩ := List.mem_map.mp inLevel
    obtain ⟨file', isFile', same⟩ := List.mem_map.mp inOther
    obtain ⟨new, isNew, rfl⟩ := mem_versionOf isFile'
    exact absurd (placed.deepest level file isFile (other, new) isNew same) (Nat.not_le.mpr less)

theorem Successive.files_eq_nil (successive : Successive edits) {level : Nat}
    (deep : Config.kNumLevels ≤ level) : (versionOf edits).files level = [] := by
  refine List.eq_nil_iff_forall_not_mem.mpr fun file isFile => ?_
  obtain ⟨new, isNew, -⟩ := mem_versionOf isFile
  exact absurd (successive.levels (level, new) isNew) (Nat.not_lt.mpr deep)

/-- The edit of a snapshot is one that can begin a manifest. -/
theorem Successive.snapshot_follows (successive : Successive edits)
    (same : memory.db.version.files = (versionOf edits).files) : memory.snapshot.Follows [] := by
  refine ⟨fun added isAdded => (mem_snapshot_newFiles.mp isAdded).1, .inl ⟨?_, ?_⟩⟩
  · have nodup := successive.placed.numbers_nodup Config.kNumLevels
    rw [← same] at nodup
    exact nodup
  · exact fun _ _ _ isOld => absurd isOld List.not_mem_nil

/-- The snapshot of a version makes its files out of nothing. -/
theorem Successive.versionOf_snapshot (successive : Successive edits)
    (same : memory.db.version.files = (versionOf edits).files) :
    (versionOf [memory.snapshot]).files = memory.db.version.files := by
  funext level
  have isApplied : (versionOf [memory.snapshot]).files level =
      saveLevel ((memory.snapshot.newFilesAt level).foldl LevelState.add ⟨∅ ∪ ∅, []⟩) [] := rfl
  have files : memory.snapshot.newFilesAt level = memory.db.version.files level := by
    refine (filter_flatMap_range memory.db.version.files Config.kNumLevels level).trans ?_
    split
    · rfl
    · rename_i deep
      rw [same, successive.files_eq_nil (Nat.not_lt.mp deep)]
  rw [isApplied, files, same, saveLevel_of_ranked (versionOf_ranked successive.placed.distinct level)
    (successive.placed.level_numbers_nodup level)]
  refine (List.map_congr_left fun file isFile => ?_).trans (List.map_id _)
  obtain ⟨new, -, rfl⟩ := mem_versionOf isFile
  rfl

end Snapshot

end LevelDb
