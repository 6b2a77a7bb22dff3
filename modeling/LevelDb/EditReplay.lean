/-
This file compares two ways of applying a list of edits. A running database applies one edit at a
time, each to the version before it; recovery feeds all edits to one builder and saves once. As
long as no file number is added to a level twice, both give the same files in the same order.

A level is described by the rank of its files: the smallest key, then the number.
-/

import LevelDb.VersionEdit
import Mathlib.Data.Prod.Lex

namespace LevelDb

variable {α β : Type}

/-- An edit with other files in place of those it adds. -/
def VersionEdit.mapFiles (change : FileMetaData α β → FileMetaData α β) (edit : VersionEdit α β) :
    VersionEdit α β :=
  { edit with newFiles := edit.newFiles.map fun pair => (pair.1, change pair.2) }

theorem newFilesAt_mapFiles (change : FileMetaData α β → FileMetaData α β)
    (edit : VersionEdit α β) (level : Nat) :
    (edit.mapFiles change).newFilesAt level = (edit.newFilesAt level).map change := by
  simp only [VersionEdit.newFilesAt, VersionEdit.mapFiles, List.filter_map, List.map_map]
  rfl

theorem deletedFilesAt_mapFiles (change : FileMetaData α β → FileMetaData α β)
    (edit : VersionEdit α β) (level : Nat) :
    (edit.mapFiles change).deletedFilesAt level = edit.deletedFilesAt level := rfl

/-! ### The rank of a file -/

/-- What `BySmallestKey` compares. -/
def FileMetaData.rank (file : FileMetaData α β) : Lex (InternalKey α × Nat) :=
  toLex (file.smallest, file.number)

@[simp] theorem preparedFile_rank (file : FileMetaData α β) :
    (preparedFile file).rank = file.rank := rfl

theorem map_number_preparedFile (files : List (FileMetaData α β)) :
    (files.map preparedFile).map FileMetaData.number = files.map FileMetaData.number := by
  rw [List.map_map]
  rfl

variable [LinearOrder α]

theorem bySmallestKey_eq (first second : FileMetaData α β) :
    bySmallestKey first second = decide (first.rank < second.rank) := by
  unfold bySmallestKey
  rw [Bool.eq_iff_iff, decide_eq_true_eq, FileMetaData.rank, FileMetaData.rank, Prod.Lex.toLex_lt_toLex]
  by_cases same : first.smallest = second.smallest
  · simp [same]
  · simp [same]

/-- The files of a level as a builder saves them. -/
abbrev Ranked (files : List (FileMetaData α β)) : Prop :=
  files.Pairwise fun first second => first.rank < second.rank

theorem Ranked.eq_of_perm {files others : List (FileMetaData α β)} (perm : files.Perm others)
    (ranked : Ranked files) (ranked' : Ranked others) : files = others :=
  perm.eq_of_pairwise (fun _ _ _ _ less greater => absurd greater (lt_asymm less)) ranked ranked'

theorem Ranked.of_le {files : List (FileMetaData α β)}
    (ordered : files.Pairwise fun first second => first.rank ≤ second.rank)
    (distinct : (files.map FileMetaData.rank).Nodup) : Ranked files := by
  have different := List.pairwise_map.mp distinct
  exact (ordered.and different).imp fun both => lt_of_le_of_ne both.1 both.2

theorem Ranked.nodup {files : List (FileMetaData α β)} (ranked : Ranked files) :
    (files.map FileMetaData.rank).Nodup :=
  List.pairwise_map.mpr (ranked.imp ne_of_lt)

theorem bySmallestKey_rank {first second : FileMetaData α β}
    (before : bySmallestKey first second = true) : first.rank < second.rank := by
  rw [bySmallestKey_eq] at before
  exact of_decide_eq_true before

theorem rank_of_not_bySmallestKey {first second : FileMetaData α β}
    (notBefore : bySmallestKey first second = false) : second.rank ≤ first.rank := by
  rw [bySmallestKey_eq] at notBefore
  exact le_of_not_gt (of_decide_eq_false notBefore)

theorem foldl_add_ranked (files : List (FileMetaData α β)) (state : LevelState α β)
    (ranked : Ranked state.addedFiles) : Ranked (files.foldl LevelState.add state).addedFiles := by
  induction files generalizing state with
  | nil => exact ranked
  | cons file rest inductionHypothesis =>
    refine inductionHypothesis _ ?_
    exact Lib.setInsert_pairwise bySmallestKey (fun _ _ _ less less' => less.trans less')
      (fun _ _ => bySmallestKey_rank) ranked

theorem saveLevel_perm (state : LevelState α β) (base : List (FileMetaData α β)) :
    (saveLevel state base).Perm ((base ++ state.addedFiles).filter fun file =>
      file.number ∉ state.deletedFiles) :=
  (Lib.mergeInto_perm bySmallestKey state.addedFiles base).filter _

/-- New files have different numbers, and no old file has one of them. -/
structure Apart (olds news : List (FileMetaData α β)) : Prop where
  distinct : (news.map FileMetaData.number).Nodup
  isNew : ∀ old ∈ olds, ∀ new ∈ news, new.number ≠ old.number

theorem saveLevel_ranked {state : LevelState α β} {base : List (FileMetaData α β)}
    (addedRanked : Ranked state.addedFiles) (baseRanked : Ranked base)
    (apart : Apart base state.addedFiles) : Ranked (saveLevel state base) := by
  have merged : (Lib.mergeInto bySmallestKey state.addedFiles base).Pairwise
      fun first second => first.rank ≤ second.rank :=
    Lib.mergeInto_pairwise bySmallestKey (fun _ _ _ order order' => order.trans order')
      (fun _ _ before => le_of_lt (bySmallestKey_rank before))
      (fun _ _ => rank_of_not_bySmallestKey) (addedRanked.imp le_of_lt) (baseRanked.imp le_of_lt)
  have perm := (Lib.mergeInto_perm bySmallestKey state.addedFiles base).map FileMetaData.rank
  have distinct : ((base ++ state.addedFiles).map FileMetaData.rank).Nodup := by
    rw [List.map_append, List.nodup_append]
    refine ⟨baseRanked.nodup, addedRanked.nodup, fun rank inBase other inAdded same => ?_⟩
    obtain ⟨old, isOld, rfl⟩ := List.mem_map.mp inBase
    obtain ⟨new, isNew, rfl⟩ := List.mem_map.mp inAdded
    exact apart.isNew old isOld new isNew (congrArg (fun rank => (ofLex rank).2) same.symm)
  exact (Ranked.of_le merged (perm.nodup_iff.mpr distinct)).sublist List.filter_sublist

/-! ### One builder for several edits -/

/-- Files whose numbers the builder did not have enter the sorted set of the level. -/
theorem foldl_add_addedFiles {state : LevelState α β} {news : List (FileMetaData α β)}
    (deleted : Finset Nat) (distinct : ((state.addedFiles ++ news).map FileMetaData.number).Nodup) :
    (news.foldl LevelState.add ⟨deleted, state.addedFiles⟩).addedFiles.Perm
      (state.addedFiles ++ news.map preparedFile) :=
  foldl_add_perm news ⟨deleted, state.addedFiles⟩ distinct

/-- The files a builder saves after one more edit. -/
theorem saveLevel_foldl_add_perm {state : LevelState α β} {base news : List (FileMetaData α β)}
    (deleted : Finset Nat) (apart : Apart base (state.addedFiles ++ news)) :
    (saveLevel (news.foldl LevelState.add ⟨state.deletedFiles ∪ deleted, state.addedFiles⟩)
      base).Perm (((base ++ state.addedFiles).filter fun file =>
        file.number ∉ state.deletedFiles ∧ file.number ∉ deleted) ++ news.map preparedFile) := by
  have differs : ∀ file ∈ base ++ state.addedFiles, ∀ new ∈ news, new.number ≠ file.number := by
    intro file member new inNews same
    obtain inBase | isAdded := List.mem_append.mp member
    · exact apart.isNew file inBase new (List.mem_append_right _ inNews) same
    · have distinct := apart.distinct
      rw [List.map_append, List.nodup_append] at distinct
      exact distinct.2.2 _ (List.mem_map_of_mem isAdded) _ (List.mem_map_of_mem inNews) same.symm
  have added := foldl_add_addedFiles (state.deletedFiles ∪ deleted) apart.distinct
  refine (saveLevel_perm _ base).trans ?_
  refine ((added.append_left base).filter _).trans (List.Perm.of_eq ?_)
  rw [← List.append_assoc, List.filter_append]
  congr 1
  · refine List.filter_congr fun file member => ?_
    have kept := differs file member
    simp only [foldl_add_deletedFiles, Finset.mem_union, decide_eq_decide]
    tauto
  · refine List.filter_eq_self.mpr fun file member => ?_
    obtain ⟨new, inNews, rfl⟩ := List.mem_map.mp member
    simp only [foldl_add_deletedFiles, preparedFile_number, decide_eq_true_eq]
    exact fun isDeleted => isDeleted.2 new inNews rfl

theorem saveLevel_foldl_add_ranked {state : LevelState α β} {base news : List (FileMetaData α β)}
    (deleted : Finset Nat) (addedRanked : Ranked state.addedFiles) (baseRanked : Ranked base)
    (apart : Apart base (state.addedFiles ++ news)) :
    Ranked (saveLevel
      (news.foldl LevelState.add ⟨state.deletedFiles ∪ deleted, state.addedFiles⟩) base) := by
  have added := foldl_add_addedFiles (state.deletedFiles ∪ deleted) apart.distinct
  have numbers := added.map FileMetaData.number
  rw [List.map_append, map_number_preparedFile, ← List.map_append] at numbers
  refine saveLevel_ranked (foldl_add_ranked news _ addedRanked) baseRanked
    ⟨numbers.nodup_iff.mpr apart.distinct, fun old isOld new isNew same => ?_⟩
  obtain ⟨file, isFile, sameNumber⟩ := List.mem_map.mp
    (numbers.mem_iff.mp (List.mem_map_of_mem isNew))
  exact apart.isNew old isOld file isFile (sameNumber.trans same)

/-- Feeding one more edit to a builder saves the same level as applying the edit to what the
builder saves without it. -/
theorem saveLevel_foldl_add {state : LevelState α β} {base news : List (FileMetaData α β)}
    (deleted : Finset Nat) (addedRanked : Ranked state.addedFiles) (baseRanked : Ranked base)
    (apart : Apart base (state.addedFiles ++ news)) :
    saveLevel (news.foldl LevelState.add ⟨state.deletedFiles ∪ deleted, state.addedFiles⟩) base =
      saveLevel (news.foldl LevelState.add ⟨∅ ∪ deleted, []⟩) (saveLevel state base) := by
  have distinct := apart.distinct
  rw [List.map_append, List.nodup_append] at distinct
  have saved := saveLevel_perm state base
  have savedApart : Apart (saveLevel state base) ([] ++ news) := by
    refine ⟨distinct.2.1, fun old isSaved new isNew same => ?_⟩
    obtain inBase | isAdded := List.mem_append.mp (List.mem_filter.mp (saved.mem_iff.mp isSaved)).1
    · exact apart.isNew old inBase new (List.mem_append_right _ isNew) same
    · exact distinct.2.2 _ (List.mem_map_of_mem isAdded) _ (List.mem_map_of_mem isNew) same.symm
  have savedRanked := saveLevel_ranked addedRanked baseRanked ⟨distinct.1, fun old isOld new isNew =>
    apart.isNew old isOld new (List.mem_append_left _ isNew)⟩
  refine Ranked.eq_of_perm ?_ (saveLevel_foldl_add_ranked deleted addedRanked baseRanked apart)
    (@saveLevel_foldl_add_ranked _ _ _ ⟨∅, []⟩ _ _ deleted List.Pairwise.nil savedRanked
      savedApart)
  refine (saveLevel_foldl_add_perm deleted apart).trans ?_
  refine List.Perm.trans ?_ (@saveLevel_foldl_add_perm _ _ _ ⟨∅, []⟩ (saveLevel state base) news
    deleted savedApart).symm
  refine List.Perm.append_right _ ?_
  rw [List.append_nil]
  refine List.Perm.trans (List.Perm.of_eq ?_) (saved.filter _).symm
  rw [List.filter_filter]
  refine List.filter_congr fun file _ => ?_
  simp [and_comm]

/-! ### Lists of edits -/

/-- The files a list of edits adds to a level, in order. -/
def addedAt (edits : List (VersionEdit α β)) (level : Nat) : List (FileMetaData α β) :=
  edits.flatMap fun edit => edit.newFilesAt level

theorem applyEdit_files_eq (base : Version α β) (edit : VersionEdit α β) (level : Nat) :
    (base.applyEdit edit).files level =
      saveLevel ((edit.newFilesAt level).foldl LevelState.add ⟨∅ ∪ edit.deletedFilesAt level, []⟩)
        (base.files level) := rfl

theorem foldl_applyEdit_files_congr {base other : Version α β} (same : base.files = other.files)
    (edits : List (VersionEdit α β)) :
    (edits.foldl Version.applyEdit base).files = (edits.foldl Version.applyEdit other).files := by
  induction edits generalizing base other with
  | nil => exact same
  | cons edit rest inductionHypothesis =>
    refine inductionHypothesis (funext fun level => ?_)
    rw [applyEdit_files_eq, applyEdit_files_eq, same]

/-- A builder that is never given a number twice. -/
structure Builder.Tidy (builder : Builder α β) (edits : List (VersionEdit α β)) : Prop where
  base : ∀ level, Ranked (builder.base.files level)
  added : ∀ level, Ranked (builder.levels level).addedFiles
  apart : ∀ level, Apart (builder.base.files level)
    ((builder.levels level).addedFiles ++ addedAt edits level)

theorem Builder.Tidy.apart_apply {builder : Builder α β} {edit : VersionEdit α β}
    {edits : List (VersionEdit α β)} (tidy : builder.Tidy (edit :: edits)) (level : Nat) :
    Apart (builder.base.files level)
      ((builder.levels level).addedFiles ++ edit.newFilesAt level ++ addedAt edits level) := by
  have apart := tidy.apart level
  rwa [addedAt, List.flatMap_cons, ← addedAt, ← List.append_assoc] at apart

theorem Builder.Tidy.apply {builder : Builder α β} {edit : VersionEdit α β}
    {edits : List (VersionEdit α β)} (tidy : builder.Tidy (edit :: edits)) :
    (builder.apply edit).Tidy edits := by
  refine ⟨tidy.base, fun level => foldl_add_ranked _ _ (tidy.added level), fun level => ?_⟩
  have apart := tidy.apart_apply level
  have inserted : (((builder.levels level).addedFiles ++ edit.newFilesAt level).map
      FileMetaData.number).Nodup := by
    have distinct := apart.distinct
    rw [List.map_append, List.nodup_append] at distinct
    exact distinct.1
  have added := foldl_add_addedFiles
    ((builder.levels level).deletedFiles ∪ edit.deletedFilesAt level) inserted
  have numbers := (added.append_right (addedAt edits level)).map FileMetaData.number
  simp only [List.map_append, map_number_preparedFile] at numbers
  simp only [← List.map_append] at numbers
  refine ⟨numbers.nodup_iff.mpr apart.distinct, fun old isOld new isNew same => ?_⟩
  obtain ⟨file, isFile, sameNumber⟩ := List.mem_map.mp
    (numbers.mem_iff.mp (List.mem_map_of_mem isNew))
  exact apart.isNew old isOld file isFile (sameNumber.trans same)

/-- One builder for all edits saves the files that applying the edits one at a time leaves. -/
theorem saveTo_foldl_apply {builder : Builder α β} {edits : List (VersionEdit α β)}
    (tidy : builder.Tidy edits) :
    (edits.foldl Builder.apply builder).saveTo.files =
      (edits.foldl Version.applyEdit builder.saveTo).files := by
  induction edits generalizing builder with
  | nil => rfl
  | cons edit rest inductionHypothesis =>
    rw [List.foldl_cons, List.foldl_cons, inductionHypothesis tidy.apply]
    refine foldl_applyEdit_files_congr (funext fun level => ?_) rest
    have apart := tidy.apart_apply level
    have distinct := apart.distinct
    rw [List.map_append, List.nodup_append] at distinct
    exact saveLevel_foldl_add _ (tidy.added level) (tidy.base level)
      ⟨distinct.1, fun old isOld new isNew => apart.isNew old isOld new
        (List.mem_append_left _ isNew)⟩

/-! ### What a list of edits does to a level -/

omit [LinearOrder α] in
theorem addedAt_append (edits : List (VersionEdit α β)) (edit : VersionEdit α β) (level : Nat) :
    addedAt (edits ++ [edit]) level = addedAt edits level ++ edit.newFilesAt level := by
  rw [addedAt, addedAt, List.flatMap_append, List.flatMap_singleton]

/-- Some edit deletes the number from the level, and neither it nor a later one adds it again. -/
def Removed (edits : List (VersionEdit α β)) (level number : Nat) : Prop :=
  ∃ front edit back, edits = front ++ edit :: back ∧ (level, number) ∈ edit.deletedFiles ∧
    ∀ new ∈ addedAt (edit :: back) level, new.number ≠ number

omit [LinearOrder α] in
theorem removed_append {edits : List (VersionEdit α β)} {edit : VersionEdit α β}
    {level number : Nat} :
    Removed (edits ++ [edit]) level number ↔
      (Removed edits level number ∨ (level, number) ∈ edit.deletedFiles) ∧
        ∀ new ∈ edit.newFilesAt level, new.number ≠ number := by
  constructor
  · rintro ⟨front, deleting, back, split, isDeleted, notAdded⟩
    obtain rfl | ⟨back, last, rfl⟩ := List.eq_nil_or_concat back
    · obtain ⟨rfl, same⟩ := List.append_inj' split rfl
      obtain rfl := List.head_eq_of_cons_eq same
      refine ⟨.inr isDeleted, fun new member => notAdded new ?_⟩
      rw [addedAt, List.flatMap_singleton]
      exact member
    · rw [List.concat_eq_append, ← List.cons_append, ← List.append_assoc] at split
      obtain ⟨rfl, same⟩ := List.append_inj' split rfl
      obtain rfl := List.head_eq_of_cons_eq same
      rw [List.concat_eq_append, ← List.cons_append, addedAt_append] at notAdded
      exact ⟨.inl ⟨front, deleting, back, rfl, isDeleted,
        fun new member => notAdded new (List.mem_append_left _ member)⟩,
        fun new member => notAdded new (List.mem_append_right _ member)⟩
  · rintro ⟨⟨front, deleting, back, rfl, isDeleted, notAdded⟩ | isDeleted, notInLast⟩
    · refine ⟨front, deleting, back ++ [edit], by simp, isDeleted, fun new member => ?_⟩
      rw [← List.cons_append, addedAt_append] at member
      obtain earlier | inLast := List.mem_append.mp member
      · exact notAdded new earlier
      · exact notInLast new inLast
    · refine ⟨edits, edit, [], rfl, isDeleted, fun new member => ?_⟩
      rw [addedAt, List.flatMap_singleton] at member
      exact notInLast new member

/-- The files that a list of edits leaves in a level: those of the base and those added, but for the
removed ones. -/
theorem mem_foldl_applyEdit {base : Version α β} {edits : List (VersionEdit α β)} {level : Nat}
    (apart : Apart (base.files level) (addedAt edits level)) {file : FileMetaData α β} :
    file ∈ (edits.foldl Version.applyEdit base).files level ↔
      (file ∈ base.files level ∨ ∃ new ∈ addedAt edits level, file = preparedFile new) ∧
        ¬ Removed edits level file.number := by
  induction edits using List.reverseRecOn with
  | nil =>
    have notRemoved : ¬ Removed ([] : List (VersionEdit α β)) level file.number := by
      rintro ⟨front, edit, back, split, -⟩
      exact List.append_ne_nil_of_right_ne_nil front (List.cons_ne_nil edit back) split.symm
    simp [addedAt, notRemoved]
  | append_singleton edits edit inductionHypothesis =>
    rw [addedAt_append] at apart
    have distinct := apart.distinct
    rw [List.map_append, List.nodup_append] at distinct
    have member := inductionHypothesis ⟨distinct.1, fun old isOld new isNew =>
      apart.isNew old isOld new (List.mem_append_left _ isNew)⟩
    rw [List.foldl_append, List.foldl_cons, List.foldl_nil, mem_applyEdit_files distinct.2.1, member,
      removed_append, addedAt_append]
    have isOld : (file ∈ base.files level ∨ ∃ new ∈ addedAt edits level, file = preparedFile new) →
        ∀ new ∈ edit.newFilesAt level, new.number ≠ file.number := by
      rintro (inBase | ⟨new', isAdded, rfl⟩) new inLast same
      · exact apart.isNew file inBase new (List.mem_append_right _ inLast) same
      · exact distinct.2.2 _ (List.mem_map_of_mem isAdded) _ (List.mem_map_of_mem inLast) same.symm
    constructor
    · rintro (⟨⟨isFile, notRemoved⟩, stays⟩ | ⟨new, inLast, rfl⟩)
      · refine ⟨isFile.imp id fun ⟨new, isAdded, same⟩ =>
          ⟨new, List.mem_append_left _ isAdded, same⟩, ?_⟩
        rintro ⟨removed | isDeleted, notAdded⟩
        · exact notRemoved removed
        · exact stays ⟨isDeleted, notAdded⟩
      · exact ⟨.inr ⟨new, List.mem_append_right _ inLast, rfl⟩,
          fun removed => removed.2 new inLast rfl⟩
    · rintro ⟨isFile, notRemoved⟩
      have cases : (file ∈ base.files level ∨ ∃ new ∈ addedAt edits level, file = preparedFile new) ∨
          ∃ new ∈ edit.newFilesAt level, file = preparedFile new := by
        obtain inBase | ⟨new, isAdded, same⟩ := isFile
        · exact .inl (.inl inBase)
        · obtain earlier | inLast := List.mem_append.mp isAdded
          · exact .inl (.inr ⟨new, earlier, same⟩)
          · exact .inr ⟨new, inLast, same⟩
      obtain isEarlier | isLast := cases
      · have notAdded := isOld isEarlier
        exact .inl ⟨⟨isEarlier, fun removed => notRemoved ⟨.inl removed, notAdded⟩⟩,
          fun removes => notRemoved ⟨.inr removes.1, notAdded⟩⟩
      · exact .inr isLast

theorem Builder.Tidy.foldl {builder : Builder α β} {edits : List (VersionEdit α β)}
    (tidy : builder.Tidy edits) : (edits.foldl Builder.apply builder).Tidy [] := by
  induction edits generalizing builder with
  | nil => exact tidy
  | cons edit rest inductionHypothesis => exact inductionHypothesis tidy.apply

section Batched

variable {base : Version α β} {edits : List (VersionEdit α β)}

theorem tidy_new (sorted : ∀ level, Ranked (base.files level))
    (apart : ∀ level, Apart (base.files level) (addedAt edits level)) :
    (Builder.new base).Tidy edits :=
  ⟨sorted, fun _ => List.Pairwise.nil, fun level => apart level⟩

theorem saveTo_new_files (sorted : ∀ level, Ranked (base.files level))
    (apart : ∀ level, Apart (base.files level) (addedAt edits level)) :
    (edits.foldl Builder.apply (Builder.new base)).saveTo.files =
      (edits.foldl Version.applyEdit base).files := by
  have start : (Builder.new base).saveTo.files = base.files := by
    funext level
    exact List.filter_eq_self.mpr fun file _ => rfl
  exact (saveTo_foldl_apply (tidy_new sorted apart)).trans (foldl_applyEdit_files_congr start edits)

theorem foldl_applyEdit_ranked (sorted : ∀ level, Ranked (base.files level))
    (apart : ∀ level, Apart (base.files level) (addedAt edits level)) (level : Nat) :
    Ranked ((edits.foldl Version.applyEdit base).files level) := by
  have saved := (tidy_new sorted apart).foldl
  have savedApart := saved.apart level
  rw [show addedAt ([] : List (VersionEdit α β)) level = [] from rfl, List.append_nil] at savedApart
  rw [← saveTo_new_files sorted apart]
  exact saveLevel_ranked (saved.added level) (saved.base level) savedApart

/-- As long as no edit adds a number to a level that has it already, one builder for all edits saves
the files that applying the edits one at a time leaves: each file of the base and of the edits once,
in the order of the ranks, but for those deleted and not added again. -/
theorem batched_eq_stepwise {base : Version α β} {edits : List (VersionEdit α β)}
    (sorted : ∀ level, Ranked (base.files level))
    (apart : ∀ level, Apart (base.files level) (addedAt edits level)) :
    (edits.foldl Builder.apply (Builder.new base)).saveTo.files =
        (edits.foldl Version.applyEdit base).files ∧
      ∀ level, Ranked ((edits.foldl Version.applyEdit base).files level) ∧
        ∀ file, file ∈ (edits.foldl Version.applyEdit base).files level ↔
          (file ∈ base.files level ∨ ∃ new ∈ addedAt edits level, file = preparedFile new) ∧
            ¬ Removed edits level file.number :=
  ⟨saveTo_new_files sorted apart, fun level =>
    ⟨foldl_applyEdit_ranked sorted apart level, fun _ => mem_foldl_applyEdit (apart level)⟩⟩

end Batched

def smallFile (number : Nat) : FileMetaData Nat Nat :=
  { number, fileSize := 1, allowedSeeks := 100, smallest := .make number 1 .kTypeValue
    largest := .make number 1 .kTypeValue, entries := [] }

def smallEdits : List (VersionEdit Nat Nat) :=
  [{ newFiles := [(1, smallFile 5)], deletedFiles := {(1, 3)} },
    { newFiles := [(1, smallFile 4)], deletedFiles := {(1, 5)} }]

theorem batched_eq_stepwise_small :
    let base : Version Nat Nat :=
      { (Version.empty : Version Nat Nat) with
        files := fun level => if level = 1 then [smallFile 3] else [] }
    (smallEdits.foldl Builder.apply (Builder.new base)).saveTo.files =
      (smallEdits.foldl Version.applyEdit base).files := by
  refine (batched_eq_stepwise (fun level => ?_) fun level => ?_).1
  · dsimp only
    split
    · exact List.pairwise_singleton _ _
    · exact List.Pairwise.nil
  · obtain rfl | other := eq_or_ne level 1
    · exact ⟨by decide, by decide⟩
    · have nothing : addedAt smallEdits level = [] := by
        simp [addedAt, smallEdits, VersionEdit.newFilesAt, other.symm]
      rw [nothing]
      exact ⟨List.nodup_nil, fun _ _ _ impossible => absurd impossible List.not_mem_nil⟩

/-! ### Edits that add other files of the same rank -/

section MapFiles

variable {change changeNew : FileMetaData α β → FileMetaData α β}

theorem bySmallestKey_congr (rank : ∀ file : FileMetaData α β, (change file).rank = file.rank)
    (first second : FileMetaData α β) :
    bySmallestKey (change first) (change second) = bySmallestKey first second := by
  rw [bySmallestKey_eq, bySmallestKey_eq, rank, rank]

omit [LinearOrder α] in
theorem number_of_rank (rank : ∀ file : FileMetaData α β, (change file).rank = file.rank)
    (file : FileMetaData α β) : (change file).number = file.number :=
  congrArg (fun rank => (ofLex rank).2) (rank file)

theorem foldl_add_map (rank : ∀ file : FileMetaData α β, (change file).rank = file.rank)
    (prepared : ∀ file, change (preparedFile file) = preparedFile (changeNew file))
    (files : List (FileMetaData α β)) (state : LevelState α β) :
    (files.map changeNew).foldl LevelState.add
        ⟨state.deletedFiles, state.addedFiles.map change⟩ =
      ⟨(files.foldl LevelState.add state).deletedFiles,
        (files.foldl LevelState.add state).addedFiles.map change⟩ := by
  induction files generalizing state with
  | nil => rfl
  | cons file rest inductionHypothesis =>
    have number : (changeNew file).number = file.number := by
      rw [← preparedFile_number, ← prepared, number_of_rank rank, preparedFile_number]
    have added : (⟨state.deletedFiles, state.addedFiles.map change⟩ : LevelState α β).add
          (changeNew file) =
        ⟨(state.add file).deletedFiles, (state.add file).addedFiles.map change⟩ := by
      rw [LevelState.add, LevelState.add, number, ← prepared,
        Lib.setInsert_map bySmallestKey (bySmallestKey_congr rank)]
    rw [List.map_cons, List.foldl_cons, List.foldl_cons, added, inductionHypothesis]

theorem saveLevel_map (rank : ∀ file : FileMetaData α β, (change file).rank = file.rank)
    (state : LevelState α β) (base : List (FileMetaData α β)) :
    saveLevel ⟨state.deletedFiles, state.addedFiles.map change⟩ (base.map change) =
      (saveLevel state base).map change := by
  rw [saveLevel, saveLevel, Lib.mergeInto_map bySmallestKey (bySmallestKey_congr rank),
    List.filter_map]
  congr 1
  refine List.filter_congr fun file _ => ?_
  rw [Function.comp_apply, number_of_rank rank]

/-- Edits that add other files of the same rank leave those files in the same places. -/
theorem foldl_applyEdit_mapFiles
    (rank : ∀ file : FileMetaData α β, (change file).rank = file.rank)
    (prepared : ∀ file, change (preparedFile file) = preparedFile (changeNew file))
    {base other : Version α β} (same : ∀ level, other.files level = (base.files level).map change)
    (edits : List (VersionEdit α β)) (level : Nat) :
    ((edits.map (VersionEdit.mapFiles changeNew)).foldl Version.applyEdit other).files level =
      ((edits.foldl Version.applyEdit base).files level).map change := by
  induction edits generalizing base other with
  | nil => exact same level
  | cons edit rest inductionHypothesis =>
    refine inductionHypothesis fun level => ?_
    rw [applyEdit_files_eq, applyEdit_files_eq, newFilesAt_mapFiles, deletedFilesAt_mapFiles,
      same level, ← saveLevel_map rank]
    exact congrArg (fun state => saveLevel state ((base.files level).map change))
      (foldl_add_map rank prepared (edit.newFilesAt level) ⟨∅ ∪ edit.deletedFilesAt level, []⟩)

end MapFiles

/-! ### Snapshots -/

/-- Of the items of the first levels, those of one level. -/
theorem filter_flatMap_range {γ : Type} (items : Nat → List γ) (count level : Nat) :
    (((List.range count).flatMap fun level => (items level).map fun item => (level, item)).filter
      fun pair => pair.1 = level).map Prod.snd = if level < count then items level else [] := by
  induction count with
  | zero => rfl
  | succ count inductionHypothesis =>
    simp only [List.range_succ, List.flatMap_append, List.flatMap_singleton, List.filter_append,
      List.map_append, inductionHypothesis, List.filter_map, List.map_map]
    rcases Nat.lt_trichotomy level count with below | same | above
    · have different : count ≠ level := below.ne'
      rw [if_pos below, if_pos (Nat.lt_succ_of_lt below)]
      simp [Function.comp_def, different]
    · rw [same, if_neg (Nat.lt_irrefl count), if_pos (Nat.lt_succ_self count)]
      simp [Function.comp_def]
    · have different : count ≠ level := above.ne
      rw [if_neg (Nat.not_lt.mpr above.le), if_neg (by omega)]
      simp [Function.comp_def, different]

/-- Adding the files of a level to an empty one leaves them as they are. -/
theorem saveLevel_of_ranked {files : List (FileMetaData α β)} (ranked : Ranked files)
    (distinct : (files.map FileMetaData.number).Nodup) :
    saveLevel (files.foldl LevelState.add ⟨∅ ∪ ∅, []⟩) [] = files.map preparedFile := by
  have apart : Apart [] ([] ++ files) :=
    ⟨distinct, fun old impossible => absurd impossible List.not_mem_nil⟩
  have perm := @saveLevel_foldl_add_perm α β _ ⟨∅, []⟩ [] files ∅ apart
  have saved := @saveLevel_foldl_add_ranked α β _ ⟨∅, []⟩ [] files ∅ List.Pairwise.nil
    List.Pairwise.nil apart
  refine Ranked.eq_of_perm perm saved ?_
  exact List.pairwise_map.mpr ranked

end LevelDb
