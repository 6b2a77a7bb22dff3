/-
This file models a manual compaction as the rounds of its background calls, and proves that they come
to an end and leave no file of the level in the requested range. A round may compact only the first
of the files that meet the range. The next round starts at the largest key of the last input, and the
files that were left out are behind it.
-/

import LevelDb.CompactionReads
import LevelDb.Get
import LevelDb.LevelShape
import LevelDb.Scheduler

namespace LevelDb

variable {α β : Type} [LinearOrder α]

/-! ### The rounds -/

/-- `BackgroundCompaction` for a manual request when every step succeeds. The request goes on at the
largest key of the last input. -/
def Db.manualRound (options : Options α β) (db : Db α β) (manual : ManualCompaction α) :
    Db α β × ManualCompaction α :=
  match compactRange options db.version manual.level manual.first manual.last with
  | none => (db, { manual with done := true })
  | some compaction =>
    (db.doCompaction options compaction,
      { manual with
        done := false
        first := compaction.inputs0.getLast?.map FileMetaData.largest })

/-- The loop of `TEST_CompactRange` for a number of rounds. -/
def Db.manualRounds (options : Options α β) :
    Nat → Db α β → ManualCompaction α → Db α β × ManualCompaction α
  | 0, db, manual => (db, manual)
  | rounds + 1, db, manual =>
    if manual.done then (db, manual)
    else
      let round := db.manualRound options manual
      Db.manualRounds options rounds round.1 round.2

/-! ### What a compaction leaves at its level -/

/-- At a level without new files an edit only takes files out. -/
theorem applyEdit_files_of_noNew {version : Version α β} {edit : VersionEdit α β} {level : Nat}
    (noNew : edit.newFilesAt level = []) :
    (version.applyEdit edit).files level =
      (version.files level).filter fun file => file.number ∉ edit.deletedFilesAt level := by
  show saveLevel ((edit.newFilesAt level).foldl LevelState.add
    ⟨∅ ∪ edit.deletedFilesAt level, []⟩) (version.files level) = _
  rw [noNew, List.foldl_nil, saveLevel, Lib.mergeInto, Finset.empty_union]

/-- A compaction takes its inputs out of its level and adds nothing there. -/
theorem doCompaction_files (options : Options α β) (db : Db α β) (compaction : Compaction α β) :
    (db.doCompaction options compaction).version.files compaction.level =
      (db.version.files compaction.level).filter fun file =>
        file.number ∉ compaction.inputs0.map FileMetaData.number := by
  set outputs := (doCompactionWork options compaction (oldestSnapshot db.snapshots db.lastSequence)
    db.nextFileNumber).1
  show (db.version.applyEdit (installEdit compaction outputs)).files compaction.level = _
  rw [applyEdit_files_of_noNew
    (newFilesAt_other (installEdit_newFiles outputs) (Nat.succ_ne_self _).symm)]
  refine List.filter_congr fun file _ => ?_
  rw [decide_eq_decide, mem_deletedFilesAt, mem_installEdit_deletedFiles, List.mem_map]
  refine not_congr ⟨?_, fun ⟨input, member, same⟩ => ⟨input, .inl ⟨rfl, member⟩, same⟩⟩
  rintro ⟨input, ⟨-, member⟩ | ⟨otherLevel, -⟩, same⟩
  · exact ⟨input, member, same⟩
  · exact absurd otherLevel (Nat.succ_ne_self _).symm

omit [LinearOrder α] in
/-- Truncated inputs are the first ones. -/
theorem truncateInputs_prefix (limit total : Nat) (files : List (FileMetaData α β)) :
    truncateInputs limit total files <+: files := by
  induction files generalizing total with
  | nil => exact List.prefix_rfl
  | cons file rest inductionHypothesis =>
    rw [truncateInputs]
    split
    · exact List.prefix_append [file] rest
    · exact List.prefix_cons_inj file |>.mpr (inductionHypothesis _)

/-- The files of a level as the rounds find them. -/
structure LevelInOrder (level : Nat) (files : List (FileMetaData α β)) : Prop where
  ordered : ∀ file ∈ files, file.smallest ≤ file.largest
  disjoint : 0 < level → DisjointSorted files

theorem LevelInOrder.sublist {level : Nat} {files others : List (FileMetaData α β)}
    (inOrder : LevelInOrder level files) (sublist : others.Sublist files) :
    LevelInOrder level others :=
  ⟨fun file member => inOrder.ordered file (sublist.subset member),
    fun positive => (inOrder.disjoint positive).sublist sublist⟩

/-- In a sorted and disjoint level two different files are apart. -/
theorem DisjointSorted.apart_of_ne {files : List (FileMetaData α β)} (disjoint : DisjointSorted files)
    {first second : FileMetaData α β} (firstIn : first ∈ files) (secondIn : second ∈ files)
    (distinct : first ≠ second) : first.Apart second := by
  refine List.Pairwise.forall_of_forall_of_flip (R := fun first second : FileMetaData α β =>
    first ≠ second → first.Apart second) ?_ ?_ ?_ firstIn secondIn distinct
  · exact fun file _ differs => absurd rfl differs
  · exact disjoint.imp fun less _ => .inl less
  · exact disjoint.imp fun less _ => .inr less

/-- The inputs of a manual compaction at its level: the first files that meet the range, all of them
at level 0, or else all files that meet the range these span with their overlaps. -/
theorem compactRange_inputs {options : Options α β} {version : Version α β} {level : Nat}
    {first last : Option (InternalKey α)} {compaction : Compaction α β}
    (chooses : compactRange options version level first last = some compaction) :
    ∃ picked, picked <+: version.getOverlappingInputs level first last ∧
      (level = 0 → picked = version.getOverlappingInputs level first last) ∧ picked ≠ [] ∧
      (compaction.inputs0 = picked ∨ ∃ next all, RangeOf (picked ++ next) all ∧
        compaction.inputs0 = version.getOverlappingInputs level (some all.1) (some all.2)) := by
  unfold compactRange at chooses
  dsimp only at chooses
  split at chooses
  · cases chooses
  · rename_i nonempty
    obtain ⟨range, -, outcome⟩ := setupOtherInputs_cases chooses
    refine ⟨_, ?_, fun isZero => ?_, ?_, outcome.imp And.left ?_⟩
    · split
      · exact truncateInputs_prefix _ _ _
      · exact List.prefix_rfl
    · rw [if_neg isZero.not_gt]
    · split
      · exact truncateInputs_ne_nil _ _ nonempty
      · exact nonempty
    · rintro ⟨all, -, isAll, is0, -⟩
      exact ⟨_, all, isAll, is0⟩

/-- A file that meets the requested range and is no input meets what is left of the range: it lies
behind the last input. -/
theorem meets_behind_of_notInput {options : Options α β} {version : Version α β} {level : Nat}
    {first last : Option (InternalKey α)} {compaction : Compaction α β}
    (inOrder : LevelInOrder level (version.files level))
    (chooses : compactRange options version level first last = some compaction)
    {file : FileMetaData α β} (member : file ∈ version.files level)
    (meets : file.meets (first.map InternalKey.userKey) (last.map InternalKey.userKey) = true)
    (notInput : file ∉ compaction.inputs0) :
    file.meets ((compaction.inputs0.getLast?.map FileMetaData.largest).map InternalKey.userKey)
      (last.map InternalKey.userKey) = true := by
  obtain ⟨picked, ⟨left, isPrefix⟩, whole, nonempty, outcome⟩ := compactRange_inputs chooses
  have overlapping := mem_getOverlappingInputs_of_meets version level first last member meets
  have pickedIn : picked ⊆ compaction.inputs0 := by
    obtain same | ⟨next, all, isAll, is0⟩ := outcome
    · rw [same]
      exact List.Subset.refl _
    · intro other otherIn
      have inLevel := (getOverlappingInputs_sublist version level first last).subset
        (isPrefix ▸ List.mem_append_left left otherIn)
      rw [is0]
      exact mem_getOverlappingInputs_of_meets version level _ _ inLevel
        (meetsRange_of_mem isAll (List.mem_append_left _ otherIn) (inOrder.ordered other inLevel))
  have notPicked : file ∉ picked := fun isPicked => notInput (pickedIn isPicked)
  obtain rfl | positive := Nat.eq_zero_or_pos level
  · exact absurd (whole rfl ▸ overlapping) notPicked
  have sublist := getOverlappingInputs_sublist version level first last
  have disjoint := inOrder.disjoint positive
  have isBehind : ∀ other ∈ picked, other.largest < file.smallest := by
    rw [← isPrefix] at overlapping sublist
    exact fun other otherIn => (List.pairwise_append.mp (disjoint.sublist sublist)).2.2 other otherIn
      file ((List.mem_append.mp overlapping).resolve_left notPicked)
  obtain ⟨head, rest, isCons⟩ := List.exists_cons_of_ne_nil nonempty
  have headIn : head ∈ picked := isCons ▸ List.mem_cons_self
  obtain ⟨input, isLast⟩ := Option.isSome_iff_exists.mp
    (List.getLast?_isSome.mpr (List.ne_nil_of_mem (pickedIn headIn)))
  rw [isLast]
  have inputIn : input ∈ compaction.inputs0 := List.mem_of_getLast? isLast
  have lastBefore : input.largest < file.smallest := by
    obtain same | ⟨next, all, isAll, is0⟩ := outcome
    · exact isBehind input (same ▸ inputIn)
    · rw [is0, getOverlappingInputs_of_pos version positive] at notInput inputIn pickedIn
      obtain ⟨inputInLevel, inputMeets⟩ := List.mem_filter.mp inputIn
      obtain ⟨-, headMeets⟩ := List.mem_filter.mp (pickedIn headIn)
      have apart := disjoint.apart_of_ne inputInLevel member
        fun same => notInput (same ▸ inputIn)
      refine apart.resolve_right fun isBefore => notInput (List.mem_filter.mpr ⟨member, ?_⟩)
      have headBefore := InternalKey.userKey_le_of_le (isBehind head headIn).le
      have fileOrdered := InternalKey.userKey_le_of_le (inOrder.ordered file member)
      have beforeInput := InternalKey.userKey_le_of_le isBefore.le
      refine FileMetaData.meets_some_iff.mpr ⟨?_, ?_⟩
      · exact ((FileMetaData.meets_some_iff.mp headMeets).1.trans headBefore).trans fileOrdered
      · exact (fileOrdered.trans beforeInput).trans (FileMetaData.meets_some_iff.mp inputMeets).2
  refine FileMetaData.meets_iff.mpr ⟨?_, (FileMetaData.meets_iff.mp meets).2⟩
  rintro limit ⟨⟩
  exact InternalKey.userKey_le_of_le (lastBefore.le.trans (inOrder.ordered file member))

/-! ### The rounds come to an end -/

/-- What holds between two rounds: the files that still meet the requested range meet what is left of
it. -/
structure Covering (level : Nat) (first last : Option α) (db : Db α β) (manual : ManualCompaction α) :
    Prop where
  inOrder : LevelInOrder level (db.version.files level)
  isLevel : manual.level = level
  isLast : manual.last.map InternalKey.userKey = last
  left : ∀ file ∈ db.version.files level, file.meets first last = true →
    file.meets (manual.first.map InternalKey.userKey) last = true

variable {options : Options α β} {db : Db α β} {manual : ManualCompaction α} {level : Nat}
  {first last : Option α}

/-- `CompactRange` is refused only when no file meets the range. -/
theorem compactRange_isSome {version : Version α β} {lower upper : Option (InternalKey α)}
    (nonempty : version.getOverlappingInputs level lower upper ≠ []) :
    (compactRange options version level lower upper).isSome := by
  unfold compactRange
  dsimp only
  rw [if_neg nonempty]
  split
  next positive =>
    obtain ⟨compaction, isSetup, -⟩ := setupOtherInputs_chosen options
      (truncateInputs_ne_nil (maxFileSizeForLevel options level) 0 nonempty)
      ((truncateInputs_sublist _ _ _).trans (getOverlappingInputs_sublist version level lower upper))
      fun isZero => absurd isZero positive.ne'
    rw [isSetup]
    rfl
  next notPositive =>
    obtain rfl := Nat.eq_zero_of_not_pos notPositive
    obtain ⟨compaction, isSetup, -⟩ := setupOtherInputs_chosen options nonempty
      (getOverlappingInputs_sublist version 0 lower upper)
      fun _ => getOverlappingInputs_closed version lower upper
    rw [isSetup]
    rfl

/-- A round that finds no inputs leaves no file in the range. -/
theorem Covering.covered (covering : Covering level first last db manual)
    (refused : compactRange options db.version manual.level manual.first manual.last = none) :
    ∀ file ∈ db.version.files level, file.meets first last = false := by
  intro file member
  by_contra meets
  have meetsLeft := covering.left file member (Bool.eq_true_of_not_eq_false meets)
  rw [← covering.isLast] at meetsLeft
  have overlapping := mem_getOverlappingInputs_of_meets db.version level _ _ member meetsLeft
  rw [covering.isLevel] at refused
  have accepted := @compactRange_isSome _ _ _ options level db.version manual.first manual.last
    (List.ne_nil_of_mem overlapping)
  rw [refused] at accepted
  cases accepted

/-- A round that compacts leaves fewer files at the level, and the invariant. -/
theorem Covering.round (covering : Covering level first last db manual) {compaction : Compaction α β}
    (chooses : compactRange options db.version manual.level manual.first manual.last =
      some compaction) :
    Covering level first last (db.doCompaction options compaction)
        { manual with
          done := false
          first := compaction.inputs0.getLast?.map FileMetaData.largest } ∧
      ((db.doCompaction options compaction).version.files level).length <
        (db.version.files level).length := by
  obtain ⟨isLevel, chosen⟩ := compactRange_chosen chooses
  rw [covering.isLevel] at isLevel
  have files := doCompaction_files options db compaction
  rw [isLevel] at files
  have sublist : ((db.doCompaction options compaction).version.files level).Sublist
      (db.version.files level) := files ▸ List.filter_sublist
  refine ⟨⟨covering.inOrder.sublist sublist, covering.isLevel, covering.isLast,
    fun file member meets => ?_⟩, ?_⟩
  · rw [files] at member
    obtain ⟨wasMember, notNumber⟩ := List.mem_filter.mp member
    have notInput : file ∉ compaction.inputs0 := fun isInput =>
      of_decide_eq_true notNumber (List.mem_map_of_mem isInput)
    have meetsLeft := covering.left file wasMember meets
    rw [← covering.isLast] at meetsLeft ⊢
    exact meets_behind_of_notInput covering.inOrder (covering.isLevel ▸ chooses) wasMember meetsLeft
      notInput
  · obtain ⟨input, isInput⟩ := List.exists_mem_of_ne_nil _ chosen.nonempty
    have wasMember := isLevel ▸ chosen.inputs0_sublist.subset isInput
    refine lt_of_le_of_ne sublist.length_le fun sameLength => ?_
    have same := sublist.eq_of_length sameLength
    rw [← same, files] at wasMember
    exact of_decide_eq_true (List.mem_filter.mp wasMember).2 (List.mem_map_of_mem isInput)

/-- The rounds that are left come to an end with no file in the range. -/
theorem Covering.rounds (covering : Covering level first last db manual) (running : manual.done = false)
    {rounds : Nat} (enough : (db.version.files level).length < rounds) :
    (db.manualRounds options rounds manual).2.done = true ∧
      ∀ file ∈ (db.manualRounds options rounds manual).1.version.files level,
        file.meets first last = false := by
  induction rounds generalizing db manual with
  | zero => exact absurd enough (Nat.not_lt_zero _)
  | succ rounds inductionHypothesis =>
    rw [Db.manualRounds, running, if_neg Bool.false_ne_true, Db.manualRound]
    cases chooses : compactRange options db.version manual.level manual.first manual.last with
    | none =>
      have stays : ∀ fuel, db.manualRounds options fuel { manual with done := true } =
          (db, { manual with done := true }) := fun fuel => by cases fuel <;> rfl
      dsimp only
      rw [stays rounds]
      exact ⟨rfl, covering.covered chooses⟩
    | some compaction =>
      obtain ⟨covering', fewer⟩ := @Covering.round _ _ _ options _ _ _ _ _ covering _ chooses
      exact inductionHypothesis covering' rfl (fewer.trans_le (Nat.le_of_lt_succ enough))

/-- The rounds of a manual compaction of a level end, after at most one round more than the level
has files, and then no file of the level meets the requested range. -/
theorem manualRounds_covers (options : Options α β) (db : Db α β) (sorted : db.version.Sorted)
    (level : Nat) (first last : Option α) (rounds : Nat)
    (enough : (db.version.files level).length < rounds) :
    let ended := db.manualRounds options rounds (.new level first last)
    ended.2.done = true ∧ ∀ file ∈ ended.1.version.files level, file.meets first last = false := by
  have covering : Covering level first last db (.new level first last) := by
    refine ⟨⟨fun file member => (sorted.valid level file member).smallest_le_largest,
      sorted.disjoint level⟩, rfl, ?_, fun file _ meets => ?_⟩
    · cases last <;> rfl
    · cases first <;> exact meets
  exact covering.rounds rfl enough

/-- A level 1 that holds one user key in two files. -/
theorem manualRounds_covers_straddling :
    let ended := straddlingDb.manualRounds smallOptions 3 (.new 1 (some 2) none)
    ended.2.done = true ∧ ∀ file ∈ ended.1.version.files 1, file.meets (some 2) none = false :=
  manualRounds_covers smallOptions straddlingDb straddlingDb_layered.version_sorted 1 (some 2) none 3
    (by decide)

end LevelDb
