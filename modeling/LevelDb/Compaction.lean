/-
This file models how a compaction chooses its inputs (`VersionSet::PickCompaction`,
`SetupOtherInputs`, `CompactRange` and the `Compaction` object): the range of a set of files,
the inputs of the next level that meet it, the expansion of the inputs when that adds nothing
to the next level, and the truncation of large manual compactions.
-/

import LevelDb.VersionEdit

namespace LevelDb

variable {α β : Type} [LinearOrder α]

/-- `GetRange`: the smallest and the largest key of a non-empty list of files. -/
def getRange : List (FileMetaData α β) → Option (InternalKey α × InternalKey α)
  | [] => none
  | file :: rest =>
    some (rest.foldl (fun range other =>
      (if other.smallest < range.1 then other.smallest else range.1,
        if range.2 < other.largest then other.largest else range.2))
      (file.smallest, file.largest))

/-- A compaction of `level` into `level + 1`: its inputs at the two levels, the files of
`level + 2` that overlap it, the version it was chosen on, and the key after which the next
compaction of the level starts. -/
structure Compaction (α β : Type) where
  level : Nat
  inputs0 : List (FileMetaData α β)
  inputs1 : List (FileMetaData α β)
  grandparents : List (FileMetaData α β)
  inputVersion : Version α β
  compactPointer : InternalKey α

/-- The tail of `SetupOtherInputs`: the grandparents that overlap the whole compaction, and
the next compaction pointer. -/
def finishSetup (version : Version α β) (level : Nat) (inputs0 inputs1 : List (FileMetaData α β))
    (largest : InternalKey α) : Option (Compaction α β) :=
  (getRange (inputs0 ++ inputs1)).map fun all =>
    { level, inputs0, inputs1
      grandparents :=
        if level + 2 < Config.kNumLevels then
          version.getOverlappingInputs (level + 2) (some all.1) (some all.2)
        else []
      inputVersion := version
      compactPointer := largest }

/-- `SetupOtherInputs`, for non-empty inputs at `level`. -/
def setupOtherInputs (options : Options α β) (version : Version α β) (level : Nat)
    (inputs0 : List (FileMetaData α β)) : Option (Compaction α β) :=
  (getRange inputs0).bind fun range =>
    let inputs1 := version.getOverlappingInputs (level + 1) (some range.1) (some range.2)
    (getRange (inputs0 ++ inputs1)).bind fun all =>
      let expanded0 := version.getOverlappingInputs level (some all.1) (some all.2)
      if inputs1 ≠ [] ∧ expanded0.length > inputs0.length ∧
          totalFileSize inputs1 + totalFileSize expanded0 <
            expandedCompactionByteSizeLimit options then
        (getRange expanded0).bind fun newRange =>
          let expanded1 :=
            version.getOverlappingInputs (level + 1) (some newRange.1) (some newRange.2)
          if expanded1.length = inputs1.length then
            finishSetup version level expanded0 expanded1 newRange.2
          else finishSetup version level inputs0 inputs1 range.2
      else finishSetup version level inputs0 inputs1 range.2

/-- The part of `PickCompaction` after the first input is picked: at level 0 all files that
overlap it, directly or not, join it. -/
def setupPicked (options : Options α β) (version : Version α β) (level : Nat)
    (file : FileMetaData α β) : Option (Compaction α β) :=
  setupOtherInputs options version level
    (if level = 0 then version.getOverlappingInputs 0 (some file.smallest) (some file.largest)
    else [file])

/-- `PickCompaction`: a level with score at least one is compacted first, starting after its
compaction pointer and wrapping around; otherwise the file the seek statistics ask for. -/
def pickCompaction (options : Options α β) (version : Version α β)
    (compactPointer : Nat → Option (InternalKey α)) : Option (Compaction α β) :=
  if 1 ≤ version.compactionScore then
    let level := version.compactionLevel
    (((version.files level).find? fun file =>
        (compactPointer level).all fun pointer => pointer < file.largest).or
      (version.files level).head?).bind (setupPicked options version level)
  else
    version.fileToCompact.bind fun choice => setupPicked options version choice.2 choice.1

/-- The shortest prefix of the inputs whose size reaches the limit. -/
def truncateInputs (limit : Nat) : Nat → List (FileMetaData α β) → List (FileMetaData α β)
  | _, [] => []
  | total, file :: rest =>
    if limit ≤ total + file.fileSize then [file]
    else file :: truncateInputs limit (total + file.fileSize) rest

/-- `VersionSet::CompactRange`. -/
def compactRange (options : Options α β) (version : Version α β) (level : Nat)
    (first last : Option (InternalKey α)) : Option (Compaction α β) :=
  let inputs := version.getOverlappingInputs level first last
  if inputs = [] then none
  else
    setupOtherInputs options version level
      (if 0 < level then truncateInputs (maxFileSizeForLevel options level) 0 inputs else inputs)

/-- `Compaction::IsTrivialMove`. -/
def Compaction.isTrivialMove (options : Options α β) (compaction : Compaction α β) : Bool :=
  compaction.inputs0.length == 1 && compaction.inputs1.length == 0 &&
    totalFileSize compaction.grandparents ≤ maxGrandParentOverlapBytes options

/-- The edit that `SetupOtherInputs` starts: it records the next compaction pointer. -/
def Compaction.edit (compaction : Compaction α β) : VersionEdit α β :=
  ({} : VersionEdit α β).setCompactPointer compaction.level compaction.compactPointer

/-- `Compaction::AddInputDeletions`. -/
def Compaction.addInputDeletions (compaction : Compaction α β) (edit : VersionEdit α β) :
    VersionEdit α β :=
  { edit with
    deletedFiles := edit.deletedFiles ∪
      ((compaction.inputs0.map fun file => (compaction.level, file.number)).toFinset ∪
        (compaction.inputs1.map fun file => (compaction.level + 1, file.number)).toFinset) }

/-! ### What a chosen compaction looks like -/

/-- The two keys are the least smallest and the greatest largest key of the files. -/
structure RangeOf (files : List (FileMetaData α β)) (range : InternalKey α × InternalKey α) :
    Prop where
  smallest_mem : ∃ file ∈ files, file.smallest = range.1
  largest_mem : ∃ file ∈ files, file.largest = range.2
  le_smallest : ∀ file ∈ files, range.1 ≤ file.smallest
  largest_le : ∀ file ∈ files, file.largest ≤ range.2

theorem rangeOf_cons {files : List (FileMetaData α β)} {range : InternalKey α × InternalKey α}
    (isRange : RangeOf files range) (file : FileMetaData α β) :
    RangeOf (file :: files)
      (if file.smallest < range.1 then file.smallest else range.1,
        if range.2 < file.largest then file.largest else range.2) := by
  obtain ⟨⟨least, leastMember, leastEq⟩, ⟨greatest, greatestMember, greatestEq⟩, lower, upper⟩ :=
    isRange
  refine ⟨?_, ?_, fun other member => ?_, fun other member => ?_⟩
  · by_cases less : file.smallest < range.1
    · exact ⟨file, List.mem_cons_self, by simp [less]⟩
    · exact ⟨least, List.mem_cons_of_mem _ leastMember, by simp [less, leastEq]⟩
  · by_cases greater : range.2 < file.largest
    · exact ⟨file, List.mem_cons_self, by simp [greater]⟩
    · exact ⟨greatest, List.mem_cons_of_mem _ greatestMember, by simp [greater, greatestEq]⟩
  · have reduced : (if file.smallest < range.1 then file.smallest else range.1) ≤ range.1 := by
      split
      · rename_i less
        exact le_of_lt less
      · exact le_rfl
    rcases List.mem_cons.mp member with rfl | tail
    · show (if other.smallest < range.1 then other.smallest else range.1) ≤ other.smallest
      split
      · exact le_rfl
      · rename_i notLess
        exact not_lt.mp notLess
    · exact reduced.trans (lower other tail)
  · have raised : range.2 ≤ (if range.2 < file.largest then file.largest else range.2) := by
      split
      · rename_i greater
        exact le_of_lt greater
      · exact le_rfl
    rcases List.mem_cons.mp member with rfl | tail
    · show other.largest ≤ (if range.2 < other.largest then other.largest else range.2)
      split
      · exact le_rfl
      · rename_i notGreater
        exact not_lt.mp notGreater
    · exact (upper other tail).trans raised

theorem rangeOf_of_mem_iff {files others : List (FileMetaData α β)}
    {range : InternalKey α × InternalKey α} (isRange : RangeOf files range)
    (same : ∀ file, file ∈ files ↔ file ∈ others) : RangeOf others range := by
  obtain ⟨⟨least, leastMember, leastEq⟩, ⟨greatest, greatestMember, greatestEq⟩, lower, upper⟩ :=
    isRange
  exact ⟨⟨least, (same least).mp leastMember, leastEq⟩,
    ⟨greatest, (same greatest).mp greatestMember, greatestEq⟩,
    fun file member => lower file ((same file).mpr member),
    fun file member => upper file ((same file).mpr member)⟩

theorem rangeOf_foldl (files seen : List (FileMetaData α β)) (range : InternalKey α × InternalKey α)
    (isRange : RangeOf seen range) :
    RangeOf (files.reverse ++ seen) (files.foldl (fun range other =>
      (if other.smallest < range.1 then other.smallest else range.1,
        if range.2 < other.largest then other.largest else range.2)) range) := by
  induction files generalizing seen range with
  | nil => exact isRange
  | cons file rest inductionHypothesis =>
    rw [List.foldl_cons, List.reverse_cons, List.append_assoc, List.singleton_append]
    exact inductionHypothesis (file :: seen) _ (rangeOf_cons isRange file)

theorem getRange_spec {files : List (FileMetaData α β)} {range : InternalKey α × InternalKey α}
    (equal : getRange files = some range) : RangeOf files range := by
  cases files with
  | nil => cases equal
  | cons file rest =>
    cases equal
    have single : RangeOf [file] (file.smallest, file.largest) :=
      ⟨⟨file, List.mem_singleton.mpr rfl, rfl⟩, ⟨file, List.mem_singleton.mpr rfl, rfl⟩,
        fun other member => le_of_eq (List.mem_singleton.mp member ▸ rfl),
        fun other member => le_of_eq (List.mem_singleton.mp member ▸ rfl)⟩
    refine rangeOf_of_mem_iff (rangeOf_foldl rest [file] _ single) fun other => ?_
    rw [List.mem_append, List.mem_reverse, List.mem_singleton, List.mem_cons, or_comm]

theorem exists_getRange {files : List (FileMetaData α β)} (nonempty : files ≠ []) :
    ∃ range, getRange files = some range := by
  cases files with
  | nil => exact absurd rfl nonempty
  | cons file rest => exact ⟨_, rfl⟩

/-- The files meet the user keys between the two bounds. -/
abbrev FileMetaData.meetsRange (range : InternalKey α × InternalKey α) (file : FileMetaData α β) :
    Bool := file.meets (some range.1.userKey) (some range.2.userKey)

/-- Inputs are closed when every file that meets their range is one of them. -/
def ClosedInputs (files inputs : List (FileMetaData α β)) : Prop :=
  ∀ range, RangeOf inputs range → ∀ file ∈ files, file.meetsRange range = true → file ∈ inputs

/-- What every compaction built on `version` satisfies: its inputs at its level are files of
that level, closed at level 0, and its inputs at the next level are exactly the files there
whose user key range meets the range of the first inputs. -/
structure Compaction.Chosen (version : Version α β) (compaction : Compaction α β) : Prop where
  inputVersion_eq : compaction.inputVersion = version
  nonempty : compaction.inputs0 ≠ []
  inputs0_sublist : compaction.inputs0.Sublist (version.files compaction.level)
  closed : compaction.level = 0 → ClosedInputs (version.files 0) compaction.inputs0
  inputs1_eq : ∃ range, RangeOf compaction.inputs0 range ∧
    compaction.inputs1 =
      (version.files (compaction.level + 1)).filter fun file => file.meetsRange range

/-- What `GetOverlappingInputs` returns at level 0 is closed. -/
theorem getOverlappingInputs_closed (version : Version α β) (first last : Option (InternalKey α)) :
    ClosedInputs (version.files 0) (version.getOverlappingInputs 0 first last) := by
  intro range isRange file member meets
  obtain ⟨lower, upper, equal, within, _, _⟩ := getOverlappingInputs_zero version first last
  rw [equal] at isRange ⊢
  obtain ⟨⟨least, leastMember, leastEq⟩, ⟨greatest, greatestMember, greatestEq⟩, _, _⟩ := isRange
  obtain ⟨leastFile, leastMeets⟩ := List.mem_filter.mp leastMember
  obtain ⟨greatestFile, greatestMeets⟩ := List.mem_filter.mp greatestMember
  obtain ⟨belowLargest, aboveSmallest⟩ := FileMetaData.meets_some_iff.mp meets
  refine List.mem_filter.mpr ⟨member, FileMetaData.meets_iff.mpr ⟨fun limit bound => ?_,
    fun limit bound => ?_⟩⟩
  · have inside := (within least leastFile leastMeets).1 limit bound
    rw [leastEq] at inside
    exact inside.trans belowLargest
  · have inside := (within greatest greatestFile greatestMeets).2 limit bound
    rw [greatestEq] at inside
    exact aboveSmallest.trans inside

theorem finishSetup_chosen {version : Version α β} {level : Nat}
    {inputs0 : List (FileMetaData α β)} {range : InternalKey α × InternalKey α}
    (isRange : RangeOf inputs0 range) (sublist : inputs0.Sublist (version.files level))
    (closed : level = 0 → ClosedInputs (version.files 0) inputs0) (largest : InternalKey α) :
    ∃ compaction, finishSetup version level inputs0
        (version.getOverlappingInputs (level + 1) (some range.1) (some range.2)) largest =
          some compaction ∧
      compaction.level = level ∧ compaction.Chosen version ∧ compaction.inputs0 = inputs0 ∧
        compaction.inputs1 =
          version.getOverlappingInputs (level + 1) (some range.1) (some range.2) := by
  obtain ⟨least, leastMember, _⟩ := isRange.smallest_mem
  have nonempty : inputs0 ≠ [] := List.ne_nil_of_mem leastMember
  obtain ⟨all, allEq⟩ := exists_getRange (show inputs0 ++
    version.getOverlappingInputs (level + 1) (some range.1) (some range.2) ≠ [] by simp [nonempty])
  refine ⟨_, by rw [finishSetup, allEq]; rfl, rfl, ?_, rfl, rfl⟩
  exact ⟨rfl, nonempty, sublist, closed, range, isRange,
    getOverlappingInputs_of_pos version (Nat.succ_pos level) _ _⟩

/-- `SetupOtherInputs` always produces a chosen compaction from closed non-empty inputs. -/
theorem setupOtherInputs_chosen (options : Options α β) {version : Version α β} {level : Nat}
    {inputs0 : List (FileMetaData α β)} (nonempty : inputs0 ≠ [])
    (sublist : inputs0.Sublist (version.files level))
    (closed : level = 0 → ClosedInputs (version.files 0) inputs0) :
    ∃ compaction, setupOtherInputs options version level inputs0 = some compaction ∧
      compaction.level = level ∧ compaction.Chosen version := by
  obtain ⟨range, rangeEq⟩ := exists_getRange nonempty
  obtain ⟨plain, plainEq, plainLevel, plainChosen, _, _⟩ :=
    finishSetup_chosen (getRange_spec rangeEq) sublist closed range.2
  obtain ⟨all, allEq⟩ := exists_getRange (show inputs0 ++
    version.getOverlappingInputs (level + 1) (some range.1) (some range.2) ≠ [] by simp [nonempty])
  unfold setupOtherInputs
  simp only [rangeEq, allEq, Option.bind_some]
  split
  · rename_i grows
    have expandedNonempty :
        version.getOverlappingInputs level (some all.1) (some all.2) ≠ [] := by
      intro empty
      rw [empty] at grows
      exact absurd grows.2.1 (Nat.not_lt_zero _)
    obtain ⟨newRange, newRangeEq⟩ := exists_getRange expandedNonempty
    simp only [newRangeEq, Option.bind_some]
    split
    · obtain ⟨expanded, expandedEq, expandedLevel, expandedChosen, _, _⟩ :=
        finishSetup_chosen (getRange_spec newRangeEq)
          (getOverlappingInputs_sublist version level _ _)
          (fun zero => by subst zero; exact getOverlappingInputs_closed version _ _) newRange.2
      exact ⟨expanded, expandedEq, expandedLevel, expandedChosen⟩
    · exact ⟨plain, plainEq, plainLevel, plainChosen⟩
  · exact ⟨plain, plainEq, plainLevel, plainChosen⟩

theorem setupPicked_chosen (options : Options α β) {version : Version α β} {level : Nat}
    {file : FileMetaData α β} (member : file ∈ version.files level)
    (ordered : file.smallest ≤ file.largest) :
    ∃ compaction, setupPicked options version level file = some compaction ∧
      compaction.level = level ∧ compaction.Chosen version := by
  unfold setupPicked
  by_cases zero : level = 0
  · subst zero
    rw [if_pos rfl]
    have self : file ∈ version.getOverlappingInputs 0 (some file.smallest) (some file.largest) :=
      mem_getOverlappingInputs_of_meets version 0 _ _ member (FileMetaData.meets_some_iff.mpr
        ⟨InternalKey.userKey_le_of_le ordered, InternalKey.userKey_le_of_le ordered⟩)
    exact setupOtherInputs_chosen options (List.ne_nil_of_mem self)
      (getOverlappingInputs_sublist version 0 _ _)
      (fun _ => getOverlappingInputs_closed version _ _)
  · rw [if_neg zero]
    exact setupOtherInputs_chosen options (List.cons_ne_nil _ _)
      (List.singleton_sublist.mpr member)
      (fun isZero => absurd isZero zero)

omit [LinearOrder α] in
theorem truncateInputs_sublist (limit total : Nat) (files : List (FileMetaData α β)) :
    (truncateInputs limit total files).Sublist files := by
  induction files generalizing total with
  | nil => exact List.Sublist.refl _
  | cons file rest inductionHypothesis =>
    rw [truncateInputs]
    split
    · exact (List.nil_sublist rest).cons_cons file
    · exact (inductionHypothesis _).cons_cons file

omit [LinearOrder α] in
theorem truncateInputs_ne_nil (limit total : Nat) {files : List (FileMetaData α β)}
    (nonempty : files ≠ []) : truncateInputs limit total files ≠ [] := by
  cases files with
  | nil => exact absurd rfl nonempty
  | cons file rest =>
    rw [truncateInputs]
    split <;> exact List.cons_ne_nil _ _

/-- A manual compaction that is not refused is a chosen compaction of the requested level. -/
theorem compactRange_chosen {options : Options α β} {version : Version α β} {level : Nat}
    {first last : Option (InternalKey α)} {compaction : Compaction α β}
    (equal : compactRange options version level first last = some compaction) :
    compaction.level = level ∧ compaction.Chosen version := by
  unfold compactRange at equal
  simp only at equal
  split at equal
  · cases equal
  · rename_i nonempty
    have chosen : ∃ compaction, setupOtherInputs options version level
        (if 0 < level then truncateInputs (maxFileSizeForLevel options level) 0
          (version.getOverlappingInputs level first last)
        else version.getOverlappingInputs level first last) = some compaction ∧
        compaction.level = level ∧ compaction.Chosen version := by
      by_cases positive : 0 < level
      · rw [if_pos positive]
        exact setupOtherInputs_chosen options (truncateInputs_ne_nil _ _ nonempty)
          ((truncateInputs_sublist _ _ _).trans (getOverlappingInputs_sublist version level _ _))
          (fun zero => absurd zero positive.ne')
      · rw [if_neg positive]
        have zero : level = 0 := Nat.eq_zero_of_not_pos positive
        subst zero
        exact setupOtherInputs_chosen options nonempty
          (getOverlappingInputs_sublist version 0 _ _)
          (fun _ => getOverlappingInputs_closed version _ _)
    obtain ⟨chosenCompaction, chosenEq, result⟩ := chosen
    rw [chosenEq] at equal
    cases equal
    exact result

/-- An automatic compaction starts from one file of the version. -/
theorem pickCompaction_picked {options : Options α β} {version : Version α β}
    {compactPointer : Nat → Option (InternalKey α)} {compaction : Compaction α β}
    (seek : ∀ file level, version.fileToCompact = some (file, level) → file ∈ version.files level)
    (equal : pickCompaction options version compactPointer = some compaction) :
    ∃ level, ∃ file ∈ version.files level,
      setupPicked options version level file = some compaction := by
  unfold pickCompaction at equal
  split at equal
  · simp only [Option.bind_eq_some_iff, Option.or_eq_some_iff] at equal
    obtain ⟨file, found | ⟨_, head⟩, setup⟩ := equal
    · exact ⟨_, file, List.mem_of_find?_eq_some found, setup⟩
    · exact ⟨_, file, List.mem_of_mem_head? head, setup⟩
  · obtain ⟨⟨file, level⟩, fileEq, setup⟩ := Option.bind_eq_some_iff.mp equal
    exact ⟨level, file, seek file level fileEq, setup⟩

/-- An automatic compaction is a chosen compaction. -/
theorem pickCompaction_chosen {options : Options α β} {version : Version α β}
    {compactPointer : Nat → Option (InternalKey α)} {compaction : Compaction α β}
    (ordered : ∀ level, ∀ file ∈ version.files level, file.smallest ≤ file.largest)
    (seek : ∀ file level, version.fileToCompact = some (file, level) → file ∈ version.files level)
    (equal : pickCompaction options version compactPointer = some compaction) :
    compaction.Chosen version := by
  obtain ⟨level, file, member, setup⟩ := pickCompaction_picked seek equal
  obtain ⟨chosen, chosenEq, _, result⟩ :=
    setupPicked_chosen options member (ordered level file member)
  rw [chosenEq] at setup
  cases setup
  exact result

/-! ### Automatic compactions have no gaps -/

/-- The user key ranges of the files cover everything between any two of them. -/
def NoGap (files : List (FileMetaData α β)) : Prop :=
  ∀ userKey, (∃ file ∈ files, file.smallest.userKey ≤ userKey) →
    (∃ file ∈ files, userKey ≤ file.largest.userKey) → ∃ file ∈ files, file.Covers userKey

theorem noGap_singleton (file : FileMetaData α β) : NoGap [file] := by
  rintro userKey ⟨first, firstMember, lower⟩ ⟨last, lastMember, upper⟩
  rw [List.mem_singleton.mp firstMember] at lower
  rw [List.mem_singleton.mp lastMember] at upper
  exact ⟨file, List.mem_singleton.mpr rfl, lower, upper⟩

/-- Files around a core without gaps have no gap when every user key they reach outside the
core is covered. -/
theorem NoGap.extend {core files : List (FileMetaData α β)} (noGap : NoGap core)
    (subset : core ⊆ files) {range : InternalKey α × InternalKey α} (isRange : RangeOf core range)
    (before : ∀ file ∈ files, ∀ userKey, file.smallest.userKey ≤ userKey →
      userKey < range.1.userKey → ∃ other ∈ files, other.Covers userKey)
    (after : ∀ file ∈ files, ∀ userKey, userKey ≤ file.largest.userKey →
      range.2.userKey < userKey → ∃ other ∈ files, other.Covers userKey) : NoGap files := by
  rintro userKey ⟨first, firstMember, lower⟩ ⟨last, lastMember, upper⟩
  by_cases early : userKey < range.1.userKey
  · exact before first firstMember userKey lower early
  · by_cases late : range.2.userKey < userKey
    · exact after last lastMember userKey upper late
    · obtain ⟨least, leastMember, leastEq⟩ := isRange.smallest_mem
      obtain ⟨greatest, greatestMember, greatestEq⟩ := isRange.largest_mem
      obtain ⟨file, member, covers⟩ := noGap userKey
        ⟨least, leastMember, by rw [leastEq]; exact not_lt.mp early⟩
        ⟨greatest, greatestMember, by rw [greatestEq]; exact not_lt.mp late⟩
      exact ⟨file, subset member, covers⟩

/-- Files that all meet the range of a core without gaps have no gap. -/
theorem NoGap.of_meets {core files : List (FileMetaData α β)} (noGap : NoGap core)
    (subset : core ⊆ files) {range : InternalKey α × InternalKey α} (isRange : RangeOf core range)
    (meets : ∀ file ∈ files, file.meetsRange range = true) : NoGap files := by
  refine noGap.extend subset isRange ?_ ?_
  · intro file member userKey lower early
    have bounds := FileMetaData.meets_some_iff.mp (meets file member)
    exact ⟨file, member, lower, early.le.trans bounds.1⟩
  · intro file member userKey upper late
    have bounds := FileMetaData.meets_some_iff.mp (meets file member)
    exact ⟨file, member, bounds.2.trans late.le, upper⟩

/-- The level-0 inputs that grow from files without gaps have no gap together with them. -/
theorem noGap_getOverlappingInputs_zero {version : Version α β} {core : List (FileMetaData α β)}
    (noGap : NoGap core) {range : InternalKey α × InternalKey α} (isRange : RangeOf core range)
    {seed : FileMetaData α β} (inCore : seed ∈ core) (inFiles : seed ∈ version.files 0)
    (seedOrdered : seed.smallest ≤ seed.largest) {files : List (FileMetaData α β)}
    (subset : core ⊆ files)
    (isGrown : version.getOverlappingInputs 0 (some range.1) (some range.2) ⊆ files)
    (member : ∀ file ∈ files, file ∈ core ∨
      file ∈ version.getOverlappingInputs 0 (some range.1) (some range.2)) : NoGap files := by
  obtain ⟨lower, upper, equal, within, widens, covered⟩ :=
    getOverlappingInputs_zero version (some range.1) (some range.2)
  have grown : ∀ file ∈ version.files 0, file.meets lower upper = true → file ∈ files :=
    fun file inLevel meets => isGrown (equal ▸ List.mem_filter.mpr ⟨inLevel, meets⟩)
  have seedBounds := InternalKey.userKey_le_of_le seedOrdered
  have seedLower := InternalKey.userKey_le_of_le (isRange.le_smallest seed inCore)
  have seedUpper := InternalKey.userKey_le_of_le (isRange.largest_le seed inCore)
  have seedWithin : seed.Within lower upper := by
    refine within seed inFiles (widens seed (FileMetaData.meets_some_iff.mpr ⟨?_, ?_⟩))
    · exact seedLower.trans seedBounds
    · exact seedBounds.trans seedUpper
  have covers : ∀ userKey, InRange lower upper userKey →
      userKey < range.1.userKey ∨ range.2.userKey < userKey →
      ∃ file ∈ files, file.Covers userKey := by
    intro userKey inRange outside
    rcases covered userKey inRange with inside | ⟨file, inLevel, covers⟩
    · have lowerBound := inside.1 range.1.userKey rfl
      have upperBound := inside.2 range.2.userKey rfl
      rcases outside with early | late
      · exact absurd lowerBound (not_le_of_gt early)
      · exact absurd upperBound (not_le_of_gt late)
    · refine ⟨file, grown file inLevel (FileMetaData.meets_iff.mpr ⟨?_, ?_⟩), covers⟩
      · exact fun limit bound => (inRange.1 limit bound).trans covers.2
      · exact fun limit bound => covers.1.trans (inRange.2 limit bound)
  have ofGrown : ∀ file ∈ version.getOverlappingInputs 0 (some range.1) (some range.2),
      file.Within lower upper := by
    intro file inGrown
    rw [equal] at inGrown
    obtain ⟨inLevel, meets⟩ := List.mem_filter.mp inGrown
    exact within file inLevel meets
  refine noGap.extend subset isRange ?_ ?_
  · intro file inFiles' userKey lowerBound early
    refine covers userKey ⟨fun limit bound => ?_, fun limit bound => ?_⟩ (Or.inl early)
    · rcases member file inFiles' with inCore' | inGrown
      · exact absurd (InternalKey.userKey_le_of_le (isRange.le_smallest file inCore'))
          (not_le_of_gt (lowerBound.trans_lt early))
      · exact ((ofGrown file inGrown).1 limit bound).trans lowerBound
    · exact (early.le.trans (seedLower.trans seedBounds)).trans (seedWithin.2 limit bound)
  · intro file inFiles' userKey upperBound late
    refine covers userKey ⟨fun limit bound => ?_, fun limit bound => ?_⟩ (Or.inr late)
    · exact (seedWithin.1 limit bound).trans ((seedBounds.trans seedUpper).trans late.le)
    · rcases member file inFiles' with inCore' | inGrown
      · exact absurd (InternalKey.userKey_le_of_le (isRange.largest_le file inCore'))
          (not_le_of_gt (late.trans_le upperBound))
      · exact upperBound.trans ((ofGrown file inGrown).2 limit bound)

/-- The inputs `SetupOtherInputs` ends with: the ones it started from with the files of the
next level that meet them, or the files that meet all of these, when that adds nothing to the
next level. -/
theorem setupOtherInputs_cases {options : Options α β} {version : Version α β} {level : Nat}
    {inputs0 : List (FileMetaData α β)} {compaction : Compaction α β}
    (equal : setupOtherInputs options version level inputs0 = some compaction) :
    ∃ range, RangeOf inputs0 range ∧
      ((compaction.inputs0 = inputs0 ∧ compaction.inputs1 =
          version.getOverlappingInputs (level + 1) (some range.1) (some range.2)) ∨
        ∃ all newRange, RangeOf (inputs0 ++
              version.getOverlappingInputs (level + 1) (some range.1) (some range.2)) all ∧
          compaction.inputs0 = version.getOverlappingInputs level (some all.1) (some all.2) ∧
          RangeOf compaction.inputs0 newRange ∧ compaction.inputs1 =
            version.getOverlappingInputs (level + 1) (some newRange.1) (some newRange.2) ∧
          compaction.inputs1.length = (version.getOverlappingInputs (level + 1) (some range.1)
            (some range.2)).length) := by
  have finished : ∀ first second largest, finishSetup version level first second largest =
      some compaction → compaction.inputs0 = first ∧ compaction.inputs1 = second := by
    intro first second largest setup
    obtain ⟨_, _, rfl⟩ := Option.map_eq_some_iff.mp setup
    exact ⟨rfl, rfl⟩
  obtain ⟨range, rangeEq, rest⟩ := Option.bind_eq_some_iff.mp equal
  obtain ⟨all, allEq, rest⟩ := Option.bind_eq_some_iff.mp rest
  refine ⟨range, getRange_spec rangeEq, ?_⟩
  simp only at rest
  split at rest
  · obtain ⟨newRange, newRangeEq, rest⟩ := Option.bind_eq_some_iff.mp rest
    split at rest
    · rename_i sameLength
      obtain ⟨is0, is1⟩ := finished _ _ _ rest
      refine Or.inr ⟨all, newRange, getRange_spec allEq, is0, ?_, is1, ?_⟩
      · rw [is0]
        exact getRange_spec newRangeEq
      · rw [is1]
        exact sameLength
    · exact Or.inl (finished _ _ _ rest)
  · exact Or.inl (finished _ _ _ rest)

theorem meetsRange_of_mem {files : List (FileMetaData α β)}
    {range : InternalKey α × InternalKey α} (isRange : RangeOf files range)
    {file : FileMetaData α β} (member : file ∈ files) (ordered : file.smallest ≤ file.largest) :
    file.meetsRange range = true :=
  FileMetaData.meets_some_iff.mpr
    ⟨InternalKey.userKey_le_of_le ((isRange.le_smallest file member).trans ordered),
      InternalKey.userKey_le_of_le (ordered.trans (isRange.largest_le file member))⟩

theorem RangeOf.mono {files others : List (FileMetaData α β)}
    {range otherRange : InternalKey α × InternalKey α} (isRange : RangeOf files range)
    (isOther : RangeOf others otherRange) (subset : files ⊆ others) :
    otherRange.1 ≤ range.1 ∧ range.2 ≤ otherRange.2 := by
  obtain ⟨least, leastMember, leastEq⟩ := isRange.smallest_mem
  obtain ⟨greatest, greatestMember, greatestEq⟩ := isRange.largest_mem
  exact ⟨leastEq ▸ isOther.le_smallest least (subset leastMember),
    greatestEq ▸ isOther.largest_le greatest (subset greatestMember)⟩

section NoGap

variable {version : Version α β} (ordered : ∀ level, ∀ file ∈ version.files level,
  file.smallest ≤ file.largest)

include ordered

/-- The inputs of the two levels have no gap when the first ones have none. -/
theorem noGap_append {level : Nat} {inputs0 : List (FileMetaData α β)}
    (sublist : inputs0.Sublist (version.files level)) (noGap : NoGap inputs0)
    {range : InternalKey α × InternalKey α} (isRange : RangeOf inputs0 range) :
    NoGap (inputs0 ++
      version.getOverlappingInputs (level + 1) (some range.1) (some range.2)) := by
  refine noGap.of_meets (List.subset_append_left _ _) isRange fun file member => ?_
  rcases List.mem_append.mp member with in0 | in1
  · exact meetsRange_of_mem isRange in0 (ordered level file (sublist.subset in0))
  · rw [getOverlappingInputs_of_pos version (Nat.succ_pos level)] at in1
    exact (List.mem_filter.mp in1).2

/-- `SetupOtherInputs` makes no gap. -/
theorem setupOtherInputs_noGap {options : Options α β} {level : Nat}
    {inputs0 : List (FileMetaData α β)} (sublist : inputs0.Sublist (version.files level))
    (noGap : NoGap inputs0) {compaction : Compaction α β}
    (equal : setupOtherInputs options version level inputs0 = some compaction) :
    NoGap (compaction.inputs0 ++ compaction.inputs1) := by
  obtain ⟨range, isRange, outcome⟩ := setupOtherInputs_cases equal
  have noGapAll := noGap_append ordered sublist noGap isRange
  rcases outcome with ⟨is0, is1⟩ | ⟨all, newRange, isAll, is0, isNew, is1, sameLength⟩
  · rw [is0, is1]
    exact noGapAll
  · set inputs1 := version.getOverlappingInputs (level + 1) (some range.1) (some range.2)
      with inputs1Eq
    have in0 : inputs0 ⊆ compaction.inputs0 := by
      intro file member
      have inLevel := sublist.subset member
      rw [is0]
      exact mem_getOverlappingInputs_of_meets version level _ _ inLevel
        (meetsRange_of_mem isAll (List.mem_append_left _ member) (ordered level file inLevel))
    have same1 : compaction.inputs1 = inputs1 := by
      obtain ⟨lower, upper⟩ := isRange.mono isNew in0
      rw [is1] at sameLength ⊢
      rw [inputs1Eq, getOverlappingInputs_of_pos version (Nat.succ_pos level),
        getOverlappingInputs_of_pos version (Nat.succ_pos level)] at sameLength ⊢
      refine ((List.monotone_filter_right _ fun file meets => ?_).eq_of_length sameLength.symm).symm
      obtain ⟨belowLargest, aboveSmallest⟩ := FileMetaData.meets_some_iff.mp meets
      exact FileMetaData.meets_some_iff.mpr
        ⟨(InternalKey.userKey_le_of_le lower).trans belowLargest,
          aboveSmallest.trans (InternalKey.userKey_le_of_le upper)⟩
    have subset : inputs0 ++ inputs1 ⊆ compaction.inputs0 ++ compaction.inputs1 := by
      rw [same1]
      exact List.append_subset.mpr ⟨fun file member => List.mem_append_left _ (in0 member),
        List.subset_append_right _ _⟩
    rcases Nat.eq_zero_or_pos level with zero | positive
    · subst zero
      obtain ⟨seed, seedMember, _⟩ := isRange.smallest_mem
      have inLevel := sublist.subset seedMember
      refine noGap_getOverlappingInputs_zero noGapAll isAll (List.mem_append_left _ seedMember)
        inLevel (ordered 0 seed inLevel) subset ?_ fun file member => ?_
      · rw [← is0]
        exact List.subset_append_left _ _
      · rw [← is0]
        rcases List.mem_append.mp member with grown | next
        · exact Or.inr grown
        · exact Or.inl (List.mem_append_right _ (same1 ▸ next))
    · refine noGapAll.of_meets subset isAll fun file member => ?_
      rcases List.mem_append.mp member with grown | next
      · rw [is0, getOverlappingInputs_of_pos version positive] at grown
        exact (List.mem_filter.mp grown).2
      · rw [same1] at next
        exact meetsRange_of_mem isAll (List.mem_append_right _ next) (ordered (level + 1) file
          ((getOverlappingInputs_sublist version (level + 1) _ _).subset next))

/-- The inputs of an automatic compaction have no gap. -/
theorem setupPicked_noGap {options : Options α β} {level : Nat} {file : FileMetaData α β}
    (member : file ∈ version.files level) {compaction : Compaction α β}
    (equal : setupPicked options version level file = some compaction) :
    NoGap (compaction.inputs0 ++ compaction.inputs1) := by
  unfold setupPicked at equal
  split at equal
  · rename_i zero
    subst zero
    have isRange : RangeOf [file] (file.smallest, file.largest) := getRange_spec rfl
    have self : file ∈ version.getOverlappingInputs 0 (some file.smallest) (some file.largest) :=
      mem_getOverlappingInputs_of_meets version 0 _ _ member
        (meetsRange_of_mem isRange (List.mem_singleton.mpr rfl) (ordered 0 file member))
    refine setupOtherInputs_noGap ordered (getOverlappingInputs_sublist version 0 _ _) ?_ equal
    refine noGap_getOverlappingInputs_zero (noGap_singleton file) isRange
      (List.mem_singleton.mpr rfl) member (ordered 0 file member) ?_ (List.Subset.refl _)
      fun other grown => Or.inr grown
    intro other isFile
    rw [List.mem_singleton.mp isFile]
    exact self
  · exact setupOtherInputs_noGap ordered (List.singleton_sublist.mpr member) (noGap_singleton file)
      equal

end NoGap

end LevelDb
