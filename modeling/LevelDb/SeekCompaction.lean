/-
This file models how reads charge files for seeks, and proves what every compaction looks like that
is then picked: by `PickCompaction`, for its size or for a seek, or by `DBImpl::CompactRange`. A file
is charged when a read went on to another file after it. Below level 0 a read opens one file a level,
so a charged file is never at the last level.
-/

import LevelDb.CompactionReads
import LevelDb.Get
import LevelDb.SchedulerTables

namespace LevelDb

variable {α β φ : Type} [LinearOrder α]

/-! ### Charging a read -/

/-- The files of a level that may hold an internal key, in the order they are read. -/
def Version.filesOverlapping (version : Version α β) (key : InternalKey α) (level : Nat) :
    List (FileMetaData α β) :=
  if level = 0 then
    ((version.files level).filter fun file =>
      file.smallest.userKey ≤ key.userKey ∧ key.userKey ≤ file.largest.userKey).insertionSort
        fun first second => ¬ newestFirst second first
  else
    match (version.files level)[findFile (version.files level) key]? with
    | none => []
    | some file => if key.userKey < file.smallest.userKey then [] else [file]

/-- The files that `ForEachOverlapping` calls its function on, in order. -/
def Version.forEachOverlapping (version : Version α β) (key : InternalKey α) :
    List (LeveledFile α β) :=
  (List.range Config.kNumLevels).flatMap fun level =>
    (version.filesOverlapping key level).map fun file => (level, file)

/-- The file that the loop of `Version::Get` charges, when `goesOn` says after which files it reads
on. The others hold the key or cannot be read. -/
def chargedFile (goesOn : LeveledFile α β → Bool) :
    Option (LeveledFile α β) → Option (LeveledFile α β) → List (LeveledFile α β) →
      Option (LeveledFile α β)
  | seekFile, _, [] => seekFile
  | seekFile, lastFileRead, file :: rest =>
    let charged := if seekFile.isNone then lastFileRead else seekFile
    if goesOn file then chargedFile goesOn charged (some file) rest else charged

/-- The current version with the seeks its files are still allowed, by file number. The counters
belong to the files, so other versions that hold a file share them. -/
structure SeekState (α β : Type) where
  version : Version α β
  allowedSeeks : Nat → Int

namespace SeekState

/-- `UpdateStats`: whether a compaction should be scheduled, and the state after it. -/
def updateStats (state : SeekState α β) : Option (LeveledFile α β) → Bool × SeekState α β
  | none => (false, state)
  | some (level, file) =>
    let allowed := state.allowedSeeks file.number - 1
    let counted := { state with allowedSeeks := Function.update state.allowedSeeks file.number allowed }
    if allowed ≤ 0 ∧ state.version.fileToCompact.isNone then
      (true, { counted with version := { state.version with fileToCompact := some (file, level) } })
    else (false, counted)

/-- `RecordReadSample`: the first of at least two files that may hold the key is charged. -/
def recordReadSample (state : SeekState α β) (key : InternalKey α) : Bool × SeekState α β :=
  if (parseInternalKey key).isNone then (false, state)
  else
    match state.version.forEachOverlapping key with
    | first :: _ :: _ => state.updateStats (some first)
    | _ => (false, state)

/-- What charges the files of a version: a `Get` of a key, a sample of an iterator, and reads of
other versions that share its files. A new version comes with its own files. -/
inductive Action (α β : Type)
  | get (lookup : LookupKey α) (goesOn : LeveledFile α β → Bool)
  | recordReadSample (key : InternalKey α)
  | readElsewhere (number : Nat)
  | install (files : Nat → List (FileMetaData α β)) (allowedSeeks : Nat → Int)

/-- A version as `LogAndApply` leaves it. -/
def installed (files : Nat → List (FileMetaData α β)) : Version α β :=
  finalize { (Version.empty : Version α β) with files := files }

def step (state : SeekState α β) : Action α β → Option (SeekState α β)
  | .get lookup goesOn =>
    some (state.updateStats
      (chargedFile goesOn none none (state.version.forEachOverlapping lookup.internalKey))).2
  | .recordReadSample key => some (state.recordReadSample key).2
  | .readElsewhere number =>
    some { state with
      allowedSeeks := Function.update state.allowedSeeks number (state.allowedSeeks number - 1) }
  | .install files allowedSeeks => some ⟨installed files, allowedSeeks⟩

end SeekState

/-- The files `Version::Get` reads at a level are those that may hold its lookup key. -/
theorem filesToSearch_eq (version : Version α β) (lookup : LookupKey α) (level : Nat) :
    version.filesToSearch lookup level = version.filesOverlapping lookup.internalKey level := rfl

/-- `Version::Get` charges the file its loop over the files charges. -/
theorem get_charges (options : TableOptions α β φ) (version : Version α β) (lookup : LookupKey α) :
    (version.get options lookup).2 =
      chargedFile (fun file => match tableCacheGet options file.2 lookup with
        | .kNotFound => true
        | _ => false) none none (version.forEachOverlapping lookup.internalKey) := by
  have loop : ∀ (files : List (LeveledFile α β)) seekFile lastFileRead,
      (searchFiles options lookup seekFile lastFileRead files).2 =
        chargedFile (fun file => match tableCacheGet options file.2 lookup with
          | .kNotFound => true
          | _ => false) seekFile lastFileRead files := by
    intro files
    induction files with
    | nil => exact fun _ _ => rfl
    | cons file rest inductionHypothesis =>
      intro seekFile lastFileRead
      rw [searchFiles, chargedFile]
      cases tableCacheGet options file.2 lookup with
      | kNotFound => exact inductionHypothesis _ _
      | _ => rfl
  exact loop _ none none

/-! ### Where a charged file is -/

/-- Below level 0 a key is looked up in at most one file of a level. -/
theorem length_filesOverlapping_le (version : Version α β) (key : InternalKey α) {level : Nat}
    (positive : 0 < level) : (version.filesOverlapping key level).length ≤ 1 := by
  rw [Version.filesOverlapping, if_neg positive.ne']
  split
  · exact Nat.zero_le 1
  · split
    · exact Nat.zero_le 1
    · exact le_refl 1

theorem mem_of_mem_filesOverlapping {version : Version α β} {key : InternalKey α} {level : Nat}
    {file : FileMetaData α β} (member : file ∈ version.filesOverlapping key level) :
    file ∈ version.files level := by
  unfold Version.filesOverlapping at member
  split at member
  · exact (List.mem_filter.mp ((List.mem_insertionSort _).mp member)).1
  · split at member
    · cases member
    · rename_i found
      split at member
      · cases member
      · rw [List.mem_singleton.mp member]
        exact List.mem_of_getElem? found

/-- The first of two files that may hold a key is a file of its level, which is not the last. -/
theorem first_of_forEachOverlapping {version : Version α β} {key : InternalKey α}
    {first second : LeveledFile α β} {rest : List (LeveledFile α β)}
    (overlapping : version.forEachOverlapping key = first :: second :: rest) :
    first.2 ∈ version.files first.1 ∧ first.1 + 1 < Config.kNumLevels := by
  have isMember : first ∈ version.forEachOverlapping key := overlapping ▸ List.mem_cons_self
  obtain ⟨level, inRange, member⟩ := List.mem_flatMap.mp isMember
  obtain ⟨file, inLevel, rfl⟩ := List.mem_map.mp member
  refine ⟨mem_of_mem_filesOverlapping inLevel, ?_⟩
  have split : version.forEachOverlapping key =
      ((List.range (Config.kNumLevels - 1)).flatMap fun level =>
        (version.filesOverlapping key level).map fun file => (level, file)) ++
      (version.filesOverlapping key (Config.kNumLevels - 1)).map
        fun file => (Config.kNumLevels - 1, file) := by
    rw [Version.forEachOverlapping, show Config.kNumLevels = Config.kNumLevels - 1 + 1 from rfl,
      List.range_succ, List.flatMap_append, List.flatMap_singleton]
    rfl
  cases above : (List.range (Config.kNumLevels - 1)).flatMap fun level =>
      (version.filesOverlapping key level).map fun file => (level, file) with
  | nil =>
    have atMostOne := length_filesOverlapping_le version key
      (show 0 < Config.kNumLevels - 1 by decide)
    rw [above, List.nil_append, overlapping] at split
    have lengths := congrArg List.length split
    rw [List.length_map, List.length_cons, List.length_cons] at lengths
    omega
  | cons head tail =>
    rw [above, overlapping, List.cons_append] at split
    have isHead : (level, file) = head := (List.cons.inj split).1
    have inAbove : head ∈ (List.range (Config.kNumLevels - 1)).flatMap fun level =>
        (version.filesOverlapping key level).map fun file => (level, file) :=
      above ▸ List.mem_cons_self
    obtain ⟨level', inRange', member'⟩ := List.mem_flatMap.mp inAbove
    obtain ⟨file', -, same⟩ := List.mem_map.mp member'
    have sameLevel : level' = level := congrArg Prod.fst (same.trans isHead.symm)
    exact Nat.add_lt_of_lt_sub (sameLevel ▸ List.mem_range.mp inRange')

omit [LinearOrder α] in
/-- The charged file is the first one read, and there is another one after it. -/
theorem of_chargedFile {goesOn : LeveledFile α β → Bool} {files : List (LeveledFile α β)}
    {charged : LeveledFile α β} (isCharged : chargedFile goesOn none none files = some charged) :
    ∃ second rest, files = charged :: second :: rest := by
  have sticks : ∀ (files : List (LeveledFile α β)) file last,
      chargedFile goesOn (some file) last files = some file := by
    intro files
    induction files with
    | nil => exact fun _ _ => rfl
    | cons other rest inductionHypothesis =>
      intro file last
      rw [chargedFile]
      split
      · exact inductionHypothesis file (some other)
      · rfl
  cases files with
  | nil => cases isCharged
  | cons first rest =>
    rw [chargedFile] at isCharged
    split at isCharged
    · cases rest with
      | nil => cases isCharged
      | cons second rest =>
        have isFirst : chargedFile goesOn none (some first) (second :: rest) = some first := by
          rw [chargedFile]
          split
          · exact sticks rest first (some second)
          · rfl
        obtain rfl := Option.some.inj (isFirst.symm.trans isCharged)
        exact ⟨second, rest, rfl⟩
    · cases isCharged

/-! ### The best level -/

omit [LinearOrder α] in
theorem bestLevel_le (version : Version α β) (count : Nat) :
    (bestLevel version (count + 1)).1 ≤ count := by
  induction count with
  | zero =>
    rw [bestLevel]
    split
    · exact le_refl 0
    · exact le_refl 0
  | succ count inductionHypothesis =>
    rw [bestLevel]
    split
    · exact le_refl _
    · exact inductionHypothesis.trans (Nat.le_succ count)

omit [LinearOrder α] in
theorem bestLevel_score (version : Version α β) (count : Nat) :
    (bestLevel version count).2 = -1 ∨
      (bestLevel version count).2 = compactionScoreAt version (bestLevel version count).1 := by
  induction count with
  | zero => exact .inl rfl
  | succ count inductionHypothesis =>
    rw [bestLevel]
    split
    · exact .inr rfl
    · exact inductionHypothesis

omit [LinearOrder α] in
/-- A level with a score has a file. -/
theorem files_ne_nil_of_score {version : Version α β} {level : Nat}
    (score : 1 ≤ compactionScoreAt version level) : version.files level ≠ [] := by
  intro empty
  unfold compactionScoreAt at score
  split at score
  next isZero =>
    rw [isZero] at empty
    rw [empty] at score
    norm_num at score
  next =>
    rw [empty] at score
    norm_num [totalFileSize] at score

namespace SeekState

/-- What every history of reads keeps true: the scores are those of the files, and the file to
compact is one of them, above the last level. -/
structure Sound (state : SeekState α β) : Prop where
  sorted : state.version.Sorted
  level : state.version.compactionLevel = (installed state.version.files).compactionLevel
  score : state.version.compactionScore = (installed state.version.files).compactionScore
  seek : ∀ file level, state.version.fileToCompact = some (file, level) →
    file ∈ state.version.files level ∧ level + 1 < Config.kNumLevels

/-- Versions are valid when they are installed. -/
def Valid (_ : SeekState α β) : Action α β → Prop
  | .install files _ => (installed files).Sorted
  | _ => True

theorem sound_installed {files : Nat → List (FileMetaData α β)} (valid : (installed files).Sorted)
    (allowedSeeks : Nat → Int) : Sound ⟨installed files, allowedSeeks⟩ where
  sorted := valid
  level := rfl
  score := rfl
  seek := fun _ _ isNone => by cases isNone

theorem Sound.updateStats {state : SeekState α β} (sound : state.Sound)
    {charged : Option (LeveledFile α β)} (above : ∀ place ∈ charged,
      place.2 ∈ state.version.files place.1 ∧ place.1 + 1 < Config.kNumLevels) :
    (state.updateStats charged).2.Sound := by
  unfold SeekState.updateStats
  cases charged with
  | none => exact sound
  | some place =>
    dsimp only
    split
    · refine ⟨⟨sound.sorted.valid, sound.sorted.disjoint⟩, sound.level, sound.score, ?_⟩
      rintro file level isPlace
      obtain ⟨rfl, rfl⟩ := Prod.mk.inj (Option.some.inj isPlace)
      exact above place rfl
    · exact { sound with }

theorem Sound.step {state state' : SeekState α β} (sound : state.Sound) {action : Action α β}
    (valid : state.Valid action) (taken : state.step action = some state') : state'.Sound := by
  cases action with
  | get lookup goesOn =>
    obtain rfl := Option.some.inj taken
    refine sound.updateStats fun place isCharged => ?_
    obtain ⟨second, rest, overlapping⟩ := of_chargedFile isCharged
    exact first_of_forEachOverlapping overlapping
  | recordReadSample key =>
    obtain rfl := Option.some.inj taken
    unfold SeekState.recordReadSample
    split
    · exact sound
    · split
      next first second rest overlapping =>
        refine sound.updateStats fun place isCharged => ?_
        obtain rfl := Option.some.inj isCharged
        exact first_of_forEachOverlapping overlapping
      next => exact sound
  | readElsewhere number =>
    obtain rfl := Option.some.inj taken
    exact { sound with }
  | install files allowedSeeks =>
    obtain rfl := Option.some.inj taken
    exact sound_installed valid allowedSeeks

/-- The best level is above the last one. -/
theorem Sound.compactionLevel_lt {state : SeekState α β} (sound : state.Sound) :
    state.version.compactionLevel + 1 < Config.kNumLevels := by
  rw [sound.level]
  exact Nat.succ_lt_succ (Nat.lt_succ_of_le (bestLevel_le _ 5))

/-- A level that is compacted for its size has a file. -/
theorem Sound.files_ne_nil {state : SeekState α β} (sound : state.Sound)
    (score : 1 ≤ state.version.compactionScore) :
    state.version.files state.version.compactionLevel ≠ [] := by
  rw [sound.score] at score
  rw [sound.level]
  obtain unscored | scored := bestLevel_score
    { (Version.empty : Version α β) with files := state.version.files } (Config.kNumLevels - 1)
  · rw [show (installed state.version.files).compactionScore = -1 from unscored] at score
    norm_num at score
  · exact files_ne_nil_of_score (scored ▸ score)

end SeekState

/-! ### Picked compactions -/

/-- A file of the next level meets the user keys from the first to the last of the inputs. -/
def FileMetaData.MeetsInputs (inputs : List (FileMetaData α β)) (file : FileMetaData α β) : Prop :=
  (∃ first ∈ inputs, first.smallest.userKey ≤ file.largest.userKey) ∧
    ∃ last ∈ inputs, file.smallest.userKey ≤ last.largest.userKey

/-- The bookkeeping of a compaction of `version`. -/
structure Compaction.Exact (version : Version α β) (compaction : Compaction α β) : Prop where
  level : compaction.level + 1 < Config.kNumLevels
  nonempty : compaction.inputs0 ≠ []
  inputs0 : ∀ file ∈ compaction.inputs0, file ∈ version.files compaction.level
  inputs1 : ∀ file, file ∈ compaction.inputs1 ↔
    file ∈ version.files (compaction.level + 1) ∧ file.MeetsInputs compaction.inputs0

theorem meetsRange_iff_meetsInputs {inputs : List (FileMetaData α β)}
    {range : InternalKey α × InternalKey α} (isRange : RangeOf inputs range)
    (file : FileMetaData α β) : file.meetsRange range = true ↔ file.MeetsInputs inputs := by
  obtain ⟨⟨least, leastIn, leastEq⟩, ⟨greatest, greatestIn, greatestEq⟩, lower, upper⟩ := isRange
  rw [FileMetaData.meetsRange, FileMetaData.meets_some_iff]
  constructor
  · rintro ⟨above, below⟩
    exact ⟨⟨least, leastIn, leastEq ▸ above⟩, ⟨greatest, greatestIn, greatestEq ▸ below⟩⟩
  · rintro ⟨⟨first, firstIn, above⟩, ⟨last, lastIn, below⟩⟩
    exact ⟨(InternalKey.userKey_le_of_le (lower first firstIn)).trans above,
      below.trans (InternalKey.userKey_le_of_le (upper last lastIn))⟩

theorem Compaction.Chosen.exact {version : Version α β} {compaction : Compaction α β}
    (chosen : compaction.Chosen version) (level : compaction.level + 1 < Config.kNumLevels) :
    compaction.Exact version where
  level := level
  nonempty := chosen.nonempty
  inputs0 := fun _ member => chosen.inputs0_sublist.subset member
  inputs1 := fun file => by
    obtain ⟨range, isRange, isFilter⟩ := chosen.inputs1_eq
    rw [isFilter, List.mem_filter, meetsRange_iff_meetsInputs isRange]

/-- The levels that `DBImpl::CompactRange` compacts: down to the one above the last level whose files
meet the range. -/
def Version.compactRangeLevels (base : Version α β) (first last : Option α) : List Nat :=
  List.range ((List.range' 1 (Config.kNumLevels - 1)).foldl (fun maxLevelWithFiles level =>
    if base.overlapInLevel level first last then level else maxLevelWithFiles) 1)

theorem lt_of_mem_compactRangeLevels {base : Version α β} {first last : Option α} {level : Nat}
    (member : level ∈ base.compactRangeLevels first last) : level + 1 < Config.kNumLevels := by
  have bounded : ∀ (levels : List Nat) start, start < Config.kNumLevels →
      (∀ level ∈ levels, level < Config.kNumLevels) →
      levels.foldl (fun maxLevelWithFiles level =>
        if base.overlapInLevel level first last then level else maxLevelWithFiles) start <
          Config.kNumLevels := by
    intro levels
    induction levels with
    | nil => exact fun _ isStart _ => isStart
    | cons level rest inductionHypothesis =>
      intro start isStart all
      refine inductionHypothesis _ ?_ fun other otherIn => all other (List.mem_cons_of_mem _ otherIn)
      dsimp only
      split
      · exact all level List.mem_cons_self
      · exact isStart
  have below := List.mem_range.mp member
  refine (Nat.succ_le_of_lt below).trans_lt (bounded _ 1 (by decide) fun other otherIn => ?_)
  have := List.mem_range'_1.mp otherIn
  rw [show Config.kNumLevels = 7 from rfl] at *
  omega

/-- A compaction that is due can be picked, and its books are in order. -/
theorem SeekState.Sound.pickCompaction_eq {state : SeekState α β} (sound : state.Sound)
    (options : Options α β) (compactPointer : Nat → Option (InternalKey α))
    (due : 1 ≤ state.version.compactionScore ∨ state.version.fileToCompact.isSome) :
    ∃ compaction, pickCompaction options state.version compactPointer = some compaction ∧
      compaction.Exact state.version := by
  have setup : ∀ level, level + 1 < Config.kNumLevels → ∀ file ∈ state.version.files level,
      ∃ compaction, setupPicked options state.version level file = some compaction ∧
        compaction.Exact state.version := by
    intro level isAbove file member
    obtain ⟨compaction, isSetup, rfl, chosen⟩ := setupPicked_chosen options member
      (sound.sorted.valid level file member).smallest_le_largest
    exact ⟨compaction, isSetup, chosen.exact isAbove⟩
  unfold pickCompaction
  split
  next score =>
    obtain ⟨head, rest, isCons⟩ := List.exists_cons_of_ne_nil (sound.files_ne_nil score)
    obtain ⟨file, picked, member⟩ : ∃ file,
        (((state.version.files state.version.compactionLevel).find? fun file =>
          (compactPointer state.version.compactionLevel).all fun pointer => pointer < file.largest).or
            (state.version.files state.version.compactionLevel).head?) = some file ∧
          file ∈ state.version.files state.version.compactionLevel := by
      cases found : (state.version.files state.version.compactionLevel).find? fun file =>
          (compactPointer state.version.compactionLevel).all fun pointer => pointer < file.largest with
      | some file => exact ⟨file, rfl, List.mem_of_find?_eq_some found⟩
      | none => exact ⟨head, by rw [isCons]; rfl, isCons ▸ List.mem_cons_self⟩
    obtain ⟨compaction, isSetup, exact⟩ := setup _ sound.compactionLevel_lt file member
    exact ⟨compaction, by dsimp only; rw [picked, Option.bind_some, isSetup], exact⟩
  next noScore =>
    obtain ⟨⟨file, level⟩, charged⟩ := Option.isSome_iff_exists.mp (due.resolve_left noScore)
    obtain ⟨member, isAbove⟩ := sound.seek file level charged
    obtain ⟨compaction, isSetup, exact⟩ := setup level isAbove file member
    exact ⟨compaction, by rw [charged, Option.bind_some, isSetup], exact⟩

open SeekState in
/-- Whatever reads a version has seen, a compaction that is due can be picked, and what is picked,
or chosen by `DBImpl::CompactRange`, has its books in order. -/
theorem compactions_exact (options : Options α β) {files : Nat → List (FileMetaData α β)}
    (valid : (installed files).Sorted) (allowedSeeks : Nat → Int) {state : SeekState α β}
    (reached : Lib.Reachable step Valid ⟨installed files, allowedSeeks⟩ state) :
    (∀ compactPointer,
      (1 ≤ state.version.compactionScore ∨ state.version.fileToCompact.isSome →
        (pickCompaction options state.version compactPointer).isSome) ∧
      ∀ compaction, pickCompaction options state.version compactPointer = some compaction →
        compaction.Exact state.version) ∧
    ∀ (base : Version α β) (first last : Option α), ∀ level ∈ base.compactRangeLevels first last,
      ∀ lower upper compaction, compactRange options state.version level lower upper = some compaction →
        compaction.Exact state.version := by
  have sound : state.Sound :=
    reached.invariant (sound_installed valid allowedSeeks) fun _ _ _ sound isValid taken =>
      sound.step isValid taken
  refine ⟨fun compactPointer => ⟨fun due => ?_, fun compaction picked => ?_⟩, ?_⟩
  · obtain ⟨compaction, picked, -⟩ := sound.pickCompaction_eq options compactPointer due
    rw [picked]
    rfl
  · by_cases due : 1 ≤ state.version.compactionScore ∨ state.version.fileToCompact.isSome
    · obtain ⟨compaction', picked', exact⟩ := sound.pickCompaction_eq options compactPointer due
      obtain rfl := Option.some.inj (picked'.symm.trans picked)
      exact exact
    · obtain ⟨noScore, noFile⟩ := not_or.mp due
      rw [pickCompaction, if_neg noScore, Option.not_isSome_iff_eq_none.mp noFile] at picked
      cases picked
  · intro base first last level member lower upper compaction chosen
    obtain ⟨rfl, isChosen⟩ := compactRange_chosen chosen
    exact isChosen.exact (lt_of_mem_compactRangeLevels member)

open SeekState in
/-- One read of a key that lies in two files of level 0 and two of level 1. -/
theorem compactions_exact_straddling : ∃ (state : SeekState Nat Nat) (compaction : Compaction Nat Nat),
    Lib.Reachable step Valid ⟨installed straddlingDb.version.files, fun _ => 1⟩ state ∧
      state.version.fileToCompact.isSome ∧
      pickCompaction smallOptions state.version (fun _ => none) = some compaction ∧
      compaction.Exact state.version := by
  have sorted := straddlingDb_layered.version_sorted
  have reached : Lib.Reachable step Valid
      (⟨installed straddlingDb.version.files, fun _ => 1⟩ : SeekState Nat Nat) _ :=
    .next (.get ⟨2, 3⟩ fun _ => true) .refl trivial rfl
  have exact := compactions_exact smallOptions ⟨sorted.valid, sorted.disjoint⟩ _ reached
  obtain ⟨isDue, isExact⟩ := exact.1 fun _ => none
  have charged : ((⟨installed straddlingDb.version.files, fun _ => 1⟩ : SeekState Nat Nat).updateStats
      (chargedFile (fun _ => true) none none ((installed straddlingDb.version.files).forEachOverlapping
        (LookupKey.internalKey ⟨2, 3⟩)))).2.version.fileToCompact.isSome := by decide +kernel
  obtain ⟨compaction, picked⟩ := Option.isSome_iff_exists.mp (isDue (.inr charged))
  exact ⟨_, compaction, reached, charged, picked, isExact compaction picked⟩

end LevelDb
