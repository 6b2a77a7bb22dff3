/-
This file proves that a compaction changes no read at a live snapshot, wherever in the database the
entries of the user key lie: what stays above the inputs is newer than they are, and the outputs
with the levels below them serve what the inputs served. The condition is that the compaction leaves no
file behind with older entries of a user key that one of its inputs ends with.
-/

import LevelDb.CompactionReads
import LevelDb.LayeredRuns
import LevelDb.Lib.Served

namespace LevelDb

open Lib

variable {α β : Type} [LinearOrder α]

/-! ### What is served -/

omit [LinearOrder α] in
/-- The value of an entry; a deletion carries none. -/
def Entry.carried (entry : Entry α β) : Option β :=
  if entry.IsDeletion then none else some entry.value

omit [LinearOrder α] in
theorem Entry.carried_isSome {entry : Entry α β} :
    entry.carried.isSome = true ↔ ¬ entry.IsDeletion := by
  rw [Entry.carried]
  split <;> simp_all

omit [LinearOrder α] in
/-- The value that a read of a user key at a sequence number is served. -/
abbrev Served (content : Set (Entry α β)) (userKey : α) (snapshot : Nat) (value : Option β) : Prop :=
  Serves Entry.userKey Entry.sequence Entry.carried content userKey snapshot value

/-! ### What a compaction leaves behind -/

/-- The compaction leaves a file behind at the level of its outputs that starts with the user key
one of its inputs there ends with. -/
def Compaction.leavesOlderBelow (compaction : Compaction α β) : Bool :=
  compaction.inputs1.any fun input =>
    (compaction.inputVersion.files (compaction.level + 1)).any fun file =>
      (compaction.inputs1.all fun other => decide (other.number ≠ file.number)) &&
        decide (input.largest < file.smallest) &&
        decide (input.largest.userKey = file.smallest.userKey)

theorem leavesOlderBelow_iff {compaction : Compaction α β} :
    compaction.leavesOlderBelow = true ↔
      ∃ input ∈ compaction.inputs1,
        ∃ file ∈ compaction.inputVersion.files (compaction.level + 1),
          (∀ other ∈ compaction.inputs1, other.number ≠ file.number) ∧
            input.largest < file.smallest ∧ input.largest.userKey = file.smallest.userKey := by
  simp only [Compaction.leavesOlderBelow, Bool.and_eq_true, decide_eq_true_eq, List.any_eq_true,
    List.all_eq_true, and_assoc]

/-- The step compacts no file away from older entries of a user key it ends with, at neither of the
two levels, and there are sequence numbers left. -/
structure Db.KeepsWhole (options : Options α β) (db : Db α β) (action : Action α β) : Prop where
  older : db.KeepsOlder options action
  below : ∀ compaction ∈ db.chosen options action, compaction.leavesOlderBelow = false
  bounded : ∀ compaction ∈ db.chosen options action,
    oldestSnapshot db.snapshots db.lastSequence < kMaxSequenceNumber

section Chosen

variable {version : Version α β} {compaction : Compaction α β} {bound next : Nat}
  {file input : FileMetaData α β}

/-- A file that shares a user key with one of the files of a range meets the range. -/
theorem RangeOf.meets_of_shared {files : List (FileMetaData α β)}
    {range : InternalKey α × InternalKey α} (isRange : RangeOf files range) (member : input ∈ files)
    (valid : input.Valid) (fileValid : file.Valid) {entry other : Entry α β}
    (inFile : entry ∈ file.entries) (inInput : other ∈ input.entries)
    (same : entry.userKey = other.userKey) : file.meetsRange range = true := by
  have fileCovers := fileValid.covers inFile
  rw [same] at fileCovers
  exact FileMetaData.meets_some_iff.mpr
    ⟨(InternalKey.userKey_le_of_le ((isRange.le_smallest input member).trans
        (valid.smallest_le other inInput))).trans fileCovers.2,
      fileCovers.1.trans (InternalKey.userKey_le_of_le
        ((valid.le_largest other inInput).trans (isRange.largest_le input member)))⟩

/-- At the level of the outputs a file that stays is newer than an input for every user key they
share. -/
theorem Compaction.Chosen.newer_of_left_below (chosen : compaction.Chosen version)
    (shape : version.Shape bound next)
    (unique : ∀ level level', ∀ first ∈ version.levelEntries level,
      ∀ second ∈ version.levelEntries level', first.sequence = second.sequence → first = second)
    (leaves : compaction.leavesOlderBelow = false)
    (inFiles : file ∈ version.files (compaction.level + 1)) (notInput : file ∉ compaction.inputs1)
    {level : Nat} (isInput : compaction.IsInput level input) {newer older : Entry α β}
    (inFile : newer ∈ file.entries) (inInput : older ∈ input.entries)
    (same : newer.userKey = older.userKey) : older.sequence < newer.sequence := by
  have fileValid := shape.sorted.valid _ file inFiles
  have inputValid := shape.sorted.valid _ input (isInput.mem_files chosen)
  rcases isInput with ⟨rfl, isInput⟩ | ⟨rfl, isInput⟩
  · obtain ⟨range, isRange, isFilter⟩ := chosen.inputs1_eq
    rw [isFilter] at notInput
    exact absurd (List.mem_filter.mpr ⟨inFiles,
      isRange.meets_of_shared isInput inputValid fileValid inFile inInput same⟩) notInput
  · have inLevel := chosen.inputs1_sublist.subset isInput
    have different : ∀ other ∈ compaction.inputs1, other.number ≠ file.number := by
      intro other isOther sameNumber
      exact notInput (shape.distinct.eq_of_number (chosen.inputs1_sublist.subset isOther) inFiles
        sameNumber ▸ isOther)
    rcases (shape.sorted.disjoint _ (Nat.succ_pos _)).apart inLevel inFiles
        (different input isInput) with before | after
    · have inputCovers := inputValid.covers inInput
      have fileCovers := fileValid.covers inFile
      rw [same] at fileCovers
      have leavesIt : compaction.leavesOlderBelow = true := by
        refine leavesOlderBelow_iff.mpr ⟨input, isInput, file, ?_, different, before, ?_⟩
        · rw [chosen.inputVersion_eq]
          exact inFiles
        · exact le_antisymm (InternalKey.userKey_le_of_lt before)
            (fileCovers.1.trans inputCovers.2)
      rw [leaves] at leavesIt
      cases leavesIt
    · have order : newer.key < older.key :=
        ((fileValid.le_largest newer inFile).trans_lt after).trans_le
          (inputValid.smallest_le older inInput)
      refine lt_of_le_of_ne (InternalKey.sequence_le_of_le order.le same) fun sameSequence => ?_
      rw [unique _ _ older ⟨input, inLevel, inInput⟩ newer ⟨file, inFiles, inFile⟩ sameSequence]
        at order
      exact absurd order (lt_irrefl _)

theorem Compaction.Chosen.deeperSorted (chosen : compaction.Chosen version)
    (sorted : version.Sorted) : DeeperSorted compaction where
  valid := fun level _ => by
    rw [chosen.inputVersion_eq]
    exact sorted.valid level
  disjoint := fun level isDeeper => by
    rw [chosen.inputVersion_eq]
    have positive : 0 < level := by
      have := (List.mem_range'_1.mp isDeeper).1
      omega
    exact sorted.disjoint level positive

end Chosen

/-! ### Above and below the outputs -/

/-- The entries above the inputs of a compaction: those of the memtables and of the files that stay
at the levels down to that of the outputs. -/
def Db.above (db : Db α β) (compaction : Compaction α β) : Set (Entry α β) :=
  {entry | entry ∈ db.mem ∨ (∃ imm ∈ db.imm, entry ∈ imm) ∨
    ∃ level ≤ compaction.level + 1, ∃ file ∈ db.version.files level,
      ¬ compaction.IsInput level file ∧ entry ∈ file.entries}

section Replaced

variable {db : Db α β} {compaction : Compaction α β} {options : Options α β}

theorem mem_deeperEntries (stacked : db.Stacked) (chosen : compaction.Chosen db.version)
    {entry : Entry α β} : entry ∈ deeperEntries compaction ↔
      ∃ level, compaction.level + 1 < level ∧ entry ∈ db.version.levelEntries level := by
  have levels : ∀ level, level ∈ deeperLevels compaction ↔
      compaction.level + 1 < level ∧ level < Config.kNumLevels := by
    intro level
    rw [deeperLevels, List.mem_range'_1]
    omega
  rw [deeperEntries, chosen.inputVersion_eq]
  constructor
  · rintro ⟨level, isDeeper, inLevel⟩
    exact ⟨level, ((levels level).mp isDeeper).1, inLevel⟩
  · rintro ⟨level, isBelow, file, inFiles, inFile⟩
    refine ⟨level, (levels level).mpr ⟨isBelow, ?_⟩, file, inFiles, inFile⟩
    by_contra outside
    rw [stacked.bottom level (not_lt.mp outside)] at inFiles
    exact absurd inFiles List.not_mem_nil

/-- A database whose memtables are those of another one, and whose files are the other's that are
no inputs and some further ones, is what is above the inputs, the further files, and the levels
below. -/
theorem Db.entries_of_files {db' : Db α β} (stacked : db.Stacked)
    (chosen : compaction.Chosen db.version) {further : Nat → FileMetaData α β → Prop}
    {content : Set (Entry α β)}
    (contains : ∀ entry, entry ∈ content ↔ ∃ level file, further level file ∧ entry ∈ file.entries)
    (mem : db'.mem = db.mem) (imm : db'.imm = db.imm)
    (files : ∀ level file, file ∈ db'.version.files level ↔
      (file ∈ db.version.files level ∧ ¬ compaction.IsInput level file) ∨ further level file) :
    db'.entries = db.above compaction ∪ (content ∪ deeperEntries compaction) := by
  ext entry
  constructor
  · rintro (inMem | inImm | ⟨level, file, inFiles, inFile⟩)
    · exact Or.inl (Or.inl (mem ▸ inMem))
    · exact Or.inl (Or.inr (Or.inl (imm ▸ inImm)))
    · rcases (files level file).mp inFiles with ⟨old, stays⟩ | isFurther
      · rcases Nat.lt_or_ge (compaction.level + 1) level with deeper | above
        · exact Or.inr (Or.inr ((mem_deeperEntries stacked chosen).mpr
            ⟨level, deeper, file, old, inFile⟩))
        · exact Or.inl (Or.inr (Or.inr ⟨level, above, file, old, stays, inFile⟩))
      · exact Or.inr (Or.inl ((contains entry).mpr ⟨level, file, isFurther, inFile⟩))
  · rintro ((inMem | inImm | ⟨level, _, file, inFiles, stays, inFile⟩) | isFurther | isDeeper)
    · exact Or.inl (mem ▸ inMem)
    · exact Or.inr (Or.inl (imm ▸ inImm))
    · exact Or.inr (Or.inr ⟨level, file, (files level file).mpr (Or.inl ⟨inFiles, stays⟩), inFile⟩)
    · obtain ⟨level, file, isFile, inFile⟩ := (contains entry).mp isFurther
      exact Or.inr (Or.inr ⟨level, file, (files level file).mpr (Or.inr isFile), inFile⟩)
    · obtain ⟨level, below, file, inFiles, inFile⟩ := (mem_deeperEntries stacked chosen).mp isDeeper
      refine Or.inr (Or.inr ⟨level, file, (files level file).mpr (Or.inl ⟨inFiles, ?_⟩), inFile⟩)
      rintro (⟨rfl, -⟩ | ⟨rfl, -⟩) <;> omega

/-- The database is what is above the inputs, the inputs, and the levels below them. -/
theorem Db.entries_eq_above (stacked : db.Stacked) (chosen : compaction.Chosen db.version) :
    db.entries =
      db.above compaction ∪ (compaction.inputEntries ∪ deeperEntries compaction) := by
  refine Db.entries_of_files stacked chosen (fun entry => mem_inputEntries) rfl rfl
    fun level file => ⟨fun inFiles => ?_, fun member => ?_⟩
  · exact (em (compaction.IsInput level file)).elim Or.inr fun stays => Or.inl ⟨inFiles, stays⟩
  · exact member.elim And.left fun isInput => isInput.mem_files chosen

/-- After a compaction the added files are where the inputs were. -/
theorem Db.entries_of_installs {db' : Db α β} (stacked : db.Stacked)
    (chosen : compaction.Chosen db.version) {added : List (FileMetaData α β)}
    (installs : compaction.Installs db.version db'.version added) (mem : db'.mem = db.mem)
    (imm : db'.imm = db.imm) :
    db'.entries = db.above compaction ∪ (fileEntries added ∪ deeperEntries compaction) := by
  refine Db.entries_of_files stacked chosen (fun entry => ⟨?_, ?_⟩) mem imm installs
  · rintro ⟨new, isNew, inNew⟩
    exact ⟨_, preparedFile new, ⟨rfl, new, isNew, rfl⟩, inNew⟩
  · rintro ⟨level, file, ⟨-, new, isNew, rfl⟩, inNew⟩
    exact ⟨new, isNew, inNew⟩

/-- What is above the inputs is newer than they are and than the levels below. -/
theorem Db.Stacked.above_newer (stacked : db.Stacked) (chosen : compaction.Chosen db.version)
    (leaves : compaction.leavesOlder = false) (leavesBelow : compaction.leavesOlderBelow = false) :
    Newer Entry.userKey Entry.sequence (db.above compaction)
      (compaction.inputEntries ∪ deeperEntries compaction) := by
  obtain ⟨flushed, switched, aged⟩ := stacked.ordered.aged
  have unique : ∀ level level', ∀ first ∈ db.version.levelEntries level,
      ∀ second ∈ db.version.levelEntries level', first.sequence = second.sequence →
        first = second := fun level level' first inFirst second inSecond =>
    stacked.ordered.unique (Or.inr (Or.inr ⟨level, inFirst⟩)) (Or.inr (Or.inr ⟨level', inSecond⟩))
  have inVersion : ∀ older ∈ compaction.inputEntries ∪ deeperEntries compaction,
      ∃ level, older ∈ db.version.levelEntries level := by
    rintro older (inInputs | isDeeper)
    · obtain ⟨level, file, isInput, inFile⟩ := mem_inputEntries.mp inInputs
      exact ⟨level, file, isInput.mem_files chosen, inFile⟩
    · obtain ⟨level, -, inLevel⟩ := (mem_deeperEntries stacked chosen).mp isDeeper
      exact ⟨level, inLevel⟩
  rintro newer (inMem | ⟨imm, isImm, inImm⟩ | ⟨level, above, file, inFiles, notInput, inFile⟩) older
    isOlder same
  · obtain ⟨lower, inLevel⟩ := inVersion older isOlder
    exact stacked.layered.mem_newer lower newer inMem older inLevel same
  · obtain ⟨lower, inLevel⟩ := inVersion older isOlder
    exact stacked.layered.imm_newer imm isImm lower newer inImm older inLevel same
  · rcases isOlder with inInputs | isDeeper
    · obtain ⟨lower, input, isInput, inInput⟩ := mem_inputEntries.mp inInputs
      have inLower := isInput.mem_files chosen
      rcases Nat.lt_or_ge level lower with order | order
      · exact stacked.ordered.recent level lower order newer ⟨file, inFiles, inFile⟩ older
          ⟨input, inLower, inInput⟩ same
      · rcases Nat.lt_or_ge level (compaction.level + 1) with isUpper | isLower
        · rcases isInput with ⟨rfl, isInput⟩ | ⟨rfl, isInput⟩
          · obtain rfl := le_antisymm order (Nat.lt_succ_iff.mp isUpper)
            exact chosen.newer_of_left aged.shape unique leaves inFiles
              (fun inInputs => notInput (Or.inl ⟨rfl, inInputs⟩)) isInput inFile inInput same
          · exact absurd order (not_le_of_gt isUpper)
        · obtain rfl := le_antisymm above isLower
          exact chosen.newer_of_left_below aged.shape unique leavesBelow inFiles
            (fun inInputs => notInput (Or.inr ⟨rfl, inInputs⟩)) isInput inFile inInput same
    · obtain ⟨lower, order, inLevel⟩ := (mem_deeperEntries stacked chosen).mp isDeeper
      exact stacked.ordered.recent level lower (above.trans_lt order) newer
        ⟨file, inFiles, inFile⟩ older inLevel same

/-! ### The database after a step -/

theorem Db.doCompaction_installs (db : Db α β) (options : Options α β) {flushed switched : Nat}
    (aged : db.Aged flushed switched) (chosen : compaction.Chosen db.version) :
    compaction.Installs db.version (db.doCompaction options compaction).version
      (doCompactionWork options compaction (oldestSnapshot db.snapshots db.lastSequence)
        db.nextFileNumber).1 := by
  have installs := compact_installs aged.shape chosen options
    (oldestSnapshot db.snapshots db.lastSequence)
  cases db
  exact installs

/-- A compaction serves at every live snapshot what was served before it. -/
theorem Db.Stacked.doCompaction_served (stacked : db.Stacked)
    (chosen : compaction.Chosen db.version) (leaves : compaction.leavesOlder = false)
    (leavesBelow : compaction.leavesOlderBelow = false)
    (bounded : oldestSnapshot db.snapshots db.lastSequence < kMaxSequenceNumber) {userKey : α}
    {snapshot : Nat} {value : Option β}
    (live : oldestSnapshot db.snapshots db.lastSequence ≤ snapshot)
    (served : Served db.entries userKey snapshot value) :
    Served (db.doCompaction options compaction).entries userKey snapshot value := by
  obtain ⟨flushed, switched, aged⟩ := stacked.ordered.aged
  have newer := stacked.above_newer chosen leaves leavesBelow
  have input : compaction.inputEntries = {entry | entry ∈ makeInputIterator compaction} :=
    Set.ext fun entry => mem_fileEntries.trans (makeInputIterator_perm compaction).mem_iff.symm
  have output : fileEntries (doCompactionWork options compaction
      (oldestSnapshot db.snapshots db.lastSequence) db.nextFileNumber).1 =
        {entry | entry ∈ keptEntries compaction (oldestSnapshot db.snapshots db.lastSequence)
          DropState.initial (makeInputIterator compaction)} :=
    Set.ext fun entry => by rw [mem_fileEntries, doCompactionWork_entries]; exact Iff.rfl
  have parses : ∀ entry ∈ makeInputIterator compaction, entry.userKey = userKey → entry.Parses := by
    intro entry member _
    obtain ⟨level, file, isInput, inFile⟩ := mem_inputEntries.mp
      (input.symm ▸ member : entry ∈ compaction.inputEntries)
    exact stacked.parses entry (Or.inr (Or.inr ⟨level, file, isInput.mem_files chosen, inFile⟩))
  have entries := Db.entries_of_installs stacked chosen
    (db.doCompaction_installs options aged chosen) (Db.doCompaction_mem options db compaction)
    (Db.doCompaction_imm options db compaction)
  rw [Db.entries_eq_above stacked chosen] at served
  rw [entries, output]
  refine served.replace_rest newer (newer.mono (le_refl _) (Set.union_subset_union_left _ ?_))
    fun entry isValue => ?_
  · rw [input]
    exact fun entry kept => (keptEntries_sublist _ _ _ _).subset kept
  · have notDeletion := Entry.carried_isSome.mp isValue
    have same := finds_kept_iff (chosen.deeperSorted aged.shape.sorted) bounded
      (makeInputIterator_sorted aged.shape.sorted aged.shape.distinct chosen) parses live entry
    rw [input]
    exact ⟨fun newest => (same.mp ⟨newest, notDeletion⟩).1,
      fun newest => (same.mpr ⟨newest, notDeletion⟩).1⟩

/-- A trivial move keeps the entries of the database. -/
theorem Db.Stacked.move_entries (stacked : db.Stacked) (chosen : compaction.Chosen db.version)
    (trivialMove : compaction.isTrivialMove options = true) :
    (db.logAndApply compaction.moveEdit).entries = db.entries := by
  obtain ⟨flushed, switched, aged⟩ := stacked.ordered.aged
  obtain ⟨input, -, inputs1, -, -⟩ := moveEdit_eq trivialMove
  have same : compaction.inputEntries = fileEntries compaction.inputs0 := by
    rw [Compaction.inputEntries, inputs1, List.append_nil]
  rw [Db.entries_eq_above stacked chosen, same]
  exact Db.entries_of_installs stacked chosen (move_installs aged.shape chosen trivialMove)
    (Db.logAndApply_mem db compaction.moveEdit) (Db.logAndApply_imm db compaction.moveEdit)

end Replaced

omit [LinearOrder α] in
theorem Db.switchMemTable_entries {db db' : Db α β} (taken : db.switchMemTable = some db') :
    db'.entries = db.entries := by
  obtain ⟨isNone, rfl⟩ := Lib.of_guard taken
  ext entry
  constructor
  · rintro (inNil | ⟨imm, isImm, inImm⟩ | inLevel)
    · exact absurd inNil List.not_mem_nil
    · cases isImm
      exact Or.inl inImm
    · exact Or.inr (Or.inr inLevel)
  · rintro (inMem | ⟨imm, isImm, -⟩ | inLevel)
    · exact Or.inr (Or.inl ⟨db.mem, rfl, inMem⟩)
    · rw [Option.isNone_iff_eq_none.mp isNone] at isImm
      cases isImm
    · exact Or.inr (Or.inr inLevel)

theorem Db.compactMemTable_entries {options : Options α β} {db db' : Db α β}
    (taken : db.compactMemTable options = some db') : db'.entries = db.entries := by
  obtain ⟨imm, isImm, rfl⟩ := Option.map_eq_some_iff.mp taken
  ext entry
  constructor
  · rintro (inMem | ⟨none, isNone, -⟩ | inLevel)
    · exact Or.inl inMem
    · cases isNone
    · rcases levelEntries_flush_iff.mp inLevel with old | inImm
      · exact Or.inr (Or.inr old)
      · exact Or.inr (Or.inl ⟨imm, isImm, inImm⟩)
  · rintro (inMem | ⟨other, isOther, inOther⟩ | old)
    · exact Or.inl inMem
    · obtain rfl := Option.mem_unique isImm isOther
      exact Or.inr (Or.inr (levelEntries_flush_iff.mpr (Or.inr inOther)))
    · exact Or.inr (Or.inr (levelEntries_flush_iff.mpr (Or.inl old)))

/-- Every step but a write serves at every live snapshot what was served before it. -/
theorem Db.Stacked.step_served [Inhabited β] {options : Options α β} {db db' : Db α β}
    {action : Action α β} (stacked : db.Stacked) (keeps : db.KeepsWhole options action)
    (taken : db.step options action = some db') (notWrite : ∀ ops, action ≠ .write ops) {userKey : α}
    {snapshot : Nat} {value : Option β}
    (live : oldestSnapshot db.snapshots db.lastSequence ≤ snapshot)
    (served : Served db.entries userKey snapshot value) :
    Served db'.entries userKey snapshot value := by
  obtain ⟨flushed, switched, aged⟩ := stacked.ordered.aged
  cases action with
  | write ops => exact absurd rfl (notWrite ops)
  | getSnapshot =>
    cases taken
    exact served
  | releaseSnapshot index =>
    cases taken
    exact served
  | switchMemTable =>
    rw [Db.switchMemTable_entries taken]
    exact served
  | compactMemTable =>
    rw [Db.compactMemTable_entries taken]
    exact served
  | chargeSeek level index =>
    obtain ⟨-, charged⟩ := Option.ite_none_right_eq_some.mp taken
    obtain ⟨file, -, rfl⟩ := Option.map_eq_some_iff.mp charged
    exact served
  | backgroundCompaction =>
    obtain ⟨compaction, chooses, rfl⟩ := Option.map_eq_some_iff.mp taken
    have chosen := Db.chosen_chosen aged chooses
    split
    · next trivialMove =>
      rw [stacked.move_entries chosen trivialMove]
      exact served
    · exact stacked.doCompaction_served chosen (keeps.older compaction chooses)
        (keeps.below compaction chooses) (keeps.bounded compaction chooses) live served
  | manualCompaction level first last =>
    obtain ⟨compaction, chooses, rfl⟩ := Option.map_eq_some_iff.mp taken
    exact stacked.doCompaction_served (Db.chosen_chosen aged chooses)
      (keeps.older compaction chooses) (keeps.below compaction chooses)
      (keeps.bounded compaction chooses) live served

end LevelDb
