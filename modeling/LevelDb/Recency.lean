/-
This file settles when the levels are ordered by age: for every user key the entries of a
level are newer than those of the levels below it. `Version::Get` stops at the first level
that answers because of this.

A compaction of a level from 1 on may leave a file behind that starts with the user key one of
its input files ends with. The input then goes below a file with older entries of that user
key, and the order is lost. Every other step keeps the order, and so does every compaction
that leaves no such file behind.
-/

import LevelDb.DbRuns
import LevelDb.Lib.Newest

namespace LevelDb

variable {α β : Type} [LinearOrder α]

/-! ### The order of the levels -/

/-- The entries stored at a level. -/
def Version.levelEntries (version : Version α β) (level : Nat) : Set (Entry α β) :=
  fileEntries (version.files level)

/-- Key by key, every level is newer than every level below it. -/
def Version.Recent (version : Version α β) : Prop :=
  ∀ upper lower, upper < lower →
    Lib.Newer Entry.userKey Entry.sequence (version.levelEntries upper)
      (version.levelEntries lower)

/-- The compaction leaves a file behind at its level that starts with the user key one of its
input files ends with. -/
def Compaction.leavesOlder (compaction : Compaction α β) : Bool :=
  decide (0 < compaction.level) && compaction.inputs0.any fun input =>
    (compaction.inputVersion.files compaction.level).any fun file =>
      (compaction.inputs0.all fun other => decide (other.number ≠ file.number)) &&
        decide (input.largest < file.smallest) &&
        decide (input.largest.userKey = file.smallest.userKey)

/-- The step does not compact files of a level away from older entries of a user key they end
with. -/
def Db.KeepsOlder (options : Options α β) (db : Db α β) (action : Action α β) : Prop :=
  ∀ compaction ∈ db.chosen options action, compaction.leavesOlder = false

instance (options : Options α β) (db : Db α β) (action : Action α β) :
    Decidable (db.KeepsOlder options action) :=
  inferInstanceAs (Decidable (∀ compaction ∈ db.chosen options action, _))

/-! ### Sequence numbers are unique -/

/-- The entries of the database: of the memtables and of every level. -/
def Db.entries (db : Db α β) : Set (Entry α β) :=
  {entry | entry ∈ db.mem ∨ (∃ imm ∈ db.imm, entry ∈ imm) ∨
    ∃ level, entry ∈ db.version.levelEntries level}

/-- Where the entries of the version after an edit come from. -/
theorem levelEntries_applyEdit {version : Version α β} {edit : VersionEdit α β} {target : Nat}
    {added : List (FileMetaData α β)} (adds : edit.newFiles = added.map fun file => (target, file))
    (numbers : (added.map FileMetaData.number).Nodup) {level : Nat} {entry : Entry α β}
    (member : entry ∈ (version.applyEdit edit).levelEntries level) :
    (∃ file ∈ version.files level, ¬ edit.removes level file ∧ entry ∈ file.entries) ∨
      (level = target ∧ entry ∈ fileEntries added) := by
  obtain ⟨file, inFiles, inFile⟩ := member
  rcases (mem_applyEdit_adds adds numbers).mp inFiles with old | new
  · exact Or.inl ⟨file, old.1, old.2, inFile⟩
  · obtain ⟨isTarget, source, inAdded, rfl⟩ := new
    exact Or.inr ⟨isTarget, source, inAdded, inFile⟩

/-- After a flush an entry of a level was there before, or is one of the memtable and the
level is the one chosen for its table. -/
theorem levelEntries_flush {version : Version α β} {options : Options α β} {number : Nat}
    {mem : List (Entry α β)} {level : Nat} {entry : Entry α β}
    (member : entry ∈ (version.applyEdit
      (writeLevel0Table options (some version) number mem {})).levelEntries level) :
    entry ∈ version.levelEntries level ∨
      ∃ file, buildTable options number mem = some file ∧ entry ∈ file.entries ∧
        level = outputLevel options (some version) file := by
  obtain ⟨_, ⟨_, newFiles⟩ | ⟨file, built, newFiles⟩⟩ :=
    writeLevel0Table_newFiles options (some version) number mem
  · have adds : (writeLevel0Table options (some version) number mem {}).newFiles =
        ([] : List (FileMetaData α β)).map fun file => (0, file) := newFiles
    rcases levelEntries_applyEdit adds List.nodup_nil member with old | new
    · obtain ⟨file, inFiles, _, inFile⟩ := old
      exact Or.inl ⟨file, inFiles, inFile⟩
    · obtain ⟨_, file, inNone, _⟩ := new
      exact absurd inNone List.not_mem_nil
  · have adds : (writeLevel0Table options (some version) number mem {}).newFiles =
        [file].map fun other => (outputLevel options (some version) file, other) := newFiles
    rcases levelEntries_applyEdit adds (List.nodup_singleton _) member with old | new
    · obtain ⟨source, inFiles, _, inFile⟩ := old
      exact Or.inl ⟨source, inFiles, inFile⟩
    · obtain ⟨isTarget, source, inAdded, inFile⟩ := new
      rw [List.mem_singleton.mp inAdded] at inFile
      exact Or.inr ⟨file, built, inFile, isTarget⟩

/-- A flush moves the entries of the immutable memtable into the version. -/
theorem levelEntries_flush_iff {version : Version α β} {options : Options α β} {number : Nat}
    {mem : List (Entry α β)} {entry : Entry α β} :
    (∃ level, entry ∈ (version.applyEdit
      (writeLevel0Table options (some version) number mem {})).levelEntries level) ↔
        (∃ level, entry ∈ version.levelEntries level) ∨ entry ∈ mem := by
  constructor
  · rintro ⟨level, member⟩
    rcases levelEntries_flush member with old | ⟨file, built, inFile, _⟩
    · exact Or.inl ⟨level, old⟩
    · exact Or.inr ((buildTable_number built).2 ▸ inFile)
  · rintro (⟨level, file, inFiles, inFile⟩ | inMem)
    · exact ⟨level, file, mem_flush_files.mpr (Or.inl inFiles), inFile⟩
    · cases built : buildTable options number mem with
      | none =>
        cases mem with
        | nil => exact absurd inMem List.not_mem_nil
        | cons first rest => cases built
      | some file =>
        refine ⟨outputLevel options (some version) file, preparedFile file,
          mem_flush_files.mpr (Or.inr ⟨file, built, rfl, rfl⟩), ?_⟩
        rw [preparedFile_entries, (buildTable_number built).2]
        exact inMem

/-- What a compaction does to the entries of the levels: an entry of the new version was in a
file that is no input, or came from an input to the output level. -/
def Compaction.Replaces (compaction : Compaction α β) (version version' : Version α β) : Prop :=
  ∀ level, ∀ entry ∈ version'.levelEntries level,
    (∃ file ∈ version.files level, ¬ compaction.IsInput level file ∧ entry ∈ file.entries) ∨
      (level = compaction.level + 1 ∧ entry ∈ compaction.inputEntries)

theorem move_replaces {version : Version α β} {compaction : Compaction α β}
    {options : Options α β} (trivialMove : compaction.isTrivialMove options = true) :
    compaction.Replaces version (version.applyEdit compaction.moveEdit) := by
  intro level entry member
  obtain ⟨input, inputs0, _, newFiles, _⟩ := moveEdit_eq trivialMove
  rcases levelEntries_applyEdit newFiles (List.nodup_singleton _) member with old | new
  · obtain ⟨file, inFiles, stays, inFile⟩ := old
    exact Or.inl ⟨file, inFiles, fun isInput => stays (moveEdit_removes trivialMove isInput), inFile⟩
  · obtain ⟨isTarget, file, inAdded, inFile⟩ := new
    have inInputs : file ∈ compaction.inputs0 ++ compaction.inputs1 := by
      rw [inputs0]
      exact List.mem_append_left _ inAdded
    exact Or.inr ⟨isTarget, file, inInputs, inFile⟩

theorem compact_replaces {version : Version α β} {compaction : Compaction α β} {bound next : Nat}
    (shape : version.Shape bound next) (chosen : compaction.Chosen version)
    (options : Options α β) (smallestSnapshot : Nat) :
    compaction.Replaces version (version.applyEdit (installEdit compaction
      (doCompactionWork options compaction smallestSnapshot next).1)) := by
  intro level entry member
  obtain ⟨outputs, entries⟩ := doCompactionWork_spec shape chosen options smallestSnapshot
  have fresh : ∀ new ∈ (doCompactionWork options compaction smallestSnapshot next).1,
      next ≤ new.number := fun new inOutputs => (outputs.number_bounds inOutputs).1
  have numbers : ((doCompactionWork options compaction smallestSnapshot next).1.map
      FileMetaData.number).Nodup := by
    rw [outputs.numbers_eq]
    exact List.nodup_range'
  rcases levelEntries_applyEdit (installEdit_newFiles _) numbers member with old | new
  · obtain ⟨file, inFiles, stays, inFile⟩ := old
    exact Or.inl ⟨file, inFiles,
      fun isInput => stays ((installEdit_removes shape chosen fresh inFiles).mpr isInput), inFile⟩
  · obtain ⟨isTarget, file, inOutputs, inFile⟩ := new
    exact Or.inr ⟨isTarget, entries file inOutputs entry inFile⟩

theorem Compaction.Replaces.subset {version version' : Version α β} {compaction : Compaction α β}
    (chosen : compaction.Chosen version) (replaces : compaction.Replaces version version')
    {level : Nat} {entry : Entry α β} (member : entry ∈ version'.levelEntries level) :
    ∃ level', entry ∈ version.levelEntries level' := by
  rcases replaces level entry member with old | new
  · obtain ⟨file, inFiles, _, inFile⟩ := old
    exact ⟨level, file, inFiles, inFile⟩
  · obtain ⟨level', file, isInput, inFile⟩ := mem_inputEntries.mp new.2
    exact ⟨level', file, isInput.mem_files chosen, inFile⟩

/-- An entry of a level after a step was at some level or in the immutable memtable before. -/
theorem Db.VersionStep.levelEntries {options : Options α β} {db db' : Db α β}
    {action : Action α β} (change : db.VersionStep options db' action) {flushed switched : Nat}
    (aged : db.Aged flushed switched) {level : Nat} {entry : Entry α β}
    (member : entry ∈ db'.version.levelEntries level) :
    (∃ level', entry ∈ db.version.levelEntries level') ∨ ∃ imm ∈ db.imm, entry ∈ imm := by
  cases change with
  | same files next =>
    obtain ⟨file, inFiles, inFile⟩ := member
    rw [files] at inFiles
    exact Or.inl ⟨level, file, inFiles, inFile⟩
  | flush imm _ isImm version next =>
    rw [version] at member
    rcases levelEntries_flush member with old | ⟨file, built, inFile, _⟩
    · exact Or.inl ⟨level, old⟩
    · exact Or.inr ⟨imm, isImm, (buildTable_number built).2 ▸ inFile⟩
  | move compaction chooses trivialMove version next =>
    rw [version] at member
    exact Or.inl ((move_replaces trivialMove).subset (Db.chosen_chosen aged chooses) member)
  | compact compaction chooses version next =>
    rw [version] at member
    have chosen := Db.chosen_chosen aged chooses
    exact Or.inl ((compact_replaces aged.shape chosen options _).subset chosen member)

/-- The ways a step changes the memtables: a batch is inserted, the memtable becomes the
immutable one, or the immutable one may go. -/
theorem Db.step_mem [Inhabited β] {options : Options α β} {db db' : Db α β} {action : Action α β}
    (taken : db.step options action = some db') :
    (∃ ops, action = .write ops ∧
        db'.mem = insertInto db.mem (batchEntries (db.lastSequence + 1) ops) ∧ db'.imm = db.imm) ∨
      (db'.mem = [] ∧ db'.imm = some db.mem) ∨
      (db'.mem = db.mem ∧ (db'.imm = db.imm ∨ db'.imm = none)) := by
  cases action with
  | write ops =>
    rw [Db.step, Db.write] at taken
    split at taken
    · cases taken
      exact Or.inl ⟨ops, rfl, rfl, rfl⟩
    · cases taken
  | getSnapshot =>
    cases taken
    exact Or.inr (Or.inr ⟨rfl, Or.inl rfl⟩)
  | releaseSnapshot index =>
    cases taken
    exact Or.inr (Or.inr ⟨rfl, Or.inl rfl⟩)
  | switchMemTable =>
    rw [Db.step, Db.switchMemTable] at taken
    split at taken
    · cases taken
      exact Or.inr (Or.inl ⟨rfl, rfl⟩)
    · cases taken
  | compactMemTable =>
    obtain ⟨imm, _, rfl⟩ := Option.map_eq_some_iff.mp taken
    exact Or.inr (Or.inr ⟨rfl, Or.inr rfl⟩)
  | chargeSeek level index =>
    rw [Db.step, Db.chargeSeek] at taken
    split at taken
    · obtain ⟨file, _, rfl⟩ := Option.map_eq_some_iff.mp taken
      exact Or.inr (Or.inr ⟨rfl, Or.inl rfl⟩)
    · cases taken
  | backgroundCompaction =>
    obtain ⟨compaction, _, result⟩ := Option.map_eq_some_iff.mp taken
    split at result
    · subst result
      exact Or.inr (Or.inr ⟨db.logAndApply_mem _, Or.inl (db.logAndApply_imm _)⟩)
    · subst result
      exact Or.inr (Or.inr ⟨db.doCompaction_mem _ _, Or.inl (db.doCompaction_imm _ _)⟩)
  | manualCompaction level first last =>
    obtain ⟨compaction, _, rfl⟩ := Option.map_eq_some_iff.mp taken
    exact Or.inr (Or.inr ⟨Db.doCompaction_mem _ _ _, Or.inl (Db.doCompaction_imm _ _ _)⟩)

/-- A step brings no entries into the database but those of a written batch. -/
theorem Db.step_entries [Inhabited β] {options : Options α β} {db db' : Db α β}
    {action : Action α β} {flushed switched : Nat} (aged : db.Aged flushed switched)
    (taken : db.step options action = some db') {entry : Entry α β} (member : entry ∈ db'.entries) :
    entry ∈ db.entries ∨
      ∃ ops, action = .write ops ∧ entry ∈ batchEntries (db.lastSequence + 1) ops := by
  rcases member with inMem | ⟨imm, isImm, inImm⟩ | ⟨level, inLevel⟩
  · rcases Db.step_mem taken with ⟨ops, isWrite, mem, _⟩ | ⟨mem, _⟩ | ⟨mem, _⟩
    · rw [mem] at inMem
      rcases mem_insertInto.mp inMem with old | new
      · exact Or.inl (Or.inl old)
      · exact Or.inr ⟨ops, isWrite, new⟩
    · rw [mem] at inMem
      exact absurd inMem List.not_mem_nil
    · exact Or.inl (Or.inl (mem ▸ inMem))
  · rcases Db.step_mem taken with ⟨_, _, _, same⟩ | ⟨_, switched⟩ | ⟨_, same | gone⟩
    · exact Or.inl (Or.inr (Or.inl ⟨imm, same ▸ isImm, inImm⟩))
    · rw [switched] at isImm
      cases isImm
      exact Or.inl (Or.inl inImm)
    · exact Or.inl (Or.inr (Or.inl ⟨imm, same ▸ isImm, inImm⟩))
    · rw [gone] at isImm
      cases isImm
  · rcases (Db.step_version taken).levelEntries aged inLevel with old | inImm
    · exact Or.inl (Or.inr (Or.inr old))
    · exact Or.inl (Or.inr (Or.inl inImm))

theorem Db.Aged.sequence_le {db : Db α β} {flushed switched : Nat}
    (aged : db.Aged flushed switched) {entry : Entry α β} (member : entry ∈ db.entries) :
    entry.sequence ≤ db.lastSequence := by
  rcases member with inMem | ⟨imm, isImm, inImm⟩ | ⟨level, file, inFiles, inFile⟩
  · exact (aged.mem.bounds entry inMem).2
  · exact ((aged.imm imm isImm).bounds entry inImm).2.trans aged.switched_le
  · exact (aged.shape.sequence_le level file inFiles entry inFile).trans
      (aged.flushed_le.trans aged.switched_le)

/-- No two entries of the database share a sequence number. -/
def Db.UniqueSequences (db : Db α β) : Prop := Set.InjOn Entry.sequence db.entries

theorem Db.UniqueSequences.step [Inhabited β] {options : Options α β} {db db' : Db α β}
    {action : Action α β} (unique : db.UniqueSequences) {flushed switched : Nat}
    (aged : db.Aged flushed switched) (taken : db.step options action = some db') :
    db'.UniqueSequences := by
  intro first firstMember second secondMember same
  have newer : ∀ old ∈ db.entries, ∀ (ops : List (WriteOp α β)),
      ∀ new ∈ batchEntries (db.lastSequence + 1) ops, old.sequence ≠ new.sequence := by
    intro old inOld ops new inNew
    exact ne_of_lt ((aged.sequence_le inOld).trans_lt (batchEntries_sequence_bounds inNew).1)
  rcases Db.step_entries aged taken firstMember with firstOld | ⟨ops, isWrite, firstNew⟩ <;>
    rcases Db.step_entries aged taken secondMember with secondOld | ⟨ops', isWrite', secondNew⟩
  · exact unique firstOld secondOld same
  · exact absurd same (newer first firstOld ops' second secondNew)
  · exact absurd same.symm (newer second secondOld ops first firstNew)
  · rw [isWrite] at isWrite'
    cases isWrite'
    have nodup : ((batchEntries (db.lastSequence + 1) ops).map Entry.sequence).Nodup := by
      rw [map_sequence_batchEntries]
      exact List.nodup_range'
    exact List.inj_on_of_nodup_map nodup firstNew secondNew same

/-! ### Every step keeps the order -/

theorem leavesOlder_iff {compaction : Compaction α β} :
    compaction.leavesOlder = true ↔
      0 < compaction.level ∧ ∃ input ∈ compaction.inputs0,
        ∃ file ∈ compaction.inputVersion.files compaction.level,
          (∀ other ∈ compaction.inputs0, other.number ≠ file.number) ∧
            input.largest < file.smallest ∧ input.largest.userKey = file.smallest.userKey := by
  simp only [Compaction.leavesOlder, Bool.and_eq_true, decide_eq_true_eq, List.any_eq_true,
    List.all_eq_true, and_assoc]

/-- At the level of a compaction that leaves nothing older behind, a file that stays is newer
than an input for every user key they share. -/
theorem Compaction.Chosen.newer_of_left {version : Version α β} {compaction : Compaction α β}
    (chosen : compaction.Chosen version) {bound next : Nat} (shape : version.Shape bound next)
    (unique : ∀ level level', ∀ first ∈ version.levelEntries level,
      ∀ second ∈ version.levelEntries level', first.sequence = second.sequence → first = second)
    (leaves : compaction.leavesOlder = false) {file input : FileMetaData α β}
    (inFiles : file ∈ version.files compaction.level) (notInput : file ∉ compaction.inputs0)
    (isInput : input ∈ compaction.inputs0) {newer older : Entry α β}
    (inFile : newer ∈ file.entries) (inInput : older ∈ input.entries)
    (same : newer.userKey = older.userKey) : older.sequence < newer.sequence := by
  have inLevel := chosen.inputs0_sublist.subset isInput
  have fileValid := shape.sorted.valid _ file inFiles
  have inputValid := shape.sorted.valid _ input inLevel
  have different : ∀ other ∈ compaction.inputs0, other.number ≠ file.number := by
    intro other inInputs sameNumber
    have equal := shape.distinct.eq_of_number (chosen.inputs0_sublist.subset inInputs) inFiles
      sameNumber
    exact notInput (equal ▸ inInputs)
  rcases Nat.eq_zero_or_pos compaction.level with zero | positive
  · obtain ⟨range, isRange, _⟩ := chosen.inputs1_eq
    have meets : file.meetsRange range = true := by
      refine FileMetaData.meets_some_iff.mpr ⟨?_, ?_⟩
      · have lower := (isRange.le_smallest input isInput).trans (inputValid.smallest_le older inInput)
        have upper := fileValid.covers inFile
        rw [same] at upper
        exact (InternalKey.userKey_le_of_le lower).trans upper.2
      · have upper := (inputValid.le_largest older inInput).trans (isRange.largest_le input isInput)
        have lower := fileValid.covers inFile
        rw [same] at lower
        exact lower.1.trans (InternalKey.userKey_le_of_le upper)
    exact absurd (chosen.closed zero range isRange file (zero ▸ inFiles) meets) notInput
  · have apart := (shape.sorted.disjoint _ positive).apart inLevel inFiles (different input isInput)
    rcases apart with before | after
    · have leavesIt : compaction.leavesOlder = true := by
        refine leavesOlder_iff.mpr ⟨positive, input, isInput, file, ?_, different, before, ?_⟩
        · rw [chosen.inputVersion_eq]
          exact inFiles
        · have inputCovers := inputValid.covers inInput
          have fileCovers := fileValid.covers inFile
          rw [same] at fileCovers
          exact le_antisymm (InternalKey.userKey_le_of_lt before)
            (fileCovers.1.trans inputCovers.2)
      rw [leaves] at leavesIt
      cases leavesIt
    · have order : newer.key < older.key :=
        ((fileValid.le_largest newer inFile).trans_lt after).trans_le
          (inputValid.smallest_le older inInput)
      refine lt_of_le_of_ne (InternalKey.sequence_le_of_le order.le same) fun sameSequence => ?_
      have equal := unique _ _ older ⟨input, inLevel, inInput⟩ newer ⟨file, inFiles, inFile⟩
        sameSequence
      rw [equal] at order
      exact absurd order (lt_irrefl _)

/-- A compaction that leaves nothing older behind keeps the order of the levels. -/
theorem Version.Recent.replace {version version' : Version α β} (recent : version.Recent)
    {bound next : Nat} (shape : version.Shape bound next) {compaction : Compaction α β}
    (chosen : compaction.Chosen version) (replaces : compaction.Replaces version version')
    (unique : ∀ level level', ∀ first ∈ version.levelEntries level,
      ∀ second ∈ version.levelEntries level', first.sequence = second.sequence → first = second)
    (leaves : compaction.leavesOlder = false) : version'.Recent := by
  intro upper lower order newer newerMember older olderMember same
  rcases replaces upper newer newerMember with
    ⟨file, inFiles, notInput, inFile⟩ | ⟨isTarget, newerInput⟩
  · rcases replaces lower older olderMember with
      ⟨other, inOthers, _, inOther⟩ | ⟨isTarget, olderInput⟩
    · exact recent upper lower order newer ⟨file, inFiles, inFile⟩ older
        ⟨other, inOthers, inOther⟩ same
    · subst isTarget
      obtain ⟨level, input, isInput, inInput⟩ := mem_inputEntries.mp olderInput
      have inLevel := isInput.mem_files chosen
      by_cases above : upper < level
      · exact recent upper level above newer ⟨file, inFiles, inFile⟩ older
          ⟨input, inLevel, inInput⟩ same
      · rcases isInput with ⟨isLevel, in0⟩ | ⟨isLevel, _⟩
        · have sameLevel : upper = compaction.level := by omega
          subst sameLevel
          exact chosen.newer_of_left shape unique leaves inFiles
            (fun isInput => notInput (Or.inl ⟨rfl, isInput⟩)) in0 inFile inInput same
        · omega
  · subst isTarget
    rcases replaces lower older olderMember with
      ⟨other, inOthers, _, inOther⟩ | ⟨isTarget, _⟩
    · obtain ⟨level, input, isInput, inInput⟩ := mem_inputEntries.mp newerInput
      have above : level < lower := by
        rcases isInput with ⟨isLevel, _⟩ | ⟨isLevel, _⟩ <;> omega
      exact recent level lower above newer ⟨input, isInput.mem_files chosen, inInput⟩ older
        ⟨other, inOthers, inOther⟩ same
    · exact absurd isTarget (ne_of_gt order)

/-- A flush keeps the order of the levels: its entries are newer than everything in the
version, and the levels above its table hold none of its user keys. -/
theorem Version.Recent.flush {version : Version α β} (recent : version.Recent) {bound next : Nat}
    (shape : version.Shape bound next) (options : Options α β) {number : Nat}
    {mem : List (Entry α β)} (sorted : LevelDb.Sorted mem)
    (tags : ∀ entry ∈ mem,
      entry.key.tag ≤ packSequenceAndType kMaxSequenceNumber kValueTypeForSeek)
    (newer : ∀ entry ∈ mem, bound < entry.sequence) :
    (version.applyEdit (writeLevel0Table options (some version) number mem {})).Recent := by
  intro upper lower order first firstMember second secondMember same
  rcases levelEntries_flush firstMember with firstOld | ⟨file, built, inFile, isLevel⟩
  · rcases levelEntries_flush secondMember with secondOld | ⟨file, built, inFile, isLevel⟩
    · exact recent upper lower order first firstOld second secondOld same
    · obtain ⟨other, inOthers, inOther⟩ := firstOld
      have positive : 0 < outputLevel options (some version) file :=
        isLevel ▸ (Nat.zero_le upper).trans_lt order
      have notMeets := pickLevelForMemTableOutput_spec shape.sorted options _ _ positive upper
        (order.le.trans_eq isLevel) other inOthers
      have fileCovers := (buildTable_valid sorted tags built).covers inFile
      have otherCovers := (shape.sorted.valid upper other inOthers).covers inOther
      rw [same] at otherCovers
      have meets := FileMetaData.meets_some_iff.mpr
        ⟨fileCovers.1.trans otherCovers.2, otherCovers.1.trans fileCovers.2⟩
      rw [notMeets] at meets
      cases meets
  · rw [(buildTable_number built).2] at inFile
    rcases levelEntries_flush secondMember with secondOld | ⟨other, built', _, isLevel'⟩
    · obtain ⟨other, inOthers, inOther⟩ := secondOld
      exact (shape.sequence_le lower other inOthers second inOther).trans_lt (newer first inFile)
    · rw [built] at built'
      cases built'
      exact absurd (isLevel.trans isLevel'.symm) (ne_of_lt order)

/-- What every step that leaves nothing older behind keeps true. -/
structure Db.Ordered (db : Db α β) : Prop where
  aged : ∃ flushed switched, db.Aged flushed switched
  unique : db.UniqueSequences
  recent : db.version.Recent

theorem Db.empty_ordered : (Db.empty : Db α β).Ordered := by
  have noEntry : ∀ level, ∀ entry, entry ∉ (Version.empty : Version α β).levelEntries level := by
    rintro level entry ⟨file, inNone, _⟩
    exact absurd inNone List.not_mem_nil
  refine ⟨⟨0, 0, Db.empty_aged⟩, ?_, ?_⟩
  · rintro first (inMem | ⟨imm, isImm, _⟩ | ⟨level, inLevel⟩)
    · exact absurd inMem List.not_mem_nil
    · cases isImm
    · exact absurd inLevel (noEntry level first)
  · intro upper lower _ first firstMember
    exact absurd firstMember (noEntry upper first)

theorem Db.Ordered.step [Inhabited β] {options : Options α β} {db db' : Db α β}
    {action : Action α β} (ordered : db.Ordered) (keeps : db.KeepsOlder options action)
    (taken : db.step options action = some db') : db'.Ordered := by
  obtain ⟨⟨flushed, switched, aged⟩, unique, recent⟩ := ordered
  refine ⟨aged.step taken, unique.step aged taken, ?_⟩
  have uniqueLevels : ∀ level level', ∀ first ∈ db.version.levelEntries level,
      ∀ second ∈ db.version.levelEntries level', first.sequence = second.sequence →
        first = second := by
    intro level level' first inFirst second inSecond same
    exact unique (Or.inr (Or.inr ⟨level, inFirst⟩)) (Or.inr (Or.inr ⟨level', inSecond⟩)) same
  cases Db.step_version taken with
  | same files next =>
    intro upper lower
    unfold Version.levelEntries
    rw [files]
    exact recent upper lower
  | flush imm _ isImm version next =>
    have between := aged.imm imm isImm
    have tags := between.tag_le (aged.switched_le.trans aged.last_le)
    rw [version]
    exact recent.flush aged.shape options between.sorted tags
      fun entry member => (between.bounds entry member).1
  | move compaction chooses trivialMove version next =>
    rw [version]
    exact recent.replace aged.shape (Db.chosen_chosen aged chooses) (move_replaces trivialMove)
      uniqueLevels (keeps compaction chooses)
  | compact compaction chooses version next =>
    have chosen := Db.chosen_chosen aged chooses
    rw [version]
    exact recent.replace aged.shape chosen (compact_replaces aged.shape chosen options _)
      uniqueLevels (keeps compaction chooses)

theorem Db.ordered_of_reachable [Inhabited β] {options : Options α β} {db : Db α β}
    (reachable : Lib.Reachable (Db.step options) (Db.KeepsOlder options) Db.empty db) :
    db.Ordered := by
  refine Lib.Reachable.invariant ?_ (fun state action state' => Db.Ordered.step) reachable
  exact Db.empty_ordered

omit [LinearOrder α] in
theorem levelEntries_finite (version : Version α β) (level : Nat) :
    (version.levelEntries level).Finite := by
  have equal : version.levelEntries level =
      {entry | entry ∈ (version.files level).flatMap FileMetaData.entries} :=
    Set.ext fun entry => mem_fileEntries
  rw [equal]
  exact List.finite_toSet _

/-- In every run whose compactions leave nothing older behind, the levels of every version are
ordered by age, and the first level with a visible entry of a user key holds the newest one. -/
theorem recency_of_reachable [Inhabited β] (options : Options α β) (db : Db α β)
    (reachable : Lib.Reachable (Db.step options) (Db.KeepsOlder options) Db.empty db) :
    db.version.Recent ∧
      ∀ userKey snapshot level, oldestSnapshot db.snapshots db.lastSequence ≤ snapshot →
        (∃ entry ∈ db.version.levelEntries level,
          entry.userKey = userKey ∧ entry.sequence ≤ snapshot) →
        (∀ upper < level, ∀ entry ∈ db.version.levelEntries upper,
          entry.userKey = userKey → snapshot < entry.sequence) →
        ∃ entry ∈ db.version.levelEntries level,
          Lib.IsNewest Entry.userKey Entry.sequence
            {entry | ∃ level, entry ∈ db.version.levelEntries level} userKey snapshot entry := by
  have recent := (Db.ordered_of_reachable reachable).recent
  refine ⟨recent, fun userKey snapshot level _ visible first => ?_⟩
  obtain ⟨entry, newest⟩ := Lib.exists_isNewest (levelEntries_finite db.version level) visible
  exact ⟨entry, newest.1, newest.of_layers recent first⟩

/-- Two versions of one user key, each as large as a table file, with a snapshot between. -/
def pinnedVersions : List (Action Nat Nat) :=
  [.write [.put 1 (2 ^ 21)], .getSnapshot, .write [.put 1 (2 ^ 21)], .switchMemTable,
    .compactMemTable, .manualCompaction 2 none none]

theorem recency_of_reachable_pinned :
    ∃ db, Lib.Reachable (Db.step sizedOptions) (Db.KeepsOlder sizedOptions) Db.empty db ∧
      (db.version.files 3).length = 2 ∧ db.version.Recent := by
  obtain ⟨db, reachable, two⟩ := Lib.exists_of_run
    (show (Lib.run (Db.step sizedOptions) (Db.KeepsOlder sizedOptions) Db.empty
      pinnedVersions).any (fun db => (db.version.files 3).length == 2) = true by decide +kernel)
  exact ⟨db, reachable, by simpa using two, (recency_of_reachable sizedOptions db reachable).1⟩

/-- Compacting the first of the two files alone puts the newer version below the older one. -/
theorem recency_fails_after_split :
    ∃ db, Lib.Reachable (Db.step sizedOptions) (fun _ _ => True) Db.empty db ∧
      ¬ db.version.Recent := by
  obtain ⟨db, reachable, inverted⟩ := Lib.exists_of_run
    (show (Lib.run (Db.step sizedOptions) (fun _ _ => True) Db.empty
      (pinnedVersions ++ [.manualCompaction 3 none none])).any (fun db =>
        ((db.version.files 3).any fun file => file.entries.any fun entry =>
          entry.userKey == 1 && entry.sequence == 1) &&
        (db.version.files 4).any fun file => file.entries.any fun entry =>
          entry.userKey == 1 && entry.sequence == 2) = true by decide +kernel)
  simp only [Bool.and_eq_true, List.any_eq_true, beq_iff_eq] at inverted
  obtain ⟨⟨upper, inUpper, older, inOlder, olderKey, olderSequence⟩,
    lower, inLower, newer, inNewer, newerKey, newerSequence⟩ := inverted
  refine ⟨db, reachable, fun recent => ?_⟩
  have order := recent 3 4 (by decide) older ⟨upper, inUpper, inOlder⟩ newer
    ⟨lower, inLower, inNewer⟩ (olderKey.trans newerKey.symm)
  omega

end LevelDb
