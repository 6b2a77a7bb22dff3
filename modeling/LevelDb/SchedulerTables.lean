/-
This file proves where the entries of a database are while its threads work. Every entry that was
added to a memtable is still in it, in the immutable memtable or in a table of the current
version, or it was dropped by a compaction that has been installed.

The proof needs no order on the tables, only their numbers: these are distinct, and the tables a
flush or a compaction is building have numbers that no table of the version has. An edit therefore
takes out the inputs of its compaction and nothing else.
-/

import LevelDb.SchedulerSafety

namespace LevelDb

variable {α β : Type}

/-! ### Compactions at work -/

/-- Some table of the version has the entry. -/
def Version.Holds (version : Version α β) (entry : Entry α β) : Prop :=
  ∃ level, ∃ file ∈ version.files level, entry ∈ file.entries

/-- No table of the version has the number. -/
def Version.Unused (version : Version α β) (number : Nat) : Prop :=
  ∀ level, ∀ file ∈ version.files level, file.number ≠ number

variable [LinearOrder α]

/-- A compaction at work on a version: its inputs are there, the outputs and what the rest of the
input will add to them are the entries it keeps, and the numbers of the outputs are new. -/
structure CompactionJob.Follows (job : CompactionJob α β) (version : Version α β) (next : Nat) :
    Prop where
  inputs : ∀ level file, job.compaction.IsInput level file → file ∈ version.files level
  keeps : ∃ kept, job.loop.Fills kept ∧
    kept ++ keptEntries job.compaction job.smallestSnapshot job.loop.drop job.remaining =
      keptEntries job.compaction job.smallestSnapshot DropState.initial
        (makeInputIterator job.compaction)
  numbers : (job.loop.allOutputs.map Output.number).Nodup
  fresh : ∀ output ∈ job.loop.allOutputs, output.number < next ∧ version.Unused output.number

theorem CompactionJob.Follows.mono {job : CompactionJob α β} {version version' : Version α β}
    {next next' : Nat} (follows : job.Follows version next)
    (files : version'.files = version.files) (le : next ≤ next') : job.Follows version' next' := by
  refine ⟨?_, follows.keeps, follows.numbers, fun output member => ?_⟩
  · rw [files]
    exact follows.inputs
  · rw [Version.Unused, files]
    exact ⟨(follows.fresh output member).1.trans_le le, (follows.fresh output member).2⟩

/-- The compaction at its start. -/
theorem follows_initial {version : Version α β} {compaction : Compaction α β}
    (chosen : compaction.Chosen version) (manual : Option (Nat × Option (InternalKey α)))
    (smallestSnapshot number next : Nat) :
    CompactionJob.Follows ⟨compaction, manual, smallestSnapshot, CompactionState.initial number,
      makeInputIterator compaction⟩ version next := by
  refine ⟨fun level file isInput => isInput.mem_files chosen, ⟨[], initial_fills _, rfl⟩,
    List.nodup_nil, fun output member => ?_⟩
  simp [CompactionState.allOutputs, CompactionState.initial] at member

/-- The outputs after a round: one more, with the next number, or the same numbers. -/
theorem step_numbers (state : CompactionState α β) (options : Options α β)
    (compaction : Compaction α β) (smallestSnapshot : Nat) (entry : Entry α β) :
    (state.step options compaction smallestSnapshot entry).allOutputs.map Output.number =
        state.allOutputs.map Output.number ∨
      (state.step options compaction smallestSnapshot entry).allOutputs.map Output.number =
          state.allOutputs.map Output.number ++ [state.nextFileNumber] ∧
        (state.step options compaction smallestSnapshot entry).nextFileNumber =
          state.nextFileNumber + 1 := by
  obtain ⟨decided, outputs, next, _, equal⟩ :=
    step_eq state options compaction smallestSnapshot entry
  rw [equal]
  split
  · exact Or.inl (by rw [outputs])
  · rw [allOutputs_cut, nextFileNumber_cut]
    rcases allOutputs_keep decided entry with ⟨opened, number⟩ | ⟨front, output, before, after, _⟩
    · refine Or.inr ⟨?_, by rw [number, next]⟩
      rw [opened, List.map_append, outputs, next]
      rfl
    · refine Or.inl ?_
      rw [after, ← outputs, before, List.map_append, List.map_append]
      rfl

/-- A round of the loop. -/
theorem CompactionJob.Follows.visit {job : CompactionJob α β} {version : Version α β} {next : Nat}
    (follows : job.Follows version next) (counted : version.Counted next) (options : Options α β)
    {entry : Entry α β} {rest : List (Entry α β)} (remaining : job.remaining = entry :: rest)
    {loop : CompactionState α β}
    (isLoop : loop = { job.loop with nextFileNumber := next }.step options job.compaction
      job.smallestSnapshot entry) :
    next ≤ loop.nextFileNumber ∧
      CompactionJob.Follows { job with loop := loop, remaining := rest } version
        loop.nextFileNumber := by
  have le : next ≤ loop.nextFileNumber := by
    rw [isLoop]
    exact le_nextFileNumber_step { job.loop with nextFileNumber := next } options _ _ _
  have below : ∀ number ∈ job.loop.allOutputs.map Output.number, number < next := by
    intro number member
    obtain ⟨output, inOutputs, rfl⟩ := List.mem_map.mp member
    exact (follows.fresh output inOutputs).1
  have unused : ∀ number ∈ job.loop.allOutputs.map Output.number, version.Unused number := by
    intro number member
    obtain ⟨output, inOutputs, rfl⟩ := List.mem_map.mp member
    exact (follows.fresh output inOutputs).2
  have numbers := step_numbers { job.loop with nextFileNumber := next } options job.compaction
    job.smallestSnapshot entry
  rw [← isLoop] at numbers
  refine ⟨le, follows.inputs, ?_, ?_, ?_⟩
  · obtain ⟨kept, fills, whole⟩ := follows.keeps
    have sameFills : { job.loop with nextFileNumber := next }.Fills kept :=
      ⟨fills.built, fills.entries_eq⟩
    have stepped := sameFills.step options job.compaction job.smallestSnapshot entry
    rw [← isLoop] at stepped
    refine ⟨_, stepped, ?_⟩
    rw [← whole, remaining, keptEntries, isLoop, step_drop, List.append_assoc]
    simp only
    split <;> rfl
  · rcases numbers with same | ⟨grown, _⟩
    · simp only [same]
      exact follows.numbers
    · simp only [grown]
      refine List.Nodup.append follows.numbers (List.nodup_singleton _) ?_
      rw [List.disjoint_singleton]
      exact fun member => absurd (below _ member) (lt_irrefl _)
  · intro output inOutputs
    have member : output.number ∈ loop.allOutputs.map Output.number :=
      List.mem_map_of_mem inOutputs
    rcases numbers with same | ⟨grown, isNext⟩
    · rw [same] at member
      exact ⟨(below _ member).trans_le le, unused _ member⟩
    · rw [grown] at member
      rcases List.mem_append.mp member with old | new
      · exact ⟨(below _ old).trans_le le, unused _ old⟩
      · rw [List.mem_singleton.mp new, isNext]
        exact ⟨Nat.lt_succ_self _, fun level file inLevel => ne_of_lt (counted.number_lt level file inLevel)⟩

/-! ### What an edit does to the tables -/

/-- The edit adds the table of a memtable, if the memtable is not empty. -/
structure VersionEdit.Flushes (edit : VersionEdit α β) (number : Nat)
    (content : List (Entry α β)) : Prop where
  deletedFiles : edit.deletedFiles = ∅
  newFiles : content = [] ∧ edit.newFiles = [] ∨
    ∃ level file, edit.newFiles = [(level, file)] ∧ file.number = number ∧ file.entries = content

theorem writeLevel0Table_flushes (options : Options α β) (base : Option (Version α β))
    (number : Nat) (content : List (Entry α β)) :
    (writeLevel0Table options base number content {}).Flushes number content := by
  obtain ⟨deletedFiles, ⟨noTable, newFiles⟩ | ⟨file, built, newFiles⟩⟩ :=
    writeLevel0Table_newFiles options base number content
  · refine ⟨deletedFiles, Or.inl ⟨?_, newFiles⟩⟩
    cases content with
    | nil => rfl
    | cons first rest => cases noTable
  · obtain ⟨isNumber, isEntries⟩ := buildTable_number built
    exact ⟨deletedFiles, Or.inr ⟨_, file, newFiles, isNumber, isEntries⟩⟩

section Edit

variable {version : Version α β} {edit : VersionEdit α β} {next : Nat}

omit [LinearOrder α] in
theorem Version.Counted.eq_of_number (counted : version.Counted next) {level : Nat}
    {first second : FileMetaData α β} (firstMember : first ∈ version.files level)
    (secondMember : second ∈ version.files level) (same : first.number = second.number) :
    first = second :=
  List.inj_on_of_nodup_map (counted.numbers_nodup level) firstMember secondMember same

/-- A flush adds its table and leaves the others. -/
theorem VersionEdit.Flushes.applyEdit {number : Nat} {content : List (Entry α β)}
    (flushes : edit.Flushes number content) (counted : version.Counted next)
    (lt : number < next) (unused : version.Unused number) :
    (version.applyEdit edit).Counted next ∧
      (∀ level, ∀ file ∈ version.files level, file ∈ (version.applyEdit edit).files level) ∧
      (∀ entry ∈ content, (version.applyEdit edit).Holds entry) ∧
        ∀ other, other ≠ number → version.Unused other →
          (version.applyEdit edit).Unused other := by
  have stays := not_removes_of_deletedFiles flushes.deletedFiles
  rcases flushes.newFiles with ⟨empty, newFiles⟩ | ⟨target, table, newFiles, isNumber, isEntries⟩
  · have adds : edit.newFiles = ([] : List (FileMetaData α β)).map fun file => (0, file) := newFiles
    have files := fun {level : Nat} {file : FileMetaData α β} =>
      @mem_applyEdit_adds _ _ _ version edit 0 [] adds List.nodup_nil level file
    refine ⟨counted.applyEdit adds List.nodup_nil (by simp) le_rfl (by simp), ?_, ?_, ?_⟩
    · exact fun level file member => files.mpr (Or.inl ⟨member, stays level file⟩)
    · rw [empty]
      exact fun entry member => absurd member List.not_mem_nil
    · intro other _ isUnused level file member
      rcases files.mp member with old | ⟨_, new, inAdded, _⟩
      · exact isUnused level file old.1
      · exact absurd inAdded List.not_mem_nil
  · have adds : edit.newFiles = [table].map fun file => (target, file) := newFiles
    have files := fun {level : Nat} {file : FileMetaData α β} =>
      @mem_applyEdit_adds _ _ _ version edit target [table] adds (List.nodup_singleton _) level file
    have single : ∀ new ∈ [table], new.number = number :=
      fun new member => by rw [List.mem_singleton.mp member, isNumber]
    refine ⟨counted.applyEdit adds (List.nodup_singleton _) ?_ le_rfl ?_, ?_, ?_, ?_⟩
    · intro level file member _ new inAdded
      rw [single new inAdded]
      exact unused level file member
    · intro new inAdded
      rw [single new inAdded]
      exact lt
    · exact fun level file member => files.mpr (Or.inl ⟨member, stays level file⟩)
    · intro entry member
      refine ⟨target, preparedFile table, ?_, ?_⟩
      · exact files.mpr (Or.inr ⟨rfl, table, List.mem_singleton.mpr rfl, rfl⟩)
      · rw [preparedFile_entries, isEntries]
        exact member
    · intro other different isUnused level file member
      rcases files.mp member with old | ⟨_, new, inAdded, rfl⟩
      · exact isUnused level file old.1
      · rw [preparedFile_number, single new inAdded]
        exact Ne.symm different

/-- An edit that deletes the inputs of a compaction and adds other files at the next level. -/
structure VersionEdit.Replaces (edit : VersionEdit α β) (compaction : Compaction α β)
    (added : List (FileMetaData α β)) : Prop where
  newFiles : edit.newFiles = added.map fun file => (compaction.level + 1, file)
  deletedFiles : ∀ level number, (level, number) ∈ edit.deletedFiles →
    ∃ file, compaction.IsInput level file ∧ file.number = number

/-- It takes out the inputs at most, and what is added is there. -/
theorem VersionEdit.Replaces.applyEdit {compaction : Compaction α β}
    {added : List (FileMetaData α β)} (replaces : edit.Replaces compaction added)
    (counted : version.Counted next)
    (inputs : ∀ level file, compaction.IsInput level file → file ∈ version.files level)
    (nodup : (added.map FileMetaData.number).Nodup)
    (number_ne : ∀ level, ∀ file ∈ version.files level, ¬ edit.removes level file →
      ∀ new ∈ added, file.number ≠ new.number)
    (number_lt : ∀ new ∈ added, new.number < next) :
    (version.applyEdit edit).Counted next ∧
      (∀ entry, version.Holds entry →
        (version.applyEdit edit).Holds entry ∨ entry ∈ compaction.inputEntries) ∧
      ∀ new ∈ added, ∀ entry ∈ new.entries, (version.applyEdit edit).Holds entry := by
  refine ⟨counted.applyEdit replaces.newFiles nodup number_ne le_rfl number_lt, ?_, ?_⟩
  · rintro entry ⟨level, file, member, inFile⟩
    by_cases removed : edit.removes level file
    · obtain ⟨input, isInput, same⟩ := replaces.deletedFiles level file.number removed.1
      have equal := counted.eq_of_number (inputs level input isInput) member same
      exact Or.inr (mem_inputEntries.mpr ⟨level, input, isInput, equal ▸ inFile⟩)
    · refine Or.inl ⟨level, file, ?_, inFile⟩
      exact (mem_applyEdit_adds replaces.newFiles nodup).mpr (Or.inl ⟨member, removed⟩)
  · intro new inAdded entry inNew
    refine ⟨compaction.level + 1, preparedFile new, ?_, inNew⟩
    exact (mem_applyEdit_adds replaces.newFiles nodup).mpr (Or.inr ⟨rfl, new, inAdded, rfl⟩)

omit [LinearOrder α] in
theorem moveEdit_replaces {compaction : Compaction α β} {options : Options α β}
    (trivialMove : compaction.isTrivialMove options = true) :
    ∃ file, compaction.inputs0 = [file] ∧ compaction.inputs1 = [] ∧
      compaction.moveEdit.Replaces compaction [file] := by
  obtain ⟨file, inputs0, inputs1, newFiles, deletedFiles⟩ := moveEdit_eq trivialMove
  refine ⟨file, inputs0, inputs1, newFiles, fun level number deleted => ?_⟩
  rw [deletedFiles, Finset.mem_singleton, Prod.mk.injEq] at deleted
  refine ⟨file, Or.inl ⟨deleted.1, ?_⟩, deleted.2.symm⟩
  rw [inputs0]
  exact List.mem_singleton.mpr rfl

omit [LinearOrder α] in
theorem installEdit_replaces (compaction : Compaction α β) (outputs : List (FileMetaData α β)) :
    (installEdit compaction outputs).Replaces compaction outputs :=
  ⟨installEdit_newFiles outputs, fun _ _ deleted => mem_installEdit_deletedFiles.mp deleted⟩

end Edit

/-! ### The invariant -/

/-- The number of a table that is being built is new, also to the compaction the flush is made
from. -/
structure Reserved (number : Nat) (inside : Option (CompactionJob α β)) (version : Version α β)
    (next : Nat) : Prop where
  lt : number < next
  unused : version.Unused number
  job : ∀ job ∈ inside, job.Follows version next ∧
    ∀ output ∈ job.loop.allOutputs, output.number ≠ number

theorem Reserved.mono {number : Nat} {inside : Option (CompactionJob α β)}
    {version version' : Version α β} {next next' : Nat} (reserved : Reserved number inside version next)
    (files : version'.files = version.files) (le : next ≤ next') :
    Reserved number inside version' next' := by
  refine ⟨reserved.lt.trans_le le, ?_, fun job isJob => ?_⟩
  · rw [Version.Unused, files]
    exact reserved.unused
  · exact ⟨(reserved.job job isJob).1.mono files le, (reserved.job job isJob).2⟩

/-- The edits make the same of every version. -/
def VersionEdit.ActsAs (edit other : VersionEdit α β) : Prop :=
  ∀ base : Version α β, base.applyEdit edit = base.applyEdit other

/-- What the background thread is about to do to the version is sound. -/
def Background.Sound (version : Version α β) (imm : Option (List (Entry α β))) (next : Nat) :
    Background α β → Prop
  | .idle => True
  | .buildingTable number inside => imm.isSome = true ∧ Reserved number inside version next
  | .loggingFlush edit inside => ∃ number content flush, imm = some content ∧
      flush.Flushes number content ∧ edit.ActsAs flush ∧ Reserved number inside version next
  | .loggingMove edit => ∃ (compaction : Compaction α β) (options : Options α β),
      compaction.isTrivialMove options = true ∧
      (∀ level file, compaction.IsInput level file → file ∈ version.files level) ∧
        edit.ActsAs compaction.moveEdit
  | .compacting job => job.Follows version next
  | .loggingResults edit job => job.Follows version next ∧ job.remaining = [] ∧
      ∃ options : Options α β, edit.ActsAs (installEdit job.compaction
        (job.loop.finish.outputs.map (Output.toFile options)))
  | .finishing _ _ => True

theorem Background.Sound.mono {background : Background α β} {version version' : Version α β}
    {imm : Option (List (Entry α β))} {next next' : Nat}
    (sound : background.Sound version imm next) (files : version'.files = version.files)
    (le : next ≤ next') : background.Sound version' imm next' := by
  cases background with
  | idle => trivial
  | buildingTable number inside => exact ⟨sound.1, sound.2.mono files le⟩
  | loggingFlush edit inside =>
    obtain ⟨number, content, flush, full, flushes, acts, reserved⟩ := sound
    exact ⟨number, content, flush, full, flushes, acts, reserved.mono files le⟩
  | loggingMove edit =>
    obtain ⟨compaction, options, trivialMove, inputs, acts⟩ := sound
    refine ⟨compaction, options, trivialMove, ?_, acts⟩
    rw [files]
    exact inputs
  | compacting job => exact CompactionJob.Follows.mono sound files le
  | loggingResults edit job => exact ⟨sound.1.mono files le, sound.2⟩
  | finishing manual ok => trivial

/-- No flush is under way: the immutable memtable plays no part. -/
theorem Background.Sound.ofEmpty {background : Background α β} {version : Version α β} {next : Nat}
    (sound : background.Sound version none next) (imm : Option (List (Entry α β))) :
    background.Sound version imm next := by
  cases background with
  | buildingTable number inside => cases sound.1
  | loggingFlush edit inside =>
    obtain ⟨_, _, _, full, _⟩ := sound
    cases full
  | idle | loggingMove edit | compacting job | loggingResults edit job | finishing manual ok =>
    exact sound

namespace Scheduler

/-- A compaction that was installed had the entry in its input and did not keep it. -/
def Dropped (state : Scheduler α β) (entry : Entry α β) : Prop :=
  ∃ job ∈ state.installed, entry ∈ job.compaction.inputEntries ∧
    entry ∉ keptEntries job.compaction job.smallestSnapshot DropState.initial
      (makeInputIterator job.compaction)

/-- The entry is in a table of the current version, or an installed compaction dropped it. -/
def Settled (state : Scheduler α β) (entry : Entry α β) : Prop :=
  state.write.db.version.Holds entry ∨ state.Dropped entry

/-- Table numbers are distinct, and every entry added to a memtable is in a memtable or settled. -/
structure Placed (state : Scheduler α β) : Prop where
  counted : state.write.db.version.Counted state.write.db.nextFileNumber
  seek : ∀ file level, state.write.db.version.fileToCompact = some (file, level) →
    file ∈ state.write.db.version.files level
  placed : ∀ entry ∈ state.write.added, entry ∈ state.write.db.mem ∨
    (∃ imm, state.write.db.imm = some imm ∧ entry ∈ imm) ∨ state.Settled entry

structure Stored (state : Scheduler α β) : Prop extends state.Placed where
  sound : state.background.Sound state.write.db.version state.write.db.imm
    state.write.db.nextFileNumber

end Scheduler

/-! ### What a step keeps -/

/-- A step of the write queue that keeps the tables only adds to the memtable. -/
theorem WriteState.step_keepsMem [Inhabited β] {options : Options α β} {opSize : WriteOp α β → Nat}
    {state state' : WriteState α β} {action : WriteAction α β} (keeps : action.keepsTables = true)
    (taken : state.step options opSize action = some state') :
    state'.db.nextFileNumber = state.db.nextFileNumber ∧
      (∀ entry ∈ state.db.mem, entry ∈ state'.db.mem) ∧
        ∀ entry ∈ state'.added, entry ∈ state.added ∨ entry ∈ state'.db.mem := by
  cases WriteState.step_moves taken with
  | switchMemTable phase empty => cases keeps
  | insert group done entry phase next =>
    refine ⟨rfl, fun other member => ?_, fun other member => ?_⟩
    · exact (memTableAdd_perm _ _).mem_iff.mpr (List.mem_cons_of_mem _ member)
    · rcases List.mem_append.mp member with old | new
      · exact Or.inl old
      · rw [List.mem_singleton.mp new]
        exact Or.inr ((memTableAdd_perm _ _).mem_iff.mpr List.mem_cons_self)
  | other action isBeside db taken =>
    cases action with
    | getSnapshot =>
      cases taken
      exact ⟨rfl, fun _ => id, fun _ => Or.inl⟩
    | releaseSnapshot index =>
      cases taken
      exact ⟨rfl, fun _ => id, fun _ => Or.inl⟩
    | _ => cases keeps
  | _ => exact ⟨rfl, fun _ => id, fun _ => Or.inl⟩

namespace Scheduler

section Stored

variable {state state' : Scheduler α β}

/-- A step that leaves the tables and the background thread alone. -/
theorem Stored.of_same (inv : state.Stored)
    (version : state'.write.db.version = state.write.db.version)
    (imm : state'.write.db.imm = state.write.db.imm)
    (next : state'.write.db.nextFileNumber = state.write.db.nextFileNumber)
    (background : state'.background.Sound state.write.db.version state.write.db.imm
      state.write.db.nextFileNumber)
    (installed : state'.installed = state.installed)
    (mem : ∀ entry ∈ state.write.db.mem, entry ∈ state'.write.db.mem)
    (added : ∀ entry ∈ state'.write.added, entry ∈ state.write.added ∨
      entry ∈ state'.write.db.mem) : state'.Stored := by
  refine ⟨⟨?_, ?_, fun entry member => ?_⟩, ?_⟩
  · rw [version, next]
    exact inv.counted
  · rw [version]
    exact inv.seek
  · rcases added entry member with old | new
    · rw [Settled, Dropped, version, imm, installed]
      exact (inv.placed entry old).imp_left (mem entry)
    · exact Or.inl new
  · rw [version, imm, next]
    exact background

theorem Stored.maybeSchedule (inv : state.Stored) : state.maybeScheduleCompaction.Stored := by
  obtain ⟨scheduled, equal, _⟩ := state.maybeScheduleCompaction_eq
  rw [equal]
  exact { inv with }

/-- The end of a call. -/
theorem Placed.finishing (placed : state.Placed)
    (manual : Option (Nat × Option (InternalKey α))) (ok : Bool) :
    (state.finishing manual ok).Stored :=
  { placed with sound := trivial }

theorem Placed.afterFlush (placed : state.Placed) (inside : Option (CompactionJob α β))
    (follows : ∀ job ∈ inside, job.Follows state.write.db.version state.write.db.nextFileNumber) :
    (state.afterFlush inside).Stored := by
  cases inside with
  | none => exact { placed with sound := trivial }
  | some job => exact { placed with sound := follows job rfl }

theorem Placed.recordBackgroundError (placed : state.Placed) :
    state.recordBackgroundError.Placed := by
  rw [Scheduler.recordBackgroundError]
  split
  · exact placed
  · exact { placed with }

omit [LinearOrder α] in
theorem recordBackgroundError_db (state : Scheduler α β) :
    state.recordBackgroundError.write.db = state.write.db := by
  rw [Scheduler.recordBackgroundError]
  split <;> rfl

/-- The number of a flush is reserved when it starts. -/
theorem Placed.startFlush (placed : state.Placed) (full : state.write.db.imm.isSome = true)
    (inside : Option (CompactionJob α β))
    (follows : ∀ job ∈ inside, job.Follows state.write.db.version state.write.db.nextFileNumber) :
    (state.startFlush inside).Stored := by
  have unused : state.write.db.version.Unused state.write.db.nextFileNumber :=
    fun level file member => ne_of_lt (placed.counted.number_lt level file member)
  have counted : state.write.db.version.Counted (state.write.db.nextFileNumber + 1) :=
    ⟨placed.counted.numbers_nodup, placed.counted.numbers_ne, fun level file member =>
      (placed.counted.number_lt level file member).trans (Nat.lt_succ_self _)⟩
  refine ⟨⟨counted, placed.seek, placed.placed⟩, full, Nat.lt_succ_self _, unused,
    fun job isJob => ⟨?_, fun output member => ?_⟩⟩
  · exact (follows job isJob).mono rfl (Nat.le_succ _)
  · exact ne_of_lt ((follows job isJob).fresh output member).1

/-- A flush is installed. -/
theorem Placed.flushLogged (placed : state.Placed) {edit flush : VersionEdit α β} {number : Nat}
    {content : List (Entry α β)} {inside : Option (CompactionJob α β)}
    (full : state.write.db.imm = some content) (flushes : flush.Flushes number content)
    (acts : edit.ActsAs flush)
    (reserved : Reserved number inside state.write.db.version state.write.db.nextFileNumber) :
    (state.flushLogged edit inside true).Stored := by
  obtain ⟨counted, stay, holds, unused⟩ :=
    flushes.applyEdit placed.counted reserved.lt reserved.unused
  rw [← acts] at counted stay holds unused
  have installed : Placed ((state.logged edit true).setDb
      { (state.logged edit true).write.db with imm := none }) := by
    refine ⟨counted, fun file level impossible => (by cases impossible), fun entry member => ?_⟩
    rcases placed.placed entry member with inMem | ⟨imm, isImm, inImm⟩ | held | dropped
    · exact Or.inl inMem
    · rw [full, Option.some_inj] at isImm
      exact Or.inr (Or.inr (Or.inl (holds entry (isImm ▸ inImm))))
    · obtain ⟨level, file, inLevel, inFile⟩ := held
      exact Or.inr (Or.inr (Or.inl ⟨level, file, stay level file inLevel, inFile⟩))
    · exact Or.inr (Or.inr (Or.inr dropped))
  refine installed.afterFlush inside fun job isJob => ?_
  obtain ⟨follows, different⟩ := reserved.job job isJob
  refine ⟨fun level file isInput => stay level file (follows.inputs level file isInput),
    follows.keeps, follows.numbers, fun output member => ?_⟩
  exact ⟨(follows.fresh output member).1,
    unused output.number (different output member) (follows.fresh output member).2⟩

/-- A trivial move is installed. -/
theorem Placed.moveLogged (placed : state.Placed) {edit : VersionEdit α β}
    {compaction : Compaction α β} {options : Options α β}
    (trivialMove : compaction.isTrivialMove options = true)
    (inputs : ∀ level file, compaction.IsInput level file →
      file ∈ state.write.db.version.files level)
    (acts : edit.ActsAs compaction.moveEdit) : (state.logged edit true).Placed := by
  obtain ⟨input, inputs0, inputs1, replaces⟩ := moveEdit_replaces trivialMove
  have isInput : compaction.IsInput compaction.level input :=
    Or.inl ⟨rfl, by rw [inputs0]; exact List.mem_singleton.mpr rfl⟩
  have inLevel := inputs _ input isInput
  have fresh : ∀ level, ∀ file ∈ state.write.db.version.files level,
      ¬ compaction.moveEdit.removes level file → ∀ new ∈ [input], file.number ≠ new.number := by
    intro level file member stays new inNew same
    rw [List.mem_singleton.mp inNew] at same
    by_cases sameLevel : level = compaction.level
    · subst sameLevel
      have equal := placed.counted.eq_of_number member inLevel same
      exact stays (equal ▸ moveEdit_removes trivialMove isInput)
    · exact placed.counted.numbers_ne level _ sameLevel file member input inLevel same
  have below : ∀ new ∈ [input], new.number < state.write.db.nextFileNumber := by
    intro new inNew
    rw [List.mem_singleton.mp inNew]
    exact placed.counted.number_lt _ input inLevel
  obtain ⟨counted, keeps, holds⟩ := replaces.applyEdit placed.counted inputs
    (List.nodup_singleton _) fresh below
  rw [← acts] at counted keeps holds
  refine ⟨counted, fun file level impossible => (by cases impossible), fun entry member => ?_⟩
  rcases placed.placed entry member with inMem | inImm | held | dropped
  · exact Or.inl inMem
  · exact Or.inr (Or.inl inImm)
  · rcases keeps entry held with stays | inInput
    · exact Or.inr (Or.inr (Or.inl stays))
    · obtain ⟨level, file, isFile, inFile⟩ := mem_inputEntries.mp inInput
      have same : file = input := by
        rcases isFile with ⟨_, member⟩ | ⟨_, member⟩
        · rw [inputs0] at member
          exact List.mem_singleton.mp member
        · rw [inputs1] at member
          exact absurd member List.not_mem_nil
      exact Or.inr (Or.inr (Or.inl
        (holds input (List.mem_singleton.mpr rfl) entry (same ▸ inFile))))
  · exact Or.inr (Or.inr (Or.inr dropped))

/-- A compaction is installed: what is no longer in a table was dropped. -/
theorem Placed.resultsLogged (placed : state.Placed) {edit : VersionEdit α β}
    {job : CompactionJob α β} {options : Options α β}
    (follows : job.Follows state.write.db.version state.write.db.nextFileNumber)
    (done : job.remaining = [])
    (acts : edit.ActsAs (installEdit job.compaction
      (job.loop.finish.outputs.map (Output.toFile options)))) :
    Placed { state.logged edit true with installed := state.installed ++ [job] } := by
  have outputs : job.loop.finish.outputs = job.loop.allOutputs := rfl
  rw [outputs] at acts
  have numbers : ((job.loop.allOutputs.map (Output.toFile options)).map
      FileMetaData.number) = job.loop.allOutputs.map Output.number := by
    rw [List.map_map]
    rfl
  have isOutput : ∀ new ∈ job.loop.allOutputs.map (Output.toFile options),
      new.number < state.write.db.nextFileNumber ∧
        state.write.db.version.Unused new.number := by
    intro new inNew
    obtain ⟨output, inOutputs, rfl⟩ := List.mem_map.mp inNew
    exact follows.fresh output inOutputs
  obtain ⟨counted, keeps, holds⟩ :=
    (installEdit_replaces job.compaction (job.loop.allOutputs.map (Output.toFile options))).applyEdit
      placed.counted follows.inputs (by rw [numbers]; exact follows.numbers)
      (fun level file member _ new inNew => (isOutput new inNew).2 level file member)
      fun new inNew => (isOutput new inNew).1
  rw [← acts] at counted keeps holds
  have held : ∀ entry ∈ keptEntries job.compaction job.smallestSnapshot DropState.initial
      (makeInputIterator job.compaction),
        (state.write.db.version.applyEdit edit).Holds entry := by
    obtain ⟨kept, fills, whole⟩ := follows.keeps
    rw [done, keptEntries, List.append_nil] at whole
    rw [← whole, ← fills.entries_eq]
    intro entry member
    obtain ⟨output, inOutputs, inOutput⟩ := List.mem_flatMap.mp member
    exact holds (output.toFile options) (List.mem_map_of_mem inOutputs) entry inOutput
  have still : ∀ entry, state.Dropped entry →
      Dropped { state.logged edit true with installed := state.installed ++ [job] } entry := by
    rintro entry ⟨old, inOld, dropped⟩
    exact ⟨old, List.mem_append_left _ inOld, dropped⟩
  refine ⟨counted, fun file level impossible => (by cases impossible), fun entry member => ?_⟩
  rcases placed.placed entry member with inMem | inImm | inTable | dropped
  · exact Or.inl inMem
  · exact Or.inr (Or.inl inImm)
  · rcases keeps entry inTable with stays | inInput
    · exact Or.inr (Or.inr (Or.inl stays))
    · by_cases isKept : entry ∈ keptEntries job.compaction job.smallestSnapshot DropState.initial
        (makeInputIterator job.compaction)
      · exact Or.inr (Or.inr (Or.inl (held entry isKept)))
      · exact Or.inr (Or.inr (Or.inr ⟨job, List.mem_append_right _ (List.mem_singleton.mpr rfl),
          inInput, isKept⟩))
  · exact Or.inr (Or.inr (Or.inr (still entry dropped)))

/-- A failed write of the manifest leaves the version. -/
theorem Placed.logFailed (placed : state.Placed) (edit : VersionEdit α β) :
    (state.logged edit false).Placed := by
  have written : Placed { state with manifest := state.manifest ++ [(edit, false)] } :=
    { placed with }
  exact written.recordBackgroundError

theorem logged_false_db (state : Scheduler α β) (edit : VersionEdit α β) :
    (state.logged edit false).write.db = state.write.db :=
  recordBackgroundError_db _

theorem logged_false_installed (state : Scheduler α β) (edit : VersionEdit α β) :
    (state.logged edit false).installed = state.installed := by
  rw [Scheduler.logged, if_neg Bool.false_ne_true, Scheduler.recordBackgroundError]
  split <;> rfl

theorem Placed.endCall (placed : state.Placed) : (Scheduler.endCall state).Stored := by
  have ended : Stored
      { state with bgCompactionScheduled := false, background := .idle, mutex := none } :=
    { placed with sound := trivial }
  rw [Scheduler.endCall]
  simp only
  split
  · exact { ended with }
  · have scheduled := ended.maybeSchedule
    exact { scheduled with }

/-- An automatic compaction that was set up is a chosen one, whatever the order of its tables. -/
theorem pickCompaction_chosen_of_seek {options : Options α β} {version : Version α β}
    {compactPointer : Nat → Option (InternalKey α)} {compaction : Compaction α β}
    (seek : ∀ file level, version.fileToCompact = some (file, level) → file ∈ version.files level)
    (equal : pickCompaction options version compactPointer = some compaction) :
    compaction.Chosen version := by
  obtain ⟨level, file, member, setup⟩ := pickCompaction_picked seek equal
  rw [setupPicked] at setup
  by_cases zero : level = 0
  · subst zero
    rw [if_pos rfl] at setup
    have nonempty : version.getOverlappingInputs 0 (some file.smallest) (some file.largest) ≠ [] := by
      intro empty
      rw [empty] at setup
      cases setup
    obtain ⟨chosen, chosenEq, _, result⟩ := setupOtherInputs_chosen options nonempty
      (getOverlappingInputs_sublist version 0 _ _)
      (fun _ => getOverlappingInputs_closed version _ _)
    rw [chosenEq] at setup
    cases setup
    exact result
  · rw [if_neg zero] at setup
    obtain ⟨chosen, chosenEq, _, result⟩ := setupOtherInputs_chosen options
      (List.cons_ne_nil file []) (List.singleton_sublist.mpr member)
      (fun isZero => absurd isZero zero)
    rw [chosenEq] at setup
    cases setup
    exact result

theorem Stored.step [Inhabited β] {options : SchedulerOptions α β} {action : SchedulerAction α β}
    (inv : state.Stored) (taken : state.step options action = some state') : state'.Stored := by
  have queue : ∀ {queueAction : WriteAction α β} {write : WriteState α β},
      queueAction.keepsTables = true →
        state.write.step options.toOptions options.opSize queueAction = some write →
          Stored { state with write } := by
    intro queueAction write keeps queued
    obtain ⟨imm, version⟩ := WriteState.step_keepsTables keeps queued
    obtain ⟨next, mem, added⟩ := WriteState.step_keepsMem keeps queued
    exact inv.of_same version imm next inv.sound rfl mem added
  cases step_moves taken with
  | queue action write may queued =>
    exact queue (WriteAction.keepsTables_of_locks (may.imp_right And.left)) queued
  | lead write free queued force isForce =>
    have queued := queue rfl queued
    exact { queued with }
  | delay newLogFails inRoom => exact { inv with }
  | leave newLogFails inRoom action reason write queued =>
    have keeps : action.keepsTables = true := by
      rcases reason with rfl | ⟨rfl, _⟩ <;> rfl
    have left := queue keeps queued
    exact { left with }
  | awaitImm newLogFails inRoom waiting => exact { inv with }
  | awaitLevel0 newLogFails inRoom => exact { inv with }
  | switch inRoom active write queued =>
    refine Stored.maybeSchedule ?_
    cases WriteState.step_moves queued with
    | switchMemTable phase empty =>
      have counted : state.write.db.version.Counted (state.write.db.nextFileNumber + 1) :=
        ⟨inv.counted.numbers_nodup, inv.counted.numbers_ne, fun level file member =>
          (inv.counted.number_lt level file member).trans (Nat.lt_succ_self _)⟩
      have sound := inv.sound
      rw [empty] at sound
      refine ⟨⟨counted, inv.seek, fun entry member => ?_⟩,
        (sound.ofEmpty _).mono rfl (Nat.le_succ _)⟩
      rcases inv.placed entry member with inMem | ⟨imm, isImm, _⟩ | settled
      · exact Or.inr (Or.inl ⟨_, rfl, inMem⟩)
      · rw [empty] at isImm
        cases isImm
      · exact Or.inr (Or.inr settled)
    | leaves _ status phase reason => rcases reason with same | ⟨same, _⟩ <;> cases same
  | finishWrite write mutex queued same =>
    have finished := queue rfl queued
    exact { finished with }
  | finishWriteFailed write mutex queued before after =>
    have finished := queue rfl queued
    exact { finished with }
  | updateStats charged free db charges =>
    refine Stored.maybeSchedule ?_
    rcases charges with rfl | ⟨level, index, charges⟩
    · exact { inv with }
    · rw [Db.chargeSeek] at charges
      split at charges
      · obtain ⟨file, isFile, rfl⟩ := Option.map_eq_some_iff.mp charges
        refine ⟨⟨⟨inv.counted.numbers_nodup, inv.counted.numbers_ne, inv.counted.number_lt⟩,
          fun other place same => ?_, inv.placed⟩, inv.sound.mono rfl le_rfl⟩
        cases same
        exact List.mem_of_getElem? isFile
      · cases charges
  | callCompactRange level first last free => exact { inv with }
  | compactRange id call free isCall ready =>
    rw [compactRangeLoop]
    split
    · split <;> exact { inv with }
    · split
      · exact Stored.maybeSchedule { inv with }
      · exact { inv with }
  | callCompactMemTable write free queued =>
    have arrived := queue rfl queued
    exact { arrived with }
  | compactMemTable index call status free isCall ready result => exact { inv with }
  | suspend free => exact { inv with }
  | resume free => exact { inv with }
  | shutDown free => exact { inv with }
  | refuse free idle scheduled refused => exact inv.toPlaced.finishing none true
  | startFlush free idle scheduled running noError full =>
    exact inv.toPlaced.startFlush full none fun job isJob => by cases isJob
  | startManual id call free idle scheduled running noError manual isCall =>
    rw [Scheduler.startManual]
    split
    · exact { inv with sound := trivial }
    · rename_i compaction chooses
      exact { inv with sound := follows_initial (compactRange_chosen chooses).2 _ _ _ _ }
  | startAutomatic free idle scheduled running noError noManual =>
    rw [Scheduler.startAutomatic]
    split
    · exact inv.toPlaced.finishing none true
    · rename_i compaction chooses
      have chosen := pickCompaction_chosen_of_seek inv.seek chooses
      simp only
      split
      · rename_i trivialMove
        exact { inv with sound := ⟨compaction, options.toOptions, trivialMove,
          fun level file isInput => isInput.mem_files chosen, fun _ => rfl⟩ }
      · exact { inv with sound := follows_initial chosen _ _ _ _ }
  | tableBuilt number inside imm free isBackground full =>
    have sound := inv.sound
    rw [isBackground] at sound
    exact { inv with sound := ⟨number, imm, _, full,
      writeLevel0Table_flushes options.toOptions (some state.write.db.version) number imm,
      fun _ => rfl, sound.2⟩ }
  | tableFailed number inside succeeds free isBackground failed =>
    have sound := inv.sound
    rw [isBackground] at sound
    refine inv.toPlaced.recordBackgroundError.afterFlush inside fun job isJob => ?_
    rw [recordBackgroundError_db]
    exact (sound.2.job job isJob).1
  | flushLogged edit inside succeeds free isBackground =>
    have sound := inv.sound
    rw [isBackground] at sound
    obtain ⟨number, content, flush, full, flushes, acts, reserved⟩ := sound
    cases succeeds with
    | true => exact inv.toPlaced.flushLogged full flushes acts reserved
    | false =>
      refine Placed.afterFlush (inv.toPlaced.logFailed edit) inside fun job isJob => ?_
      rw [logged_false_db]
      exact (reserved.job job isJob).1
  | moveLogged edit succeeds free isBackground =>
    have sound := inv.sound
    rw [isBackground] at sound
    obtain ⟨compaction, moveOptions, trivialMove, inputs, acts⟩ := sound
    cases succeeds with
    | true => exact (inv.toPlaced.moveLogged trivialMove inputs acts).finishing none true
    | false => exact (inv.toPlaced.logFailed edit).finishing none false
  | visit job entry rest free isBackground remaining =>
    have sound := inv.sound
    rw [isBackground] at sound
    obtain ⟨le, follows⟩ := CompactionJob.Follows.visit sound inv.counted options.toOptions
      remaining rfl
    exact ⟨⟨⟨inv.counted.numbers_nodup, inv.counted.numbers_ne, fun level file member =>
      (inv.counted.number_lt level file member).trans_le le⟩, inv.seek, inv.placed⟩, follows⟩
  | flushInside job free isBackground full =>
    have sound := inv.sound
    rw [isBackground] at sound
    refine inv.toPlaced.startFlush full (some job) fun other isJob => ?_
    cases isJob
    exact sound
  | endLoop job free isBackground done =>
    have sound := inv.sound
    rw [isBackground] at sound
    exact { inv with sound := ⟨sound, done, options.toOptions, fun _ => rfl⟩ }
  | endLoopFailed job free isBackground =>
    exact inv.toPlaced.recordBackgroundError.finishing job.manual false
  | resultsLogged edit job succeeds free isBackground =>
    have sound := inv.sound
    rw [isBackground] at sound
    obtain ⟨follows, done, resultOptions, acts⟩ := sound
    cases succeeds with
    | true => exact (inv.toPlaced.resultsLogged follows done acts).finishing job.manual true
    | false =>
      rw [Scheduler.resultsLogged, if_neg Bool.false_ne_true, List.append_nil]
      have failed := inv.toPlaced.logFailed edit
      rw [← logged_false_installed state edit]
      exact Placed.finishing { failed with } job.manual false
  | endCall ok isBackground => exact inv.toPlaced.endCall
  | endManual id manualEnd ok isBackground finished finishes =>
    obtain ⟨posted, _, finishes⟩ := Option.bind_eq_some_iff.mp finishes
    obtain ⟨call, _, rfl⟩ := Option.map_eq_some_iff.mp finishes
    exact Placed.endCall { inv.toPlaced with }

end Stored

end Scheduler

end LevelDb
