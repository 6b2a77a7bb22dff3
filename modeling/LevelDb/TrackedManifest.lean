/-
This file proves what the manifest of an open database holds in every state, whatever calls to the
Env fail: edits that follow each other, the next of which is the one that `LogAndApply` is about to
append. As long as no write to the manifest has failed, the version is what is read of the manifest,
up to the edit that is being written.
-/

import LevelDb.AgeOrder
import LevelDb.SeekCompaction
import LevelDb.SuccessiveEdits

namespace LevelDb

variable {α β : Type}

/-! ### The invariant -/

/-- The compaction that `LogAndApply` returns to. -/
def LogCaller.inside : LogCaller α β → Option (CompactionJob α β)
  | .compactMemTable inside => inside
  | .trivialMove | .installResults _ => none

/-- The edit that is in the manifest and not yet in the version. -/
def Work.inManifest : Work α β → List (VersionEdit α β)
  | .logging edit .written _ | .logging edit .synced _ => [edit]
  | _ => []

/-- What is picked for a compaction has a level below it. -/
structure Version.PicksAbove (version : Version α β) : Prop where
  size : version.compactionLevel + 1 < Config.kNumLevels
  seek : ∀ file level, version.fileToCompact = some (file, level) → level + 1 < Config.kNumLevels

/-- The outputs of the compaction have numbers that no edit has added. -/
structure CompactionJob.New (job : CompactionJob α β) (edits : List (VersionEdit α β)) : Prop where
  level : job.compaction.level + 1 < Config.kNumLevels
  distinct : (job.loop.allOutputs.map Output.number).Nodup
  isNew : ∀ output ∈ job.loop.allOutputs, NewNumber edits output.number

variable [LinearOrder α]

/-- What the background thread will add to the manifest is new there. -/
def Work.Tracks (edits : List (VersionEdit α β)) : Work α β → Prop
  | .idle => True
  | .building number _ inside => NewNumber edits number ∧ ∀ job ∈ inside, job.New edits
  | .logging edit .started caller =>
    edit.Follows edits ∧ ∀ job ∈ caller.inside, job.New (edits ++ [edit])
  | .logging _ _ caller => ∀ job ∈ caller.inside, job.New edits
  | .compacting job => job.New edits
  | .collecting inside => ∀ job ∈ inside, job.New edits

/-- The version is what is read of the first edits, and the others are being written. -/
structure Memory.Matches (memory : Memory α β) (edits front : List (VersionEdit α β)) : Prop where
  split : edits = front ++ memory.work.inManifest
  files : memory.db.version.files = (versionOf front).files
  readable : (Descriptor.read front).isSome = true

/-- What holds of an open database and of the edits in its manifest. -/
structure Memory.Tracks (memory : Memory α β) (edits : List (VersionEdit α β)) : Prop where
  successive : Successive edits
  picks : memory.db.version.PicksAbove
  work : memory.work.Tracks edits
  recorded : memory.bgError = false → ∃ front, memory.Matches edits front

/-! ### Picked levels -/

omit [LinearOrder α] in
theorem picksAbove_finalize {version : Version α β} (noSeek : version.fileToCompact = none) :
    (finalize version).PicksAbove where
  size := Nat.succ_lt_succ (Nat.lt_succ_of_le (bestLevel_le version 5))
  seek := fun file level isSeek => by
    rw [show (finalize version).fileToCompact = none from noSeek] at isSeek
    cases isSeek

theorem finishSetup_level {version : Version α β} {level : Nat}
    {inputs0 inputs1 : List (FileMetaData α β)} {largest : InternalKey α}
    {compaction : Compaction α β}
    (setup : finishSetup version level inputs0 inputs1 largest = some compaction) :
    compaction.level = level := by
  obtain ⟨_, -, rfl⟩ := Option.map_eq_some_iff.mp setup
  rfl

theorem setupOtherInputs_level {options : Options α β} {version : Version α β} {level : Nat}
    {inputs0 : List (FileMetaData α β)} {compaction : Compaction α β}
    (setup : setupOtherInputs options version level inputs0 = some compaction) :
    compaction.level = level := by
  obtain ⟨range, -, setup⟩ := Option.bind_eq_some_iff.mp setup
  obtain ⟨all, -, setup⟩ := Option.bind_eq_some_iff.mp setup
  dsimp only at setup
  split at setup
  · obtain ⟨newRange, -, setup⟩ := Option.bind_eq_some_iff.mp setup
    split at setup
    · exact finishSetup_level setup
    · exact finishSetup_level setup
  · exact finishSetup_level setup

theorem Version.PicksAbove.chosen {options : Options α β} {db : Db α β}
    (picks : db.version.PicksAbove) {choice : Action α β} {compaction : Compaction α β}
    (chooses : db.chosen options choice = some compaction) :
    compaction.level + 1 < Config.kNumLevels := by
  cases choice with
  | backgroundCompaction =>
    rw [Db.chosen, pickCompaction] at chooses
    split at chooses
    · obtain ⟨file, -, setup⟩ := Option.bind_eq_some_iff.mp chooses
      rw [setupOtherInputs_level setup]
      exact picks.size
    · obtain ⟨⟨file, level⟩, isSeek, setup⟩ := Option.bind_eq_some_iff.mp chooses
      rw [setupOtherInputs_level setup]
      exact picks.seek file level isSeek
  | manualCompaction level first last =>
    rw [Db.chosen] at chooses
    split at chooses
    · rename_i above
      rw [(compactRange_chosen chooses).1]
      exact above
    · cases chooses
  | _ => cases chooses

section Picks

variable [Inhabited β] {options : Options α β} {memory memory' : Memory α β}
  {files files' : Files α β} {action : RunningAction α β}

omit [LinearOrder α] [Inhabited β] in
theorem Memory.readStep_picks (picks : memory.db.version.PicksAbove)
    (taken : memory.readStep action = some memory') : memory'.db.version.PicksAbove := by
  cases action with
  | chargeSeek level index =>
    obtain ⟨db, charges, rfl⟩ := Option.map_eq_some_iff.mp taken
    obtain ⟨⟨above, -⟩, charged⟩ := Option.ite_none_right_eq_some.mp charges
    obtain ⟨file, -, rfl⟩ := Option.map_eq_some_iff.mp charged
    refine ⟨picks.size, fun other otherLevel isSeek => ?_⟩
    obtain ⟨rfl, rfl⟩ := Prod.mk.inj (Option.some.inj isSeek)
    exact above
  | getSnapshot =>
    cases taken
    exact picks
  | releaseSnapshot index =>
    cases taken
    exact picks
  | pin =>
    cases taken
    exact picks
  | unpin index =>
    cases taken
    exact picks
  | _ => cases taken

theorem Memory.step_reads (reads : action.reads = true)
    (taken : memory.step options files action = some (memory', files')) :
    memory.readStep action = some memory' := by
  have noWrite : memory.writeStep files action = none := by
    cases action <;> first | rfl | cases reads
  have noBackground : memory.backgroundStep options files action = none := by
    cases action <;> first | rfl | cases reads
  rw [Memory.step, noWrite, noBackground, Option.none_or, Option.or_none] at taken
  obtain ⟨read, isRead, same⟩ := Option.map_eq_some_iff.mp taken
  rw [isRead, (Prod.mk.inj same).1]

omit [LinearOrder α] [Inhabited β] in
@[simp] theorem Memory.afterFlush_db (memory : Memory α β) (inside : Option (CompactionJob α β)) :
    (memory.afterFlush inside).db = memory.db := by
  cases inside <;> rfl

omit [LinearOrder α] [Inhabited β] in
@[simp] theorem Memory.logFailed_db (memory : Memory α β) (caller : LogCaller α β) :
    (memory.logFailed caller).db = memory.db := by
  cases caller with
  | compactMemTable inside => exact Memory.afterFlush_db _ inside
  | trivialMove => rfl
  | installResults job => rfl

/-- Only an edit replaces the version, and readers set the file to compact. -/
theorem Memory.Moves.version_eq (moves : memory.Moves options files action memory' files') :
    action.reads = true ∨ memory'.db.version = memory.db.version ∨
      ∃ edit, memory'.db.version = memory.db.version.applyEdit edit := by
  cases moves with
  | read _ reads => exact Or.inl reads
  | syncTableFails number inside => exact Or.inr (Or.inl (by rw [Memory.afterFlush_db]))
  | endCollecting inside => exact Or.inr (Or.inl (by rw [Memory.afterFlush_db]))
  | appendEditFails written edit caller => exact Or.inr (Or.inl (by rw [Memory.logFailed_db]))
  | syncManifestFails edit caller => exact Or.inr (Or.inl (by rw [Memory.logFailed_db]))
  | install edit caller => exact Or.inr (Or.inr ⟨edit, by cases caller <;> rfl⟩)
  | _ => exact Or.inr (Or.inl rfl)

theorem Memory.step_picks (picks : memory.db.version.PicksAbove)
    (taken : memory.step options files action = some (memory', files')) :
    memory'.db.version.PicksAbove := by
  obtain reads | same | ⟨edit, applied⟩ := (Memory.step_moves taken).version_eq
  · exact Memory.readStep_picks picks (Memory.step_reads reads taken)
  · rw [same]
    exact picks
  · rw [applied]
    exact picksAbove_finalize rfl

end Picks

/-! ### What a step adds to the manifest -/

section Steps

variable [Inhabited β] {options : Options α β} {memory memory' : Memory α β}
  {files files' : Files α β} {action : RunningAction α β} {flushed switched : Nat}

omit [LinearOrder α] [Inhabited β] in
theorem putTable_manifest (files : Files α β) (number : Nat) (entries : List (Entry α β))
    (synced : Bool) : (files.putTable number entries synced).manifest = files.manifest := by
  cases entries <;> rfl

/-- The manifest stays as it is, or the edit that is written joins it. -/
theorem Memory.Grounded.edits_moves (grounded : memory.Grounded files flushed switched)
    (moves : memory.Moves options files action memory' files') :
    files'.manifest.edits = files.manifest.edits ∧ (∀ written, action ≠ .appendEdit true written) ∨
      ∃ edit caller succeeds written, action = .appendEdit succeeds written ∧
        memory.work = .logging edit .started caller ∧
          files'.manifest.edits = files.manifest.edits ++ [edit] := by
  have appended : ∀ edit (caller : LogCaller α β), (files.appendEdit memory.manifestFileNumber
      (caller.record edit)).manifest.edits = files.manifest.edits ++ [edit] := by
    intro edit caller
    rw [← grounded.backs.isCurrent, appendEdit_edits, LogCaller.record_edit]
  cases moves with
  | append =>
    refine Or.inl ⟨?_, fun _ impossible => by cases impossible⟩
    split <;> rfl
  | startFlush =>
    exact Or.inl ⟨congrArg ManifestFile.edits (putTable_manifest _ _ _ _),
      fun _ impossible => by cases impossible⟩
  | syncTable =>
    exact Or.inl ⟨congrArg ManifestFile.edits (putTable_manifest _ _ _ _),
      fun _ impossible => by cases impossible⟩
  | read _ reads =>
    refine Or.inl ⟨rfl, fun written isAppend => ?_⟩
    rw [isAppend] at reads
    cases reads
  | appendEdit written edit caller stage =>
    exact Or.inr ⟨edit, caller, true, written, rfl, stage, appended edit caller⟩
  | appendEditFails written edit caller stage =>
    cases written with
    | true => exact Or.inr ⟨edit, caller, false, true, rfl, stage, appended edit caller⟩
    | false => exact Or.inl ⟨rfl, fun _ impossible => by cases impossible⟩
  | syncManifest edit caller stage =>
    refine Or.inl ⟨?_, fun _ impossible => by cases impossible⟩
    rw [← grounded.backs.isCurrent, syncManifest_edits]
  | removeFile kind =>
    refine Or.inl ⟨?_, fun _ impossible => by cases impossible⟩
    cases kind <;> rfl
  | _ => exact Or.inl ⟨rfl, fun _ impossible => by cases impossible⟩

/-- An error is never forgotten, and a write to the manifest that fails is one. -/
theorem Memory.Moves.of_noError (moves : memory.Moves options files action memory' files')
    (noError : memory'.bgError = false) :
    memory.bgError = false ∧ action.writesManifest = true := by
  have afterFlush : ∀ (memory : Memory α β) inside,
      (memory.afterFlush inside).bgError = memory.bgError := by
    intro memory inside
    cases inside <;> rfl
  have logFailed : ∀ caller : LogCaller α β, (memory.logFailed caller).bgError = true := by
    intro caller
    cases caller with
    | compactMemTable inside => exact afterFlush _ inside
    | trivialMove => rfl
    | installResults job => rfl
  cases moves with
  | finishWrite batch error stage =>
    obtain ⟨-, same⟩ | ⟨syncError, -, same⟩ := stage
    · exact ⟨same.symm.trans noError, rfl⟩
    · exact ⟨(Bool.or_eq_false_iff.mp (same.symm.trans noError)).1, rfl⟩
  | read _ reads =>
    refine ⟨noError, ?_⟩
    cases action <;> first | rfl | cases reads
  | syncTableFails number inside => cases (afterFlush _ inside).symm.trans noError
  | endLoopFails => cases noError
  | appendEditFails written edit caller => cases (logFailed caller).symm.trans noError
  | syncManifestFails edit caller => cases (logFailed caller).symm.trans noError
  | install edit caller =>
    refine ⟨Eq.trans ?_ noError, rfl⟩
    cases caller <;> rfl
  | endCollecting inside => exact ⟨(afterFlush _ inside).symm.trans noError, rfl⟩
  | _ => exact ⟨noError, rfl⟩

end Steps

/-! ### What the background thread will add -/

section Works

variable {memory memory' : Memory α β} {edits : List (VersionEdit α β)} {job : CompactionJob α β}
  {edit : VersionEdit α β}

omit [LinearOrder α] in
theorem CompactionJob.New.of_append (new : job.New (edits ++ [edit])) : job.New edits :=
  ⟨new.level, new.distinct, fun output member =>
    (newNumber_append.mp (new.isNew output member)).1⟩

omit [LinearOrder α] in
theorem CompactionJob.New.append (new : job.New edits)
    (differs : ∀ output ∈ job.loop.allOutputs, ∀ added ∈ edit.newFiles,
      added.2.number ≠ output.number) : job.New (edits ++ [edit]) :=
  ⟨new.level, new.distinct, fun output member =>
    newNumber_append.mpr ⟨new.isNew output member, differs output member⟩⟩

theorem Work.Tracks.inside {stage : ManifestStage} {caller : LogCaller α β}
    (tracks : (Work.logging edit stage caller).Tracks edits) :
    ∀ job ∈ caller.inside, job.New edits := by
  cases stage with
  | started => exact fun job member => (tracks.2 job member).of_append
  | written => exact tracks
  | synced => exact tracks

theorem tracks_afterFlush {inside : Option (CompactionJob α β)}
    (news : ∀ job ∈ inside, job.New edits) : (memory.afterFlush inside).work.Tracks edits := by
  cases inside with
  | none => trivial
  | some job => exact news job rfl

theorem tracks_logFailed {caller : LogCaller α β} (news : ∀ job ∈ caller.inside, job.New edits) :
    (memory.logFailed caller).work.Tracks edits := by
  cases caller with
  | compactMemTable inside => exact tracks_afterFlush news
  | trivialMove => trivial
  | installResults job => trivial

theorem Memory.logged_tracks {caller : LogCaller α β}
    (news : ∀ job ∈ caller.inside, job.New edits) : (memory.logged caller).work.Tracks edits := by
  cases caller with
  | compactMemTable inside => exact news
  | trivialMove => trivial
  | installResults job => exact fun _ impossible => by cases impossible

variable {files : Files α β} {flushed switched : Nat}

theorem Memory.Grounded.newNumber_next (grounded : memory.Grounded files flushed switched) :
    NewNumber files.manifest.edits memory.db.nextFileNumber :=
  fun added member => ne_of_lt (grounded.backs.below.added added member).1

/-- A round of the loop takes the next number at most. -/
theorem CompactionJob.New.visit [Inhabited β] (new : job.New files.manifest.edits)
    (grounded : memory.Grounded files flushed switched) {options : Options α β} {entry : Entry α β}
    {rest : List (Entry α β)} {loop : CompactionState α β} (stage : memory.work = .compacting job)
    (isLoop : loop = { job.loop with nextFileNumber := memory.db.nextFileNumber }.step options
      job.compaction job.smallestSnapshot entry) :
    CompactionJob.New { job with loop := loop, remaining := rest } files.manifest.edits := by
  have below := grounded.works.job job (by rw [stage]; rfl)
  have numbers := step_numbers { job.loop with nextFileNumber := memory.db.nextFileNumber } options
    job.compaction job.smallestSnapshot entry
  rw [← isLoop] at numbers
  have isNew : ∀ number ∈ job.loop.allOutputs.map Output.number,
      NewNumber files.manifest.edits number := fun number member => by
    obtain ⟨output, inOutputs, rfl⟩ := List.mem_map.mp member
    exact new.isNew output inOutputs
  obtain same | ⟨grown, -⟩ := numbers
  · refine ⟨new.level, ?_, fun output member => isNew _ ?_⟩
    · rw [same]
      exact new.distinct
    · exact (congrArg (output.number ∈ ·) same).mp (List.mem_map_of_mem member)
  · refine ⟨new.level, ?_, fun output member => ?_⟩
    · rw [grown]
      refine List.Nodup.append new.distinct (List.nodup_singleton _) ?_
      rw [List.disjoint_singleton]
      intro member
      obtain ⟨output, inOutputs, isNext⟩ := List.mem_map.mp member
      exact (grounded.listed.pending _ (below.pending output inOutputs)).ne isNext
    · have inGrown : output.number ∈ loop.allOutputs.map Output.number :=
        List.mem_map_of_mem member
      rw [grown] at inGrown
      obtain old | isNext := List.mem_append.mp inGrown
      · exact isNew _ old
      · rw [List.mem_singleton.mp isNext]
        exact grounded.newNumber_next

/-- The edit of a flush adds the table that was built, if there is one. -/
theorem flush_added {options : Options α β} {base : Option (Version α β)} {number : Nat}
    {content : List (Entry α β)} (completed : edit.newFiles =
      (writeLevel0Table options base number content {}).newFiles) :
    edit.newFiles = [] ∨ ∃ level file, edit.newFiles = [(level, file)] ∧ file.number = number ∧
      level < Config.kNumLevels := by
  obtain ⟨noTable, -⟩ | ⟨file, isNumber, -, isAdded⟩ :=
    writeLevel0Table_added options base number content {}
  · exact Or.inl (completed.trans (congrArg VersionEdit.newFiles noTable))
  · refine Or.inr ⟨_, file, completed.trans (congrArg VersionEdit.newFiles isAdded), isNumber, ?_⟩
    cases base with
    | none => exact Nat.zero_lt_succ _
    | some version =>
      exact (pickLevelForMemTableOutput_le options version _ _).trans_lt (by decide)

/-- An edit that adds one table of a new number at most. -/
theorem VersionEdit.Follows.of_single {number : Nat} (isNew : NewNumber edits number)
    (added : edit.newFiles = [] ∨ ∃ level file, edit.newFiles = [(level, file)] ∧
      file.number = number ∧ level < Config.kNumLevels) : edit.Follows edits := by
  obtain nothing | ⟨level, file, single, isNumber, above⟩ := added
  · refine ⟨?_, Or.inl ⟨?_, ?_⟩⟩
    · rw [nothing]
      exact List.forall_mem_nil _
    · rw [nothing]
      exact List.nodup_nil
    · rw [nothing]
      exact List.forall_mem_nil _
  · refine ⟨?_, Or.inl ⟨?_, ?_⟩⟩
    · rw [single]
      exact List.forall_mem_singleton.mpr above
    · rw [single]
      exact List.nodup_singleton _
    · rw [single]
      exact List.forall_mem_singleton.mpr (isNumber ▸ isNew)

/-- The edit of a compaction adds its outputs. -/
theorem CompactionJob.New.follows {options : Options α β} (new : job.New edits)
    (completed : edit.newFiles = (installEdit job.compaction
      (job.loop.finish.outputs.map (Output.toFile options))).newFiles) : edit.Follows edits := by
  have isAdded : edit.newFiles = job.loop.allOutputs.map fun output =>
      (job.compaction.level + 1, output.toFile options) := by
    rw [completed, installEdit_newFiles, List.map_map]
    rfl
  refine ⟨?_, Or.inl ⟨?_, ?_⟩⟩
  · rw [isAdded]
    exact List.forall_mem_map.mpr fun _ _ => new.level
  · rw [isAdded, List.map_map]
    exact new.distinct
  · rw [isAdded]
    exact List.forall_mem_map.mpr new.isNew

/-- The edit of a trivial move takes a file of the version down. -/
theorem Compaction.Chosen.move_follows {options : Options α β} {compaction : Compaction α β}
    (chosen : compaction.Chosen memory.db.version)
    (above : compaction.level + 1 < Config.kNumLevels)
    (same : memory.db.version.files = (versionOf edits).files)
    (isTrivialMove : compaction.isTrivialMove options = true)
    (newFiles : edit.newFiles = compaction.moveEdit.newFiles)
    (deletedFiles : edit.deletedFiles = compaction.moveEdit.deletedFiles) :
    edit.Follows edits := by
  obtain ⟨file, inputs0, -, isAdded, isDeleted⟩ := moveEdit_eq isTrivialMove
  have single : edit.newFiles = [(compaction.level + 1, file)] := newFiles.trans isAdded
  refine ⟨?_, Or.inr ⟨compaction.level, file, ?_, single, ?_⟩⟩
  · rw [single]
    exact List.forall_mem_singleton.mpr above
  · rw [← same]
    refine chosen.inputs0_sublist.subset ?_
    rw [inputs0]
    exact List.mem_singleton_self file
  · rw [deletedFiles, isDeleted]
    exact Finset.mem_singleton_self _

end Works

/-! ### Every step -/

section Moves

variable [Inhabited β] {options : Options α β} {memory memory' : Memory α β}
  {files files' : Files α β} {action : RunningAction α β} {flushed switched : Nat}

theorem Memory.Tracks.work_moves (tracks : memory.Tracks files.manifest.edits)
    (grounded : memory.Grounded files flushed switched)
    (moves : memory.Moves options files action memory' files') :
    memory'.work.Tracks files'.manifest.edits := by
  have work := tracks.work
  obtain ⟨same, notAppend⟩ | ⟨edit, caller, succeeds, written, rfl, stage, appended⟩ :=
    grounded.edits_moves moves
  · rw [same]
    cases moves with
    | startFlush inside imm isImm stage =>
      refine ⟨grounded.newNumber_next, ?_⟩
      obtain ⟨-, -, rfl⟩ | ⟨job, compacting, -, rfl⟩ := stage
      · exact fun _ impossible => by cases impossible
      · rw [compacting] at work
        exact fun other isJob => Option.mem_some.mp isJob ▸ work
    | syncTable number inside imm isImm stage =>
      rw [stage] at work
      exact work
    | syncTableFails number inside imm isImm stage =>
      rw [stage] at work
      exact tracks_afterFlush work.2
    | tableBuilt number inside imm isImm stage =>
      rw [stage] at work
      refine ⟨.of_single work.1 (flush_added rfl), fun job isJob => ?_⟩
      refine (work.2 job isJob).append fun output inOutputs added isAdded => ?_
      have differs := (grounded.works.building _ _ _ stage).2.2 job isJob output inOutputs
      obtain nothing | ⟨level, file, single, isNumber, -⟩ :=
        @flush_added α β _ _ options (some memory.db.version) number imm rfl
      · cases (nothing ▸ isAdded : added ∈ [])
      · rw [List.mem_singleton.mp (single ▸ isAdded : added ∈ [(level, file)]), isNumber]
        exact differs.symm
    | startMove choice compaction idle noError empty chooses isTrivialMove pointer =>
      obtain ⟨front, recorded⟩ := tracks.recorded noError
      have isFront : files.manifest.edits = front := by
        rw [recorded.split, idle]
        exact List.append_nil front
      have chosen := Db.chosen_of_seek grounded.listed.seek chooses
      exact ⟨chosen.move_follows (tracks.picks.chosen chooses) (isFront ▸ recorded.files)
        isTrivialMove rfl rfl, fun _ impossible => by cases impossible⟩
    | startCompaction choice compaction idle noError empty chooses pointer =>
      exact ⟨tracks.picks.chosen chooses, List.nodup_nil, List.forall_mem_nil _⟩
    | visit job entry rest loop stage remaining isLoop =>
      rw [stage] at work
      exact CompactionJob.New.visit work grounded stage isLoop
    | endLoop job stage remaining =>
      rw [stage] at work
      exact ⟨CompactionJob.New.follows work rfl, fun _ impossible => by cases impossible⟩
    | endLoopFails job stage => trivial
    | appendEdit written edit caller stage => exact absurd rfl (notAppend written)
    | appendEditFails written edit caller stage =>
      rw [stage] at work
      exact tracks_logFailed work.inside
    | syncManifest edit caller stage =>
      rw [stage] at work
      exact work
    | syncManifestFails edit caller stage =>
      rw [stage] at work
      exact tracks_logFailed work.inside
    | install edit caller stage =>
      rw [stage] at work
      exact Memory.logged_tracks work.inside
    | removeFile kind number inside stage noError obsolete there =>
      rw [stage] at work ⊢
      exact work
    | endCollecting inside stage =>
      rw [stage] at work
      exact tracks_afterFlush work
    | _ => exact work
  · rw [stage] at work
    rw [appended]
    cases moves with
    | appendEdit _ other otherCaller otherStage =>
      cases stage.symm.trans otherStage
      exact work.2
    | appendEditFails _ other otherCaller otherStage =>
      cases stage.symm.trans otherStage
      exact tracks_logFailed work.2
    | read _ reads => cases reads

omit [Inhabited β] in
theorem Memory.Matches.quiet {edits front : List (VersionEdit α β)}
    (recorded : memory.Matches edits front) (version : memory'.db.version.files =
      memory.db.version.files) (work : memory'.work.inManifest = memory.work.inManifest) :
    memory'.Matches edits front :=
  ⟨by rw [work]; exact recorded.split, version.trans recorded.files, recorded.readable⟩

omit [Inhabited β] in
/-- The edit that was written is applied to the version. -/
theorem Memory.Matches.install {edits front : List (VersionEdit α β)} {edit : VersionEdit α β}
    {caller : LogCaller α β} (recorded : memory.Matches edits front)
    (successive : Successive edits) (stage : memory.work = .logging edit .synced caller)
    (readable : (Descriptor.read (front ++ [edit])).isSome = true) :
    ((memory.install edit).logged caller).Matches edits edits := by
  have split : edits = front ++ [edit] := by
    rw [recorded.split, stage]
    rfl
  obtain ⟨before, follows⟩ := (split ▸ successive : Successive (front ++ [edit])).of_append
  have applied : ((memory.install edit).logged caller).db.version =
      memory.db.version.applyEdit edit := by
    cases caller <;> rfl
  have done : ((memory.install edit).logged caller).work.inManifest = [] := by
    cases caller <;> rfl
  refine ⟨?_, ?_, ?_⟩
  · rw [done, List.append_nil]
  · rw [applied, split, before.versionOf_append follows]
    exact foldl_applyEdit_files_congr recorded.files [edit]
  · rw [split]
    exact readable

/-- The version and the manifest go together as long as the writes to the manifest succeed. -/
theorem Memory.Matches.moves {front : List (VersionEdit α β)}
    (recorded : memory.Matches files.manifest.edits front)
    (successive : Successive files.manifest.edits)
    (grounded : memory.Grounded files flushed switched) (writes : action.writesManifest = true)
    (moves : memory.Moves options files action memory' files') :
    ∃ front', memory'.Matches files'.manifest.edits front' := by
  have afterFlush : ∀ (memory : Memory α β) inside, (memory.afterFlush inside).work.inManifest = [] := by
    intro memory inside
    cases inside <;> rfl
  obtain ⟨same, notAppend⟩ | ⟨edit, caller, succeeds, written, rfl, stage, appended⟩ :=
    grounded.edits_moves moves
  · rw [same]
    cases moves with
    | startFlush inside imm isImm stage =>
      refine ⟨front, recorded.quiet rfl ?_⟩
      obtain ⟨idle, -⟩ | ⟨job, compacting, -⟩ := stage
      · rw [idle]
        rfl
      · rw [compacting]
        rfl
    | syncTable number inside imm isImm stage => exact ⟨front, recorded.quiet rfl (by rw [stage]; rfl)⟩
    | syncTableFails number inside imm isImm stage =>
      refine ⟨front, recorded.quiet (by rw [Memory.afterFlush_db]) ?_⟩
      rw [afterFlush, stage]
      rfl
    | tableBuilt number inside imm isImm stage =>
      exact ⟨front, recorded.quiet rfl (by rw [stage]; rfl)⟩
    | startMove choice compaction idle => exact ⟨front, recorded.quiet rfl (by rw [idle]; rfl)⟩
    | startCompaction choice compaction idle =>
      exact ⟨front, recorded.quiet rfl (by rw [idle]; rfl)⟩
    | visit job entry rest loop stage => exact ⟨front, recorded.quiet rfl (by rw [stage]; rfl)⟩
    | endLoop job stage remaining => exact ⟨front, recorded.quiet rfl (by rw [stage]; rfl)⟩
    | endLoopFails job stage => exact ⟨front, recorded.quiet rfl (by rw [stage]; rfl)⟩
    | appendEdit written edit caller stage => exact absurd rfl (notAppend written)
    | appendEditFails written edit caller stage => cases writes
    | syncManifest edit caller stage => exact ⟨front, recorded.quiet rfl (by rw [stage]; rfl)⟩
    | syncManifestFails edit caller stage => cases writes
    | install edit caller stage =>
      obtain ⟨logNumber, next, last, completed⟩ := grounded.works.logging _ _ _ stage
      exact ⟨_, recorded.install successive stage (by rw [read_append completed.numbered]; rfl)⟩
    | endCollecting inside stage =>
      refine ⟨front, recorded.quiet (by rw [Memory.afterFlush_db]) ?_⟩
      rw [afterFlush, stage]
      rfl
    | _ => exact ⟨front, recorded.quiet rfl rfl⟩
  · have split : files.manifest.edits = front := by
      rw [recorded.split, stage]
      exact List.append_nil front
    rw [appended]
    cases moves with
    | appendEdit _ other otherCaller otherStage =>
      cases stage.symm.trans otherStage
      exact ⟨front, by rw [split]; rfl, recorded.files, recorded.readable⟩
    | appendEditFails => cases writes
    | read _ reads => cases reads

/-- What is tracked stays so in every step, whatever fails. -/
theorem Memory.Tracks.step (tracks : memory.Tracks files.manifest.edits)
    (grounded : memory.Grounded files flushed switched)
    (taken : memory.step options files action = some (memory', files')) :
    memory'.Tracks files'.manifest.edits := by
  have moves := Memory.step_moves taken
  refine ⟨?_, Memory.step_picks tracks.picks taken, tracks.work_moves grounded moves,
    fun noError => ?_⟩
  · obtain ⟨same, -⟩ | ⟨edit, caller, -, -, -, stage, appended⟩ := grounded.edits_moves moves
    · rw [same]
      exact tracks.successive
    · have work := tracks.work
      rw [stage] at work
      rw [appended]
      exact tracks.successive.append work.1
  · obtain ⟨noErrorBefore, writes⟩ := moves.of_noError noError
    obtain ⟨front, recorded⟩ := tracks.recorded noErrorBefore
    exact recorded.moves tracks.successive grounded writes moves

end Moves

end LevelDb
