/-
This file proves that the states a run reaches can be looked up: when no compaction leaves anything
older behind, the memtables and the levels are layers from the newest to the oldest, and so are the
tables of level 0, where a flush takes a greater number than every table before it.
-/

import LevelDb.Get
import LevelDb.TrackedManifest

namespace LevelDb

variable {α β : Type} [LinearOrder α]

/-! ### What a step keeps -/

/-- What every step that leaves nothing older behind keeps true of the database, beside the order
of the levels. -/
structure Db.Stacked (db : Db α β) : Prop where
  ordered : db.Ordered
  picks : db.version.PicksAbove
  bottom : ∀ level, Config.kNumLevels ≤ level → db.version.files level = []
  parses : ∀ entry ∈ db.entries, entry.Parses
  levelZero : ∀ older ∈ db.version.files 0, ∀ newer ∈ db.version.files 0,
    older.number < newer.number → ∀ entry ∈ older.entries, ∀ later ∈ newer.entries,
      entry.sequence < later.sequence

theorem Db.empty_stacked : (Db.empty : Db α β).Stacked where
  ordered := Db.empty_ordered
  picks := ⟨show 0 + 1 < 7 by decide, fun file level isSeek => by cases isSeek⟩
  bottom := fun level _ => rfl
  parses := by
    rintro entry (inMem | ⟨imm, isImm, -⟩ | ⟨level, file, inNone, -⟩)
    · exact absurd inMem List.not_mem_nil
    · cases isImm
    · exact absurd inNone List.not_mem_nil
  levelZero := fun older inNone => absurd inNone List.not_mem_nil

/-- What a compaction makes of the files of the levels: the inputs are gone, and at the level of
the outputs the added files are there. -/
def Compaction.Installs (compaction : Compaction α β) (version version' : Version α β)
    (added : List (FileMetaData α β)) : Prop :=
  ∀ level file, file ∈ version'.files level ↔
    (file ∈ version.files level ∧ ¬ compaction.IsInput level file) ∨
      (level = compaction.level + 1 ∧ ∃ new ∈ added, file = preparedFile new)

section Installs

variable {version : Version α β} {compaction : Compaction α β} {bound next : Nat}

theorem move_installs {options : Options α β} (shape : version.Shape bound next)
    (chosen : compaction.Chosen version) (trivialMove : compaction.isTrivialMove options = true) :
    compaction.Installs version (version.applyEdit compaction.moveEdit) compaction.inputs0 := by
  obtain ⟨input, inputs0, -, newFiles, deletedFiles⟩ := moveEdit_eq trivialMove
  have isInput : compaction.IsInput compaction.level input :=
    Or.inl ⟨rfl, by rw [inputs0]; exact List.mem_singleton.mpr rfl⟩
  intro level file
  rw [inputs0, mem_applyEdit_adds newFiles (List.nodup_singleton _)]
  refine or_congr_left (and_congr_right fun member =>
    not_congr ⟨fun removes => ?_, moveEdit_removes trivialMove⟩)
  have moved := removes.1
  rw [deletedFiles, Finset.mem_singleton, Prod.mk.injEq] at moved
  obtain ⟨rfl, sameNumber⟩ := moved
  exact shape.distinct.eq_of_number (isInput.mem_files chosen) member sameNumber.symm ▸ isInput

theorem compact_installs (shape : version.Shape bound next) (chosen : compaction.Chosen version)
    (options : Options α β) (smallestSnapshot : Nat) :
    compaction.Installs version (version.applyEdit (installEdit compaction
      (doCompactionWork options compaction smallestSnapshot next).1))
      (doCompactionWork options compaction smallestSnapshot next).1 := by
  obtain ⟨outputs, -⟩ := doCompactionWork_spec shape chosen options smallestSnapshot
  have numbers : ((doCompactionWork options compaction smallestSnapshot next).1.map
      FileMetaData.number).Nodup := by
    rw [outputs.numbers_eq]
    exact List.nodup_range'
  intro level file
  rw [mem_applyEdit_adds (installEdit_newFiles _) numbers]
  exact or_congr_left (and_congr_right fun member => not_congr
    (installEdit_removes shape chosen (fun new isNew => (outputs.number_bounds isNew).1) member))

end Installs

section Steps

variable [Inhabited β] {options : Options α β} {db db' : Db α β} {action : Action α β}
  {flushed switched : Nat}

/-- A file of a level after a step was there before, is the table of a flush, or is an output of a
compaction, below the level that was compacted. -/
theorem Db.step_files (aged : db.Aged flushed switched)
    (taken : db.step options action = some db') {level : Nat} {file : FileMetaData α β}
    (member : file ∈ db'.version.files level) :
    file ∈ db.version.files level ∨
      (∃ imm table, db.imm = some imm ∧ buildTable options db.nextFileNumber imm = some table ∧
        level = outputLevel options (some db.version) table ∧ file = preparedFile table) ∨
      ∃ compaction, db.chosen options action = some compaction ∧ level = compaction.level + 1 := by
  cases Db.step_version taken with
  | same files next =>
    rw [files] at member
    exact Or.inl member
  | flush imm _ isImm version next =>
    rw [version] at member
    rcases mem_flush_files.mp member with old | ⟨table, built, isLevel, isFile⟩
    · exact Or.inl old
    · exact Or.inr (Or.inl ⟨imm, table, isImm, built, isLevel, isFile⟩)
  | move compaction chooses trivialMove version next =>
    rw [version] at member
    rcases (move_installs aged.shape (Db.chosen_chosen aged chooses) trivialMove _ _).mp member with
      old | new
    · exact Or.inl old.1
    · exact Or.inr (Or.inr ⟨compaction, chooses, new.1⟩)
  | compact compaction chooses version next =>
    rw [version] at member
    have installs := compact_installs aged.shape (Db.chosen_chosen aged chooses) options
    rcases (installs _ _ _).mp member with old | new
    · exact Or.inl old.1
    · exact Or.inr (Or.inr ⟨compaction, chooses, new.1⟩)

theorem Db.step_picks (picks : db.version.PicksAbove)
    (taken : db.step options action = some db') : db'.version.PicksAbove := by
  cases action with
  | write ops =>
    obtain ⟨-, rfl⟩ := Lib.of_guard taken
    exact picks
  | getSnapshot =>
    cases taken
    exact picks
  | releaseSnapshot index =>
    cases taken
    exact picks
  | switchMemTable =>
    obtain ⟨-, rfl⟩ := Lib.of_guard taken
    exact picks
  | compactMemTable =>
    obtain ⟨imm, -, rfl⟩ := Option.map_eq_some_iff.mp taken
    exact picksAbove_finalize rfl
  | chargeSeek level index =>
    obtain ⟨⟨above, -⟩, charged⟩ := Option.ite_none_right_eq_some.mp taken
    obtain ⟨file, -, rfl⟩ := Option.map_eq_some_iff.mp charged
    refine ⟨picks.size, fun other otherLevel isSeek => ?_⟩
    cases isSeek
    exact above
  | backgroundCompaction =>
    obtain ⟨compaction, -, rfl⟩ := Option.map_eq_some_iff.mp taken
    split
    · exact picksAbove_finalize rfl
    · exact picksAbove_finalize rfl
  | manualCompaction level first last =>
    obtain ⟨compaction, -, rfl⟩ := Option.map_eq_some_iff.mp taken
    exact picksAbove_finalize rfl

theorem Db.Stacked.step (stacked : db.Stacked) (keeps : db.KeepsOlder options action)
    (taken : db.step options action = some db') : db'.Stacked := by
  obtain ⟨flushed, switched, aged⟩ := stacked.ordered.aged
  refine ⟨stacked.ordered.step keeps taken, Db.step_picks stacked.picks taken, ?_, ?_, ?_⟩
  · intro level below
    refine List.eq_nil_iff_forall_not_mem.mpr fun file member => ?_
    rcases Db.step_files aged taken member with old | ⟨_, table, _, _, rfl, _⟩ |
      ⟨compaction, chooses, rfl⟩
    · exact absurd (stacked.bottom level below ▸ old) List.not_mem_nil
    · exact absurd (below.trans (pickLevelForMemTableOutput_le options db.version _ _)) (by decide)
    · exact absurd (stacked.picks.chosen chooses) (not_lt_of_ge below)
  · intro entry member
    rcases Db.step_entries aged taken member with old | ⟨ops, -, new⟩
    · exact stacked.parses entry old
    · exact batchEntries_parses new
  · intro older isOlder newer isNewer less entry inOlder later inNewer
    rcases Db.step_files aged taken isNewer with oldNewer | ⟨imm, table, isImm, built, -, rfl⟩ |
      ⟨compaction, -, impossible⟩
    · rcases Db.step_files aged taken isOlder with oldOlder | ⟨imm, table, _, built, _, rfl⟩ |
        ⟨compaction, _, impossible⟩
      · exact stacked.levelZero older oldOlder newer oldNewer less entry inOlder later inNewer
      · have number : (preparedFile table).number = db.nextFileNumber := (buildTable_number built).1
        rw [number] at less
        exact absurd (aged.shape.number_lt 0 newer oldNewer) (not_lt_of_gt less)
      · cases impossible
    · have inImm : later ∈ imm := (buildTable_number built).2 ▸ inNewer
      have above := ((aged.imm imm isImm).bounds later inImm).1
      rcases Db.step_files aged taken isOlder with oldOlder | ⟨_, other, _, built', _, rfl⟩ |
        ⟨compaction, _, impossible⟩
      · exact (aged.shape.sequence_le 0 older oldOlder entry inOlder).trans_lt above
      · have number : (preparedFile other).number = db.nextFileNumber := (buildTable_number built').1
        have number' : (preparedFile table).number = db.nextFileNumber :=
          (buildTable_number built).1
        rw [number, number'] at less
        exact absurd less (lt_irrefl _)
      · cases impossible
    · cases impossible

/-- Every state is stacked that a run reaches whose compactions leave nothing older behind. -/
theorem Db.stacked_of_reachable
    (reachable : Lib.Reachable (Db.step options) (Db.KeepsOlder options) Db.empty db) :
    db.Stacked := by
  refine Lib.Reachable.invariant ?_ (fun _ _ _ => Db.Stacked.step) reachable
  exact Db.empty_stacked

end Steps

/-- The layers of a stacked database are newer than those after them. -/
theorem Db.Stacked.layered {db : Db α β} (stacked : db.Stacked) : db.Layered := by
  obtain ⟨flushed, switched, aged⟩ := stacked.ordered.aged
  have upToFlushed : ∀ level, ∀ entry ∈ db.version.levelEntries level,
      entry.sequence ≤ flushed := by
    rintro level entry ⟨file, inFiles, inFile⟩
    exact aged.shape.sequence_le level file inFiles entry inFile
  exact
    { mem_sorted := aged.mem.sorted
      imm_sorted := fun imm isImm => (aged.imm imm isImm).sorted
      version_sorted := aged.shape.sorted
      numLevels := stacked.bottom
      numbers := aged.shape.distinct.numbers_nodup 0
      parses := stacked.parses
      unique := fun first inFirst second inSecond _ same =>
        stacked.ordered.unique inFirst inSecond same
      mem_newer_imm := fun imm isImm entry inMem older inImm _ =>
        ((aged.imm imm isImm).bounds older inImm).2.trans_lt (aged.mem.bounds entry inMem).1
      mem_newer := fun level entry inMem older inLevel _ =>
        ((upToFlushed level older inLevel).trans aged.flushed_le).trans_lt
          (aged.mem.bounds entry inMem).1
      imm_newer := fun imm isImm level entry inImm older inLevel _ =>
        (upToFlushed level older inLevel).trans_lt ((aged.imm imm isImm).bounds entry inImm).1
      newestFirst := fun newer isNewer older isOlder less entry inNewer other inOlder _ =>
        stacked.levelZero older isOlder newer isNewer less other inOlder entry inNewer
      recent := stacked.ordered.recent }

end LevelDb
