/-
This file proves what every step of `DBImpl` keeps true, and from it what holds in every
state a run from the empty database reaches.

The entries are split by age: there are two sequence numbers such that every entry of the
version is at most the first, every entry of the immutable memtable lies between the two and
every entry of the memtable is above the second. Sequence numbers are therefore unique, which
is what makes the merged input of a compaction strictly sorted.
-/

import LevelDb.LevelShape

namespace LevelDb

variable {α β : Type} [LinearOrder α]

/-! ### The invariant -/

/-- A memtable: sorted, with parsable entries whose sequence numbers lie in `(lower, upper]`. -/
structure MemBetween (lower upper : Nat) (mem : List (Entry α β)) : Prop where
  sorted : Sorted mem
  parses : ∀ entry ∈ mem, entry.Parses
  bounds : ∀ entry ∈ mem, lower < entry.sequence ∧ entry.sequence ≤ upper

theorem MemBetween.tag_le {lower upper : Nat} {mem : List (Entry α β)}
    (between : MemBetween lower upper mem) (fits : upper ≤ kMaxSequenceNumber) :
    ∀ entry ∈ mem, entry.key.tag ≤ packSequenceAndType kMaxSequenceNumber kValueTypeForSeek := by
  intro entry member
  have parses := between.parses entry member
  have bound := (between.bounds entry member).2.trans fits
  simp only [Entry.Parses, InternalKey.typeByte, ValueType.code, Entry.sequence,
    InternalKey.sequence] at parses bound
  simp only [packSequenceAndType, kValueTypeForSeek, ValueType.code]
  omega

theorem memBetween_nil (bound : Nat) : MemBetween bound bound ([] : List (Entry α β)) :=
  ⟨List.Pairwise.nil, fun _ member => absurd member List.not_mem_nil,
    fun _ member => absurd member List.not_mem_nil⟩

theorem MemBetween.insertInto [Inhabited β] {lower upper : Nat} {mem : List (Entry α β)}
    (between : MemBetween lower upper mem) (order : lower ≤ upper) (ops : List (WriteOp α β)) :
    MemBetween lower (upper + ops.length) (insertInto mem (batchEntries (upper + 1) ops)) := by
  have bounds : ∀ entry ∈ batchEntries (upper + 1) ops,
      upper < entry.sequence ∧ entry.sequence ≤ upper + ops.length := by
    intro entry member
    have inBatch := batchEntries_sequence_bounds member
    omega
  refine ⟨insertInto_sorted between.sorted ?_ ?_, ?_, ?_⟩
  · intro other member entry inBatch
    exact sequence_ne_key_ne ((between.bounds other member).2.trans_lt (bounds entry inBatch).1)
  · have consecutive : ((batchEntries (upper + 1) ops).map Entry.sequence).Pairwise (· < ·) := by
      rw [map_sequence_batchEntries]
      exact List.pairwise_lt_range'
    exact (List.pairwise_map.mp consecutive).imp fun less => sequence_ne_key_ne less
  · intro entry member
    rcases mem_insertInto.mp member with old | new
    · exact between.parses entry old
    · exact batchEntries_parses new
  · intro entry member
    rcases mem_insertInto.mp member with old | new
    · have oldBounds := between.bounds entry old
      exact ⟨oldBounds.1, oldBounds.2.trans (Nat.le_add_right _ _)⟩
    · exact ⟨order.trans_lt (bounds entry new).1, (bounds entry new).2⟩

/-- What every step keeps true: the shape of the version, and the split of the entries by
age. -/
structure Db.Aged (db : Db α β) (flushed switched : Nat) : Prop where
  shape : db.version.Shape flushed db.nextFileNumber
  seek : ∀ file level, db.version.fileToCompact = some (file, level) →
    file ∈ db.version.files level
  flushed_le : flushed ≤ switched
  switched_le : switched ≤ db.lastSequence
  last_le : db.lastSequence ≤ kMaxSequenceNumber
  imm : ∀ imm ∈ db.imm, MemBetween flushed switched imm
  mem : MemBetween switched db.lastSequence db.mem

theorem Version.Shape.mono {version : Version α β} {bound next bound' next' : Nat}
    (shape : version.Shape bound next) (boundLe : bound ≤ bound') (nextLe : next ≤ next') :
    version.Shape bound' next' :=
  ⟨shape.sorted, shape.distinct,
    fun level file member => (shape.number_lt level file member).trans_le nextLe,
    fun level file member entry inFile =>
      (shape.sequence_le level file member entry inFile).trans boundLe⟩

theorem Version.empty_shape (next : Nat) : (Version.empty : Version α β).Shape 0 next := by
  have noFile : ∀ level, ∀ file, file ∉ (Version.empty : Version α β).files level :=
    fun level file => List.not_mem_nil
  refine ⟨⟨?_, fun _ _ => List.Pairwise.nil⟩, ⟨fun _ => List.nodup_nil, ?_, ?_⟩, ?_, ?_⟩
  · exact fun level file member => absurd member (noFile level file)
  · exact fun level _ _ file member => absurd member (noFile level file)
  · exact fun level _ file member => absurd member (noFile level file)
  · exact fun level file member => absurd member (noFile level file)
  · exact fun level file member => absurd member (noFile level file)

theorem Db.empty_aged : (Db.empty : Db α β).Aged 0 0 := by
  refine ⟨Version.empty_shape 4, ?_, le_rfl, le_rfl, Nat.zero_le _, ?_, memBetween_nil 0⟩
  · intro file level impossible
    cases impossible
  · intro imm impossible
    cases impossible

/-! ### What a step does to the version -/

/-- The compaction a step chooses is built on the current version. -/
theorem Db.chosen_chosen {options : Options α β} {db : Db α β} {flushed switched : Nat}
    (aged : db.Aged flushed switched) {action : Action α β} {compaction : Compaction α β}
    (chooses : db.chosen options action = some compaction) :
    compaction.Chosen db.version := by
  cases action with
  | backgroundCompaction =>
    exact pickCompaction_chosen
      (fun level file member => (aged.shape.sorted.valid level file member).smallest_le_largest)
      aged.seek chooses
  | manualCompaction level first last =>
    rw [Db.chosen] at chooses
    split at chooses
    · exact (compactRange_chosen chooses).2
    · cases chooses
  | _ => cases chooses

/-- The ways a step changes the version: not at all, by a flush, by a trivial move or by a
compaction. -/
inductive Db.VersionStep (options : Options α β) (db db' : Db α β) (action : Action α β) : Prop
  | same (files : db'.version.files = db.version.files)
      (next : db.nextFileNumber ≤ db'.nextFileNumber)
  | flush (imm : List (Entry α β)) (isFlush : action = .compactMemTable) (isImm : db.imm = some imm)
      (version : db'.version = db.version.applyEdit
        (writeLevel0Table options (some db.version) db.nextFileNumber imm {}))
      (next : db'.nextFileNumber = db.nextFileNumber + 1)
  | move (compaction : Compaction α β) (chooses : db.chosen options action = some compaction)
      (trivialMove : compaction.isTrivialMove options = true)
      (version : db'.version = db.version.applyEdit compaction.moveEdit)
      (next : db'.nextFileNumber = db.nextFileNumber)
  | compact (compaction : Compaction α β) (chooses : db.chosen options action = some compaction)
      (version : db'.version = db.version.applyEdit (installEdit compaction
        (doCompactionWork options compaction (oldestSnapshot db.snapshots db.lastSequence)
          db.nextFileNumber).1))
      (next : db'.nextFileNumber = (doCompactionWork options compaction
        (oldestSnapshot db.snapshots db.lastSequence) db.nextFileNumber).2)

theorem Db.step_version [Inhabited β] {options : Options α β} {db db' : Db α β}
    {action : Action α β} (taken : db.step options action = some db') :
    db.VersionStep options db' action := by
  cases action with
  | write ops =>
    rw [Db.step, Db.write] at taken
    split at taken
    · cases taken
      exact .same rfl le_rfl
    · cases taken
  | getSnapshot =>
    cases taken
    exact .same rfl le_rfl
  | releaseSnapshot index =>
    cases taken
    exact .same rfl le_rfl
  | switchMemTable =>
    rw [Db.step, Db.switchMemTable] at taken
    split at taken
    · cases taken
      exact .same rfl (Nat.le_succ _)
    · cases taken
  | compactMemTable =>
    obtain ⟨imm, isImm, rfl⟩ := Option.map_eq_some_iff.mp taken
    exact .flush imm rfl isImm rfl rfl
  | chargeSeek level index =>
    rw [Db.step, Db.chargeSeek] at taken
    split at taken
    · obtain ⟨file, _, rfl⟩ := Option.map_eq_some_iff.mp taken
      exact .same rfl le_rfl
    · cases taken
  | backgroundCompaction =>
    obtain ⟨compaction, chooses, result⟩ := Option.map_eq_some_iff.mp taken
    split at result
    · rename_i trivialMove
      subst result
      exact .move compaction chooses trivialMove rfl rfl
    · subst result
      exact .compact compaction chooses rfl rfl
  | manualCompaction level first last =>
    obtain ⟨compaction, chooses, rfl⟩ := Option.map_eq_some_iff.mp taken
    exact .compact compaction chooses rfl rfl

/-! ### Every step keeps the invariant -/

/-- A change of the version alone keeps the split by age. -/
theorem Db.Aged.version {db : Db α β} {flushed switched : Nat} (aged : db.Aged flushed switched)
    {db' : Db α β} (shape : db'.version.Shape flushed db'.nextFileNumber)
    (seek : ∀ file level, db'.version.fileToCompact = some (file, level) →
      file ∈ db'.version.files level)
    (lastSequence : db'.lastSequence = db.lastSequence) (imm : db'.imm = db.imm)
    (mem : db'.mem = db.mem) : db'.Aged flushed switched := by
  refine ⟨shape, seek, aged.flushed_le, ?_, ?_, ?_, ?_⟩
  · rw [lastSequence]
    exact aged.switched_le
  · rw [lastSequence]
    exact aged.last_le
  · rw [imm]
    exact aged.imm
  · rw [lastSequence, mem]
    exact aged.mem

theorem applyEdit_seek (version : Version α β) (edit : VersionEdit α β)
    (file : FileMetaData α β) (level : Nat)
    (charged : (version.applyEdit edit).fileToCompact = some (file, level)) :
    file ∈ (version.applyEdit edit).files level := by
  cases charged

theorem Db.Aged.doCompaction {options : Options α β} {db : Db α β} {flushed switched : Nat}
    (aged : db.Aged flushed switched) {compaction : Compaction α β}
    (chosen : compaction.Chosen db.version) :
    (db.doCompaction options compaction).Aged flushed switched := by
  have shape := aged.shape.compact chosen options (oldestSnapshot db.snapshots db.lastSequence)
  obtain ⟨mem, imm, lastSequence, snapshots, version, compactPointer, nextFileNumber⟩ := db
  exact aged.version shape (applyEdit_seek version (installEdit compaction _)) rfl rfl rfl

/-- Every step keeps the invariant, for a split that may have moved on. -/
theorem Db.Aged.step [Inhabited β] {options : Options α β} {db db' : Db α β}
    {flushed switched : Nat} (aged : db.Aged flushed switched) {action : Action α β}
    (taken : db.step options action = some db') :
    ∃ flushed' switched', db'.Aged flushed' switched' := by
  cases action with
  | write ops =>
    rw [Db.step, Db.write] at taken
    split at taken
    · rename_i fits
      cases taken
      exact ⟨flushed, switched, aged.shape, aged.seek, aged.flushed_le,
        aged.switched_le.trans (Nat.le_add_right _ _), fits, aged.imm,
        aged.mem.insertInto aged.switched_le ops⟩
    · cases taken
  | getSnapshot =>
    cases taken
    exact ⟨flushed, switched, aged.version aged.shape aged.seek rfl rfl rfl⟩
  | releaseSnapshot index =>
    cases taken
    exact ⟨flushed, switched, aged.version aged.shape aged.seek rfl rfl rfl⟩
  | switchMemTable =>
    rw [Db.step, Db.switchMemTable] at taken
    split at taken
    · cases taken
      refine ⟨switched, db.lastSequence, aged.shape.mono aged.flushed_le (Nat.le_succ _), aged.seek,
        aged.switched_le, le_rfl, aged.last_le, ?_, memBetween_nil _⟩
      intro imm isImm
      cases isImm
      exact aged.mem
    · cases taken
  | compactMemTable =>
    obtain ⟨imm, isImm, rfl⟩ := Option.map_eq_some_iff.mp taken
    have between := aged.imm imm isImm
    have fits := aged.switched_le.trans aged.last_le
    refine ⟨switched, switched, ?_, applyEdit_seek _ _, le_rfl, aged.switched_le, aged.last_le, ?_,
      aged.mem⟩
    · exact aged.shape.flush options between.sorted (between.tag_le fits) between.bounds
        aged.flushed_le le_rfl
    · intro other impossible
      cases impossible
  | chargeSeek level index =>
    rw [Db.step, Db.chargeSeek] at taken
    split at taken
    · obtain ⟨file, found, rfl⟩ := Option.map_eq_some_iff.mp taken
      have shape : ({ db.version with fileToCompact := some (file, level) } : Version α β).Shape
          flushed db.nextFileNumber :=
        ⟨⟨aged.shape.sorted.valid, aged.shape.sorted.disjoint⟩,
          ⟨aged.shape.distinct.numbers_nodup, aged.shape.distinct.numbers_ne,
            aged.shape.distinct.keys_ne⟩, aged.shape.number_lt, aged.shape.sequence_le⟩
      refine ⟨flushed, switched, aged.version shape ?_ rfl rfl rfl⟩
      intro charged chargedLevel isCharged
      cases isCharged
      exact List.mem_of_getElem? found
    · cases taken
  | backgroundCompaction =>
    obtain ⟨compaction, chooses, result⟩ := Option.map_eq_some_iff.mp taken
    have chosen := Db.chosen_chosen aged chooses
    split at result
    · rename_i trivialMove
      subst result
      exact ⟨flushed, switched, aged.version (aged.shape.move chosen trivialMove)
        (applyEdit_seek _ _) rfl rfl rfl⟩
    · subst result
      exact ⟨flushed, switched, aged.doCompaction chosen⟩
  | manualCompaction level first last =>
    obtain ⟨compaction, chooses, rfl⟩ := Option.map_eq_some_iff.mp taken
    exact ⟨flushed, switched, aged.doCompaction (Db.chosen_chosen aged chooses)⟩

/-- Every state a run reaches meets the invariant, whatever condition its steps meet. -/
theorem Db.aged_of_reachable [Inhabited β] {options : Options α β}
    {allowed : Db α β → Action α β → Prop} {db : Db α β}
    (reachable : Lib.Reachable (Db.step options) allowed Db.empty db) :
    ∃ flushed switched, db.Aged flushed switched := by
  have kept : ∀ state action state', (∃ flushed switched, state.Aged flushed switched) →
      allowed state action → Db.step options state action = some state' →
      ∃ flushed switched, state'.Aged flushed switched := by
    rintro state action state' ⟨flushed, switched, aged⟩ _ taken
    exact aged.step taken
  refine Lib.Reachable.invariant ?_ kept reachable
  exact ⟨0, 0, Db.empty_aged⟩

/-- In every version a run reaches, the levels from 1 on are sorted and disjoint in internal
key order, every file has its bounds in order, and no file number occurs twice. -/
theorem levels_of_reachable [Inhabited β] (options : Options α β) (db : Db α β)
    (reachable : Lib.Reachable (Db.step options) (fun _ _ => True) Db.empty db) :
    (∀ level, 0 < level → DisjointSorted (db.version.files level)) ∧
      (∀ level, ∀ file ∈ db.version.files level, file.smallest ≤ file.largest) ∧
      (∀ level, ((db.version.files level).map FileMetaData.number).Nodup) ∧
      ∀ level level', level ≠ level' → ∀ file ∈ db.version.files level,
        ∀ other ∈ db.version.files level', file.number ≠ other.number := by
  obtain ⟨flushed, switched, aged⟩ := Db.aged_of_reachable reachable
  exact ⟨aged.shape.sorted.disjoint,
    fun level file member => (aged.shape.sorted.valid level file member).smallest_le_largest,
    aged.shape.distinct.numbers_nodup, aged.shape.distinct.numbers_ne⟩

/-- Options for values that stand for their own size in bytes. -/
def sizedOptions : Options Nat Nat :=
  { maxFileSize := 2 ^ 20
    builderFileSize := fun entries => (entries.map Entry.value).sum
    finishedFileSize := fun entries => (entries.map Entry.value).sum }

theorem levels_of_reachable_flushed :
    ∃ db, Lib.Reachable (Db.step sizedOptions) (fun _ _ => True) Db.empty db ∧
      (db.version.files 2).length = 1 ∧ DisjointSorted (db.version.files 2) := by
  obtain ⟨db, reachable, one⟩ := Lib.exists_of_run
    (show (Lib.run (Db.step sizedOptions) (fun _ _ => True) Db.empty
      [.write [.put 1 7, .put 2 9], .switchMemTable, .compactMemTable]).any
        (fun db => (db.version.files 2).length == 1) = true by decide)
  exact ⟨db, reachable, by simpa using one,
    (levels_of_reachable sizedOptions db reachable).1 2 (by decide)⟩

end LevelDb
