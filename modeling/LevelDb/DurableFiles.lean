/-
This file says what files promise to whom a sync `Write` was acknowledged: whatever a crash leaves of
the manifest, as long as it is at least the synced part, its tables are there, and every acknowledged
batch is in the synced part of a log that will be replayed, or its entries are kept by the manifest.
A crash keeps the promise, and the next `Open` finds the batch.
-/

import LevelDb.AgeOrder
import LevelDb.KeptEntries

namespace LevelDb

variable {α β : Type}

/-! ### The promise -/

/-- The records that a crash keeps in any case. -/
def LogFile.durable (log : LogFile α β) : List (WriteBatch α β) := log.records.take log.synced

/-- The table file is there, complete and synced. -/
def Files.HasTable (files : Files α β) (file : FileMetaData α β) : Prop :=
  file.number ∈ files.tables.numbers ∧ files.tables.file file.number = ⟨file.entries, true⟩

variable [LinearOrder α]

/-- Whatever is kept of the manifest, the log of the number is replayed or the entries are kept. -/
def Files.Covers [Inhabited β] (files : Files α β) (number : Nat) (batch : WriteBatch α β) : Prop :=
  ∀ kept, files.manifest.synced ≤ kept →
    ∀ descriptor, Descriptor.read (files.manifest.edits.take kept) = some descriptor →
      descriptor.logNumber ≤ number ∨
        ∀ entry ∈ batch.entries, Kept (files.manifest.records.take kept) entry

/-- Whatever is kept of the manifest, the entries are kept. -/
def Files.Settles [Inhabited β] (files : Files α β) (batch : WriteBatch α β) : Prop :=
  ∀ kept, files.manifest.synced ≤ kept →
    ∀ entry ∈ batch.entries, Kept (files.manifest.records.take kept) entry

/-- The batch survives every crash. -/
def Files.Finds [Inhabited β] (files : Files α β) (batch : WriteBatch α β) : Prop :=
  ∀ kept, files.manifest.synced ≤ kept →
    ∀ descriptor, Descriptor.read (files.manifest.edits.take kept) = some descriptor →
      (∃ number ∈ files.logs.numbers, descriptor.logNumber ≤ number ∧
        batch ∈ (files.logs.file number).durable) ∨
        ∀ entry ∈ batch.entries, Kept (files.manifest.records.take kept) entry

/-- The tables of whatever is kept of the manifest are there, and it can be read. -/
structure Files.Readable (files : Files α β) : Prop where
  synced_le : files.manifest.synced ≤ files.manifest.records.length
  reads : 0 < files.manifest.synced → ∀ kept, files.manifest.synced ≤ kept →
    (Descriptor.read (files.manifest.edits.take kept)).isSome = true
  tables : ∀ kept, files.manifest.synced ≤ kept →
    ∀ level, ∀ file ∈ (versionOf (files.manifest.edits.take kept)).files level, files.HasTable file

/-- The acknowledged batches survive every crash. -/
structure Files.Durable [Inhabited β] (files : Files α β) (acknowledged : List (WriteBatch α β)) :
    Prop where
  readable : files.Readable
  found : ∀ batch ∈ acknowledged, 0 < files.manifest.synced ∧ files.Finds batch

/-! ### Tables -/

section Tables

variable {files : Files α β} {file : FileMetaData α β} {number : Nat}

omit [LinearOrder α] in
theorem Files.HasTable.putTable (present : files.HasTable file) (differs : file.number ≠ number)
    (entries : List (Entry α β)) (synced : Bool) :
    (files.putTable number entries synced).HasTable file := by
  cases entries with
  | nil => exact present
  | cons first rest =>
    exact ⟨Lib.Shelf.mem_put.mpr (Or.inr present.1),
      (Lib.Shelf.put_file_of_ne _ differs _).trans present.2⟩

omit [LinearOrder α] in
theorem Files.HasTable.removeTable (present : files.HasTable file) (differs : file.number ≠ number) :
    (files.remove number .table).HasTable file :=
  ⟨Lib.Shelf.mem_remove.mpr ⟨differs, present.1⟩, present.2⟩

omit [LinearOrder α] in
/-- The outputs of a compaction are written to other tables. -/
theorem Files.HasTable.putOutputs (present : files.HasTable file) {loop : CompactionState α β}
    (differs : ∀ output ∈ loop.allOutputs, output.number ≠ file.number) :
    (files.putOutputs loop).HasTable file := by
  obtain ⟨finished, building⟩ := List.forall_mem_append.mp differs
  obtain ⟨there, same⟩ := @Lib.Shelf.foldl_put_of_ne _ _ Output.number
    (fun output : Output α β => (⟨output.entries, true⟩ : TableFile α β)) loop.outputs files.tables
      file.number finished
  cases isBuilder : loop.builder with
  | none =>
    have tables : (files.putOutputs loop).tables = loop.outputs.foldl
        (fun tables output => tables.put output.number ⟨output.entries, true⟩) files.tables := by
      rw [Files.putOutputs, isBuilder]
      rfl
    rw [Files.HasTable, tables]
    exact ⟨there present.1, same.trans present.2⟩
  | some output =>
    have tables : (files.putOutputs loop).tables = (loop.outputs.foldl
        (fun tables output => tables.put output.number ⟨output.entries, true⟩) files.tables).put
          output.number ⟨output.entries, false⟩ := by
      rw [Files.putOutputs, isBuilder]
      rfl
    have differs := building output (by rw [isBuilder]; exact List.mem_singleton_self _)
    rw [Files.HasTable, tables, Lib.Shelf.put_file_of_ne _ differs.symm]
    exact ⟨Lib.Shelf.mem_put.mpr (Or.inr (there present.1)), same.trans present.2⟩

omit [LinearOrder α] in
/-- The finished outputs of a compaction are there. -/
theorem hasTable_putOutputs {loop : CompactionState α β}
    (distinct : (loop.allOutputs.map Output.number).Nodup) (options : Options α β) :
    ∀ output ∈ loop.finish.outputs,
      (files.putOutputs loop.finish).HasTable (output.toFile options) := by
  intro output member
  exact @Lib.Shelf.foldl_put_of_mem _ _ Output.number
    (fun output : Output α β => (⟨output.entries, true⟩ : TableFile α β)) loop.finish.outputs
      files.tables distinct output member

end Tables

/-! ### The manifest grows -/

section Grow

variable {files files' : Files α β} {batch : WriteBatch α β} {record : ManifestRecord α β}
  {number : Nat}

omit [LinearOrder α] in
theorem ManifestFile.take_edits_length (manifest : ManifestFile α β) :
    manifest.edits.take manifest.records.length = manifest.edits :=
  List.take_of_length_le (List.length_map _).le

omit [LinearOrder α] in
/-- What can be kept of a manifest after one more record. -/
theorem take_append_record (manifest : ManifestFile α β) (record : ManifestRecord α β) (kept : Nat) :
    ((manifest.append record).records.take kept = manifest.records.take kept ∧
        (manifest.append record).edits.take kept = manifest.edits.take kept) ∨
      ((manifest.append record).records.take kept = manifest.records ++ [record] ∧
        (manifest.append record).edits.take kept = manifest.edits ++ [record.edit]) := by
  have edits : ∀ records : List (ManifestRecord α β),
      (manifest.append record).records.take kept = records →
        (manifest.append record).edits.take kept = records.map ManifestRecord.edit := by
    rintro records rfl
    exact List.map_take.symm
  obtain ⟨same, -⟩ | ⟨same, -⟩ := take_append_singleton manifest.records record kept
  · exact Or.inl ⟨same, (edits _ same).trans List.map_take⟩
  · exact Or.inr ⟨same, (edits _ same).trans List.map_append⟩

/-- A table that was added to the manifest is not one of a new number. -/
theorem NewNumber.ne_of_kept {edits : List (VersionEdit α β)}
    (isNew : NewNumber edits number) {kept level : Nat} {file : FileMetaData α β}
    (inVersion : file ∈ (versionOf (edits.take kept)).files level) : file.number ≠ number := by
  obtain ⟨new, isAdded, rfl⟩ := mem_versionOf inVersion
  exact isNew _ (addedFiles_take_subset _ _ isAdded)

/-- Only files that the manifest does not need have changed. -/
theorem Files.Readable.of_tables (readable : files.Readable)
    (manifest : files'.manifest = files.manifest)
    (tables : ∀ kept, files.manifest.synced ≤ kept → ∀ level,
      ∀ file ∈ (versionOf (files.manifest.edits.take kept)).files level,
        files.HasTable file → files'.HasTable file) : files'.Readable := by
  refine ⟨?_, ?_, fun kept le level file inVersion => ?_⟩
  · rw [manifest]
    exact readable.synced_le
  · rw [manifest]
    exact readable.reads
  · rw [manifest] at le inVersion
    exact tables kept le level file inVersion (readable.tables kept le level file inVersion)

theorem Files.Readable.append (readable : files.Readable) (pos : 0 < files.manifest.synced)
    (successive : Successive files.manifest.edits)
    (follows : record.edit.Follows files.manifest.edits) {logNumber next last : Nat}
    (numbered : record.edit.Numbered logNumber next last)
    (added : ∀ added ∈ record.edit.newFiles, files.HasTable added.2)
    (appended : files'.manifest = files.manifest.append record)
    (tables : files'.tables = files.tables) : files'.Readable := by
  have hasTable : ∀ file, files.HasTable file → files'.HasTable file := by
    intro file present
    rw [Files.HasTable, tables]
    exact present
  have synced : files'.manifest.synced = files.manifest.synced := by rw [appended]; rfl
  refine ⟨?_, fun _ kept le => ?_, fun kept le level file inVersion => ?_⟩
  · rw [synced, appended, ManifestFile.append, List.length_append]
    exact readable.synced_le.trans (Nat.le_add_right _ _)
  · rw [synced] at le
    rw [appended]
    obtain ⟨-, same⟩ | ⟨-, same⟩ := take_append_record files.manifest record kept
    · rw [same]
      exact readable.reads pos kept le
    · rw [same, read_append numbered]
      rfl
  · rw [synced] at le
    rw [appended] at inVersion
    obtain ⟨-, same⟩ | ⟨-, same⟩ := take_append_record files.manifest record kept
    · rw [same] at inVersion
      exact hasTable file (readable.tables kept le level file inVersion)
    · rw [same, successive.versionOf_append follows] at inVersion
      obtain old | ⟨new, isNew, rfl⟩ := mem_applyEdit inVersion
      · have whole := readable.tables _ readable.synced_le level file
        rw [files.manifest.take_edits_length] at whole
        exact hasTable file (whole old)
      · exact hasTable _ (added (level, new) isNew)

theorem Files.Readable.sync (readable : files.Readable)
    (reads : (Descriptor.read files.manifest.edits).isSome = true)
    (synced : files'.manifest = files.manifest.sync) (tables : files'.tables = files.tables) :
    files'.Readable := by
  have enough : ∀ {kept}, files'.manifest.synced ≤ kept → files.manifest.synced ≤ kept := by
    intro kept le
    rw [synced] at le
    exact readable.synced_le.trans le
  have hasTable : ∀ file, files.HasTable file → files'.HasTable file := by
    intro file present
    rw [Files.HasTable, tables]
    exact present
  have edits : files'.manifest.edits = files.manifest.edits := by rw [synced]; rfl
  refine ⟨?_, fun pos kept le => ?_, fun kept le level file inVersion => ?_⟩
  · rw [synced]
    exact le_rfl
  · have whole : files'.manifest.edits.take kept = files.manifest.edits := by
      rw [edits]
      rw [synced] at le
      exact List.take_of_length_le ((List.length_map _).le.trans le)
    rw [whole]
    exact reads
  · rw [edits] at inVersion
    exact hasTable file (readable.tables kept (enough le) level file inVersion)

variable [Inhabited β]

theorem Files.Settles.append (settles : files.Settles batch) (readable : files.Readable)
    (successive : Successive files.manifest.edits)
    (follows : record.edit.Follows files.manifest.edits)
    (carries : record.Carries files.manifest.edits)
    (appended : files'.manifest = files.manifest.append record) : files'.Settles batch := by
  intro kept le entry member
  rw [appended] at le ⊢
  obtain ⟨same, -⟩ | ⟨same, -⟩ := take_append_record files.manifest record kept
  · rw [same]
    exact settles kept le entry member
  · have whole := settles _ readable.synced_le entry member
    rw [List.take_length] at whole
    rw [same]
    exact whole.append successive follows carries

/-- The record names a log from which the batch is replayed, or its entries are kept by then. -/
theorem Files.Covers.append (covers : files.Covers number batch)
    {logNumber next last : Nat} (numbered : record.edit.Numbered logNumber next last)
    (covered : logNumber ≤ number ∨
      ∀ entry ∈ batch.entries, Kept (files.manifest.records ++ [record]) entry)
    (appended : files'.manifest = files.manifest.append record) : files'.Covers number batch := by
  intro kept le descriptor reads
  rw [appended] at le reads ⊢
  obtain ⟨same, sameEdits⟩ | ⟨same, sameEdits⟩ := take_append_record files.manifest record kept
  · rw [sameEdits] at reads
    rw [same]
    exact covers kept le descriptor reads
  · rw [sameEdits, read_append numbered] at reads
    obtain rfl := Option.some.inj reads
    rw [same]
    exact covered

theorem Files.Settles.sync (settles : files.Settles batch) (readable : files.Readable)
    (synced : files'.manifest = files.manifest.sync) : files'.Settles batch := by
  intro kept le entry member
  rw [synced] at le ⊢
  exact settles kept (readable.synced_le.trans le) entry member

theorem Files.Covers.sync (covers : files.Covers number batch) (readable : files.Readable)
    (synced : files'.manifest = files.manifest.sync) : files'.Covers number batch := by
  intro kept le descriptor reads
  rw [synced] at le reads ⊢
  exact covers kept (readable.synced_le.trans le) descriptor reads

theorem Files.Settles.of_manifest (settles : files.Settles batch)
    (manifest : files'.manifest = files.manifest) : files'.Settles batch := by
  rw [Files.Settles, manifest]
  exact settles

theorem Files.Covers.of_manifest (covers : files.Covers number batch)
    (manifest : files'.manifest = files.manifest) : files'.Covers number batch := by
  rw [Files.Covers, manifest]
  exact covers

end Grow

/-! ### Crashes -/

section Crash

variable [Inhabited β] {files : Files α β} {batch : WriteBatch α β}
  {acknowledged : List (WriteBatch α β)}

theorem filter_zipIdx_lt {γ : Type} (list : List γ) (start kept : Nat) :
    ((list.zipIdx start).filter fun pair => decide (pair.2 < start + kept)).map Prod.fst =
      list.take kept := by
  induction list generalizing start kept with
  | nil => exact List.take_nil.symm
  | cons first rest inductionHypothesis =>
    rw [List.zipIdx_cons, List.filter_cons]
    cases kept with
    | zero =>
      have none : ((rest.zipIdx (start + 1)).filter fun pair => decide (pair.2 < start + 0)) = [] :=
        List.filter_eq_nil_iff.mpr fun pair member => by
          have le := List.le_snd_of_mem_zipIdx member
          rw [decide_eq_true_eq]
          omega
      rw [if_neg (by simp), none]
      rfl
    | succ kept =>
      rw [if_pos (by simp), List.map_cons, List.take_succ_cons, ← inductionHypothesis (start + 1) kept,
        Nat.succ_add_eq_add_succ start kept]

theorem keepAt_of_lt {γ : Type} {keeps : Nat → Bool} {kept : Nat}
    (isPrefix : ∀ index, keeps index = decide (index < kept)) (list : List γ) :
    keepAt keeps list = list.take kept := by
  have first := filter_zipIdx_lt list 0 kept
  rw [Nat.zero_add] at first
  rw [keepAt, funext fun pair : γ × Nat => isPrefix pair.2]
  exact first

omit [LinearOrder α] [Inhabited β] in
theorem durable_cut {log : LogFile α β} {keeps : Nat → Bool} {kept : Nat}
    (isPrefix : ∀ index, keeps index = decide (index < kept)) (enough : log.synced ≤ kept) :
    (log.cut keeps).durable = log.durable := by
  rw [LogFile.durable, LogFile.cut, keepAt_of_lt isPrefix, List.take_take, min_eq_left enough]
  rfl

omit [LinearOrder α] [Inhabited β] in
theorem Files.HasTable.crash {file : FileMetaData α β} (hasTable : files.HasTable file)
    (loss : Loss) : (files.crash loss).HasTable file := by
  obtain ⟨there, contents⟩ := hasTable
  refine ⟨there, ?_⟩
  have cut : (files.crash loss).tables.file file.number =
      (files.tables.file file.number).cut (loss.entries file.number) := rfl
  rw [cut, contents]
  rfl

omit [LinearOrder α] [Inhabited β] in
/-- What is kept of the manifest after a crash was kept of it before. -/
theorem crash_take (loss : Loss) (files : Files α β) (kept : Nat) :
    (files.crash loss).manifest.records.take kept =
        files.manifest.records.take (min kept (loss.edits files.current)) ∧
      (files.crash loss).manifest.edits.take kept =
        files.manifest.edits.take (min kept (loss.edits files.current)) := by
  have records : (files.crash loss).manifest.records =
      files.manifest.records.take (loss.edits files.current) := rfl
  have edits : (files.crash loss).manifest.edits =
      files.manifest.edits.take (loss.edits files.current) := edits_cut _ _
  rw [records, edits, List.take_take, List.take_take]
  exact ⟨rfl, rfl⟩

/-- The promise is kept by a crash. -/
theorem Files.Durable.crash (durable : files.Durable acknowledged) (recoverable : files.Recoverable)
    {loss : Loss} (keeps : loss.KeepsSynced files) : (files.crash loss).Durable acknowledged := by
  have synced : (files.crash loss).manifest.synced = files.manifest.synced := rfl
  have enough : ∀ {kept}, files.manifest.synced ≤ kept →
      files.manifest.synced ≤ min kept (loss.edits files.current) := fun le =>
    le_min le (keeps.2 _ recoverable.current)
  refine ⟨⟨?_, fun pos kept le => ?_, fun kept le => ?_⟩, fun batch member => ?_⟩
  · have records : (files.crash loss).manifest.records =
        files.manifest.records.take (loss.edits files.current) := rfl
    rw [records, List.length_take]
    exact le_min (keeps.2 _ recoverable.current) durable.readable.synced_le
  · rw [(crash_take loss files kept).2]
    exact durable.readable.reads pos _ (enough le)
  · rw [(crash_take loss files kept).2]
    exact fun level file inVersion =>
      (durable.readable.tables _ (enough le) level file inVersion).crash loss
  · obtain ⟨pos, found⟩ := durable.found batch member
    refine ⟨pos, fun kept le descriptor reads => ?_⟩
    rw [(crash_take loss files kept).2] at reads
    rw [(crash_take loss files kept).1]
    obtain ⟨number, there, log_le, inLog⟩ | isKept := found _ (enough le) descriptor reads
    · obtain ⟨last, synced_le, isPrefix⟩ := keeps.1 number there
      refine Or.inl ⟨number, there, log_le, ?_⟩
      have cut : (files.crash loss).logs.file number =
          (files.logs.file number).cut (loss.records number) := rfl
      rw [cut, durable_cut isPrefix synced_le]
      exact inLog
    · exact Or.inr isKept

end Crash

/-! ### The next `Open` -/

section Recover

variable [Inhabited β] {files : Files α β} {batch : WriteBatch α β}
  {acknowledged : List (WriteBatch α β)}

/-- The entry is in a table of the version, and the file of the table has it. -/
def Files.Lists (files : Files α β) (version : Version α β) (entry : Entry α β) : Prop :=
  ∃ level, ∃ file ∈ version.files level, file.number ∈ files.tables.numbers ∧
    entry ∈ (files.tables.file file.number).entries

/-- The next `Open` gets to the replay of the logs, and it finds the batch. -/
theorem Files.Durable.recover (durable : files.Durable acknowledged)
    (recoverable : files.Recoverable) (isAcknowledged : batch ∈ acknowledged)
    (reuseLogs reuseManifest : Bool) :
    ∃ opening, files.recover reuseLogs reuseManifest = some opening ∧
      ((∃ number ∈ opening.logs, batch ∈ (files.logs.file number).records) ∨
        ∀ entry ∈ batch.entries, files.Lists opening.memory.db.version entry ∨
          ∃ record ∈ files.manifest.records, entry ∈ record.dropped) := by
  obtain ⟨pos, found⟩ := durable.found batch isAcknowledged
  have synced_le := durable.readable.synced_le
  have readable := durable.readable.reads pos _ synced_le
  have tables := durable.readable.tables _ synced_le
  have finds := found _ synced_le
  rw [files.manifest.take_edits_length] at readable tables finds
  rw [List.take_length] at finds
  obtain ⟨descriptor, reads⟩ := Option.isSome_iff_exists.mp readable
  have isVersion := Descriptor.read_version reads
  refine ⟨Opening.start files descriptor reuseLogs (reuseLogs && reuseManifest), ?_, ?_⟩
  · rw [Files.recover, reads, Option.bind_some, if_pos]
    refine ⟨recoverable.current, fun number member => ?_⟩
    obtain ⟨level, -, inLevel⟩ := List.mem_flatMap.mp (List.mem_toFinset.mp member)
    obtain ⟨file, inVersion, rfl⟩ := List.mem_map.mp inLevel
    rw [isVersion] at inVersion
    exact Finset.mem_union_left _ (Finset.mem_union_left _ (tables level file inVersion).1)
  · obtain ⟨number, there, log_le, inLog⟩ | isKept := finds descriptor reads
    · exact Or.inl ⟨number, mem_logsToReplay.mpr ⟨there, Or.inl log_le⟩,
        List.mem_of_mem_take inLog⟩
    · refine Or.inr fun entry member => ?_
      obtain ⟨level, file, inVersion, inFile⟩ | dropped := isKept entry member
      · obtain ⟨present, contents⟩ := tables level file inVersion
        have inRecovered : file ∈ descriptor.version.files level := by
          rw [isVersion]
          exact inVersion
        refine Or.inl ⟨level, file, inRecovered, present, ?_⟩
        rw [contents]
        exact inFile
      · exact Or.inr dropped

end Recover

end LevelDb
