/-
This file proves that `Recover` rebuilds what `LogAndApply` keeps in memory. A manifest holds the
encoded edits of a list, the first of them a snapshot; reading it back gives the files of the
current version, the compaction pointers and the log numbers.

The relation between a version set and its directory is `Recorded`; every successful `LogAndApply`
extends the recorded list by its edit.
-/

import LevelDb.VersionSet

namespace LevelDb

variable {β : Type}

/-! ### Edits that can be stored -/

/-- The key can be stored: the tag has 64 bits, and the length 32 bits. -/
structure InternalKey.Fits (key : InternalKey UserKey) : Prop where
  tag : key.tag < 2 ^ 64
  length : key.userKey.bytes.length + 8 < 2 ^ 32

structure FileMetaData.Fits (file : FileMetaData UserKey β) : Prop where
  number : file.number < 2 ^ 64
  fileSize : file.fileSize < 2 ^ 64
  smallest : file.smallest.Fits
  largest : file.largest.Fits

/-- The edit can be stored: its values fit the types they have in the code. -/
structure VersionEdit.Fits (edit : VersionEdit UserKey β) : Prop where
  comparator : ∀ name ∈ edit.comparator, name.length < 2 ^ 32
  logNumber : ∀ number ∈ edit.logNumber, number < 2 ^ 64
  prevLogNumber : ∀ number ∈ edit.prevLogNumber, number < 2 ^ 64
  nextFileNumber : ∀ number ∈ edit.nextFileNumber, number < 2 ^ 64
  lastSequence : ∀ sequence ∈ edit.lastSequence, sequence < 2 ^ 64
  pointers : ∀ pair ∈ edit.compactPointers, pair.1 < Config.kNumLevels ∧ pair.2.Fits
  deletedFiles : ∀ pair ∈ edit.deletedFiles, pair.1 < Config.kNumLevels ∧ pair.2 < 2 ^ 64
  newFiles : ∀ pair ∈ edit.newFiles, pair.1 < Config.kNumLevels ∧ pair.2.Fits

theorem InternalKey.Fits.length_encode {key : InternalKey UserKey} (fits : key.Fits) :
    key.encode.length < 2 ^ 32 := by
  rw [InternalKey.encode, List.length_append, length_encodeFixed64]
  exact fits.length

theorem mem_deletedInOrder {edit : EditRecord} {pair : Nat × Nat} :
    pair ∈ edit.deletedInOrder ↔ pair ∈ edit.deletedFiles := by
  rw [← List.mem_toFinset, EditRecord.toFinset_deletedInOrder]

/-- Every field of the stored edit fits. -/
theorem VersionEdit.Fits.record {edit : VersionEdit UserKey β} (fits : edit.Fits) :
    edit.record.Fits := by
  intro field member
  simp only [EditRecord.fields, List.mem_append, List.mem_map, Option.mem_toList] at member
  rcases member with ⟨name, isName, rfl⟩ | ⟨number, isNumber, rfl⟩ | ⟨number, isNumber, rfl⟩ |
    ⟨number, isNumber, rfl⟩ | ⟨sequence, isSequence, rfl⟩ | ⟨pair, inPointers, rfl⟩ |
    ⟨pair, inDeleted, rfl⟩ | ⟨pair, inNew, rfl⟩
  · exact fits.comparator name isName
  · exact fits.logNumber number isNumber
  · exact fits.prevLogNumber number isNumber
  · exact fits.nextFileNumber number isNumber
  · exact fits.lastSequence sequence isSequence
  · obtain ⟨source, inSource, rfl⟩ := List.mem_map.mp inPointers
    exact ⟨(fits.pointers source inSource).1, (fits.pointers source inSource).2.length_encode⟩
  · exact fits.deletedFiles pair (mem_deletedInOrder.mp inDeleted)
  · obtain ⟨source, inSource, rfl⟩ := List.mem_map.mp inNew
    obtain ⟨level, file⟩ := fits.newFiles source inSource
    exact ⟨level, file.number, file.fileSize, file.smallest.length_encode,
      file.largest.length_encode⟩

/-- A file as it is read back from a manifest. -/
def FileMetaData.reload (tables : Nat → List (Entry UserKey β)) (file : FileMetaData UserKey β) :
    FileMetaData UserKey β :=
  { file with allowedSeeks := 2 ^ 30, entries := tables file.number }

theorem toFile_record {file : FileMetaData UserKey β} (tables : Nat → List (Entry UserKey β))
    (fits : file.Fits) : file.record.toFile tables = file.reload tables := by
  simp only [FileRecord.toFile, FileMetaData.record, FileMetaData.reload,
    InternalKey.decodeFrom_encode fits.smallest.tag, InternalKey.decodeFrom_encode fits.largest.tag]

/-- What is read back of an edit is the edit, with reloaded files. -/
theorem toEdit_record {edit : VersionEdit UserKey β} (fits : edit.Fits)
    (tables : Nat → List (Entry UserKey β)) :
    edit.record.toEdit tables = edit.mapFiles (FileMetaData.reload tables) := by
  have pointers : (edit.compactPointers.map fun pair => (pair.1, pair.2.encode)).map
      (fun pair => (pair.1, InternalKey.decodeFrom pair.2)) = edit.compactPointers := by
    rw [List.map_map]
    refine (List.map_congr_left fun pair member => ?_).trans (List.map_id _)
    rw [Function.comp_apply, InternalKey.decodeFrom_encode (fits.pointers pair member).2.tag]
    rfl
  have files : (edit.newFiles.map fun pair => (pair.1, pair.2.record)).map
      (fun pair => (pair.1, pair.2.toFile tables)) =
        edit.newFiles.map fun pair => (pair.1, pair.2.reload tables) := by
    rw [List.map_map]
    refine List.map_congr_left fun pair member => ?_
    rw [Function.comp_apply, toFile_record tables (fits.newFiles pair member).2]
  simp only [EditRecord.toEdit, VersionEdit.record, VersionEdit.mapFiles, pointers, files]

/-- The record of the manifest for an edit. -/
def VersionEdit.encodeTo (edit : VersionEdit UserKey β) : Bytes := edit.record.encodeTo

/-- The manifest that holds a list of edits. -/
def manifestBytes (logged : List (VersionEdit UserKey β)) : Bytes :=
  Log.layout 0 (Log.recordFragments 0 (logged.map VersionEdit.encodeTo))

/-- Where the next record of that manifest goes. -/
def manifestOffset (logged : List (VersionEdit UserKey β)) : Nat :=
  Log.endOffset 0 (Log.recordFragments 0 (logged.map VersionEdit.encodeTo))

theorem manifestBytes_append (logged : List (VersionEdit UserKey β))
    (edit : VersionEdit UserKey β) :
    manifestBytes (logged ++ [edit]) = manifestBytes logged ++
      Log.layout (manifestOffset logged) (Log.fragments edit.encodeTo (manifestOffset logged)) := by
  rw [manifestBytes, List.map_append, Log.recordFragments_append, Log.layout_append, ← manifestBytes,
    ← manifestOffset, List.map_cons, List.map_nil, Log.recordFragments, Log.recordFragments,
    List.append_nil]

theorem manifestOffset_append (logged : List (VersionEdit UserKey β))
    (edit : VersionEdit UserKey β) :
    manifestOffset (logged ++ [edit]) = Log.endOffset (manifestOffset logged)
      (Log.fragments edit.encodeTo (manifestOffset logged)) := by
  rw [manifestOffset, List.map_append, Log.recordFragments_append, Log.endOffset, List.foldl_append,
    ← Log.endOffset, ← manifestOffset, List.map_cons, List.map_nil, Log.recordFragments,
    Log.recordFragments, List.append_nil]
  rfl

theorem length_le_manifestBytes (logged : List (VersionEdit UserKey β)) :
    logged.length ≤ (manifestBytes logged).length := by
  induction logged using List.reverseRecOn with
  | nil => exact Nat.zero_le _
  | append_singleton logged edit inductionHypothesis =>
    have nonempty := (Log.fragments_carry edit.encodeTo (manifestOffset logged)).length_pos
    have laid := Log.length_le_layout (manifestOffset logged)
      (Log.fragments edit.encodeTo (manifestOffset logged))
    rw [manifestBytes_append, List.length_append, List.length_append, List.length_singleton]
    omega

/-! ### Reading the records -/

section Reading

variable [LinearOrder UserKey]

/-- What the record of an edit does to the variables of `Recover`. -/
def RecoverState.replay (tables : Nat → List (Entry UserKey β)) (state : RecoverState β)
    (edit : VersionEdit UserKey β) : RecoverState β :=
  { logNumber := edit.logNumber.or state.logNumber
    prevLogNumber := edit.prevLogNumber.or state.prevLogNumber
    nextFile := edit.nextFileNumber.or state.nextFile
    lastSequence := edit.lastSequence.or state.lastSequence
    builder := state.builder.apply (edit.mapFiles (FileMetaData.reload tables))
    compactPointer := setPointers state.compactPointer edit.compactPointers }

/-- The edit can be stored, and names no other comparator. -/
structure VersionEdit.Readable (options : VersionSetOptions) (edit : VersionEdit UserKey β) :
    Prop where
  fits : edit.Fits
  comparator : ∀ name ∈ edit.comparator, name = options.comparator

theorem RecoverState.apply_encodeTo {options : VersionSetOptions} {edit : VersionEdit UserKey β}
    (readable : edit.Readable options) (tables : Nat → List (Entry UserKey β))
    (state : RecoverState β) :
    state.apply options tables edit.encodeTo = .ok (state.replay tables edit) := by
  have sameName : edit.comparator.filter (· ≠ options.comparator) = none := by
    rw [Option.filter_eq_none_iff]
    intro name isName
    simpa using readable.comparator name isName
  have comparator : (edit.mapFiles (FileMetaData.reload tables)).comparator = edit.comparator := rfl
  rw [RecoverState.apply, VersionEdit.encodeTo, EditRecord.decodeFrom_encodeTo readable.fits.record]
  simp only [toEdit_record readable.fits, comparator, sameName]
  rfl

/-- The loop of `Recover` replays the edits laid out at the position of the reader. -/
theorem recoverLoop_laid {options : VersionSetOptions} {tables : Nat → List (Entry UserKey β)}
    {reader : Log.Reader} {edits : List (VersionEdit UserKey β)} {tail : Bytes} {offset : Nat}
    (position : reader.At (Log.layout offset
      (Log.recordFragments offset (edits.map VersionEdit.encodeTo)) ++ tail) offset)
    (quiet : reader.reports = []) (readable : ∀ edit ∈ edits, edit.Readable options) (calls : Nat)
    (state : RecoverState β) :
    ∃ reader', recoverLoop options tables (edits.length + calls) reader state =
        recoverLoop options tables calls reader' (edits.foldl (RecoverState.replay tables) state) ∧
      reader'.At tail (Log.endOffset offset
        (Log.recordFragments offset (edits.map VersionEdit.encodeTo))) ∧ reader'.reports = [] := by
  induction edits generalizing reader offset state with
  | nil =>
    refine ⟨reader, ?_, position, quiet⟩
    rw [List.length_nil, Nat.zero_add, List.foldl_nil]
  | cons edit rest inductionHypothesis =>
    rw [List.map_cons, Log.recordFragments, Log.layout_append, List.append_assoc] at position
    obtain ⟨next, returns, nextAt, reports⟩ := position.readRecord_carries
      (Log.fragments_carry edit.encodeTo offset) (Log.fragments_fit edit.encodeTo offset)
    have nextQuiet := reports.trans quiet
    obtain ⟨last, reads, lastAt, lastQuiet⟩ := inductionHypothesis nextAt nextQuiet
      (fun other member => readable other (List.mem_cons_of_mem _ member)) (state.replay tables edit)
    refine ⟨last, ?_, ?_, lastQuiet⟩
    · rw [List.length_cons, Nat.succ_add, recoverLoop, returns]
      simp only [nextQuiet, RecoverState.apply_encodeTo (readable edit List.mem_cons_self)]
      exact reads
    · rw [List.map_cons, Log.recordFragments, Log.endOffset, List.foldl_append]
      exact lastAt

/-- The loop ends when the reader reports the end of the input. -/
theorem recoverLoop_of_none {options : VersionSetOptions} {tables : Nat → List (Entry UserKey β)}
    {reader reader' : Log.Reader} (ends : reader.readRecord = (none, reader'))
    (quiet : reader'.reports = []) (calls : Nat) (state : RecoverState β) :
    recoverLoop options tables (calls + 1) reader state = .ok state := by
  rw [recoverLoop, ends]
  simp only [quiet]

/-- The loop over a manifest replays its edits. -/
theorem recoverLoop_manifest {options : VersionSetOptions}
    (tables : Nat → List (Entry UserKey β)) {logged : List (VersionEdit UserKey β)}
    (readable : ∀ edit ∈ logged, edit.Readable options) (state : RecoverState β) :
    recoverLoop options tables ((manifestBytes logged).length + 1)
        (Log.Reader.new { remaining := manifestBytes logged } true 0) state =
      .ok (logged.foldl (RecoverState.replay tables) state) := by
  have position := Log.Reader.new_at (manifestBytes logged) true
  nth_rewrite 2 [← List.append_nil (manifestBytes logged)] at position
  obtain ⟨more, enough⟩ := Nat.exists_eq_add_of_le (length_le_manifestBytes logged)
  obtain ⟨next, reads, nextAt, quiet⟩ :=
    recoverLoop_laid position rfl readable (more + 1) state
  obtain ⟨last, ends, reports⟩ := nextAt.readRecord_nil
  rw [enough, Nat.add_assoc, reads]
  exact recoverLoop_of_none ends (reports.trans quiet) more _

/-- A record that is cut off by the end of the manifest is not replayed. -/
theorem recoverLoop_manifest_cut {options : VersionSetOptions}
    (tables : Nat → List (Entry UserKey β)) {logged : List (VersionEdit UserKey β)}
    (readable : ∀ edit ∈ logged, edit.Readable options) {record : Bytes} {kept : Nat}
    (cut : kept < (Log.layout (manifestOffset logged)
      (Log.fragments record (manifestOffset logged))).length) {contents : Bytes}
    (isContents : contents = manifestBytes logged ++ (Log.layout (manifestOffset logged)
      (Log.fragments record (manifestOffset logged))).take kept) (state : RecoverState β) :
    recoverLoop options tables (contents.length + 1)
        (Log.Reader.new { remaining := contents } true 0) state =
      .ok (logged.foldl (RecoverState.replay tables) state) := by
  have position := Log.Reader.new_at contents true
  nth_rewrite 2 [isContents] at position
  obtain ⟨more, enough⟩ : ∃ more, contents.length = logged.length + more := by
    refine Nat.exists_eq_add_of_le ((length_le_manifestBytes logged).trans ?_)
    rw [isContents, List.length_append]
    exact Nat.le_add_right _ _
  obtain ⟨next, reads, nextAt, quiet⟩ :=
    recoverLoop_laid position rfl readable (more + 1) state
  obtain ⟨last, ends, reports⟩ := nextAt.readRecord_cut
    (Log.fragments_carry record (manifestOffset logged))
    (Log.fragments_fit record (manifestOffset logged)) cut
  rw [enough, Nat.add_assoc, reads]
  exact recoverLoop_of_none ends (reports.trans quiet) more _

/-! ### What the replayed edits amount to -/

theorem foldl_replay_builder (tables : Nat → List (Entry UserKey β))
    (edits : List (VersionEdit UserKey β)) (state : RecoverState β) :
    (edits.foldl (RecoverState.replay tables) state).builder =
      (edits.map (VersionEdit.mapFiles (FileMetaData.reload tables))).foldl Builder.apply
        state.builder := by
  induction edits generalizing state with
  | nil => rfl
  | cons edit rest inductionHypothesis => exact inductionHypothesis (state.replay tables edit)

/-- The compaction pointers after a list of edits. -/
def foldPointers (pointers : Nat → Option (InternalKey UserKey))
    (edits : List (VersionEdit UserKey β)) : Nat → Option (InternalKey UserKey) :=
  edits.foldl (fun pointers edit => setPointers pointers edit.compactPointers) pointers

theorem foldl_replay_compactPointer (tables : Nat → List (Entry UserKey β))
    (edits : List (VersionEdit UserKey β)) (state : RecoverState β) :
    (edits.foldl (RecoverState.replay tables) state).compactPointer =
      foldPointers state.compactPointer edits := by
  induction edits generalizing state with
  | nil => rfl
  | cons edit rest inductionHypothesis => exact inductionHypothesis (state.replay tables edit)

omit [LinearOrder UserKey] in
theorem addedAt_mapFiles (change : FileMetaData UserKey β → FileMetaData UserKey β)
    (edits : List (VersionEdit UserKey β)) (level : Nat) :
    addedAt (edits.map (VersionEdit.mapFiles change)) level = (addedAt edits level).map change := by
  rw [addedAt, addedAt, List.flatMap_map, List.map_flatMap]
  exact List.flatMap_congr fun edit _ => newFilesAt_mapFiles change edit level

/-- A file as it stands in a recovered version. -/
def FileMetaData.recovered (tables : Nat → List (Entry UserKey β)) (file : FileMetaData UserKey β) :
    FileMetaData UserKey β :=
  preparedFile (file.reload tables)

/-- The files of the version that `Recover` builds from a list of edits. -/
theorem saveTo_replay (tables : Nat → List (Entry UserKey β)) {logged : List (VersionEdit UserKey β)}
    (distinct : ∀ level, ((addedAt logged level).map FileMetaData.number).Nodup) (level : Nat) :
    ((logged.map (VersionEdit.mapFiles (FileMetaData.reload tables))).foldl Builder.apply
        (Builder.new Version.empty)).saveTo.files level =
      ((logged.foldl Version.applyEdit Version.empty).files level).map
        (FileMetaData.recovered tables) := by
  have tidy : (Builder.new (Version.empty : Version UserKey β)).Tidy
      (logged.map (VersionEdit.mapFiles (FileMetaData.reload tables))) := by
    refine ⟨fun _ => List.Pairwise.nil, fun _ => List.Pairwise.nil, fun level => ?_⟩
    have numbers : (addedAt (logged.map (VersionEdit.mapFiles (FileMetaData.reload tables)))
        level).map FileMetaData.number = (addedAt logged level).map FileMetaData.number := by
      rw [addedAt_mapFiles, List.map_map]
      rfl
    refine ⟨?_, fun old impossible => absurd impossible List.not_mem_nil⟩
    show ((addedAt (logged.map (VersionEdit.mapFiles (FileMetaData.reload tables))) level).map
      FileMetaData.number).Nodup
    rw [numbers]
    exact distinct level
  have start : (Builder.new (Version.empty : Version UserKey β)).saveTo.files =
      (Version.empty : Version UserKey β).files := rfl
  rw [saveTo_foldl_apply tidy, foldl_applyEdit_files_congr start]
  exact @foldl_applyEdit_mapFiles UserKey β _ (FileMetaData.recovered tables)
    (FileMetaData.reload tables) (fun _ => rfl) (fun _ => rfl) Version.empty Version.empty
    (fun _ => rfl) logged level

omit [LinearOrder UserKey] in
theorem readCurrent_descriptorFileName {directory : Directory} {number : Nat}
    (current : directory currentFileName = some (descriptorFileName number ++ [10])) :
    readCurrent directory = .ok (descriptorFileName number) := by
  obtain ⟨front, last, isDecimal⟩ := (List.eq_nil_or_concat (decimal number)).resolve_left
    (decimal_ne_nil number)
  rw [List.concat_eq_append] at isDecimal
  have lastDigit := @mem_decimal number last (by
    rw [isDecimal]
    exact List.mem_append_right _ List.mem_cons_self)
  have isName : descriptorFileName number ++ [10] = (manifestPrefix ++ front) ++ [last, 10] := by
    rw [descriptorFileName, isDecimal]
    simp only [List.append_assoc, List.cons_append, List.nil_append]
  have beforeLast : (descriptorFileName number ++ [10])[
      (descriptorFileName number ++ [10]).length - 2]? = some last := by
    rw [isName, List.length_append, List.length_cons, List.length_singleton, Nat.add_sub_cancel,
      List.getElem?_append_right le_rfl, Nat.sub_self]
    rfl
  have notReturn : ¬ (2 ≤ (descriptorFileName number ++ [10]).length ∧
      (descriptorFileName number ++ [10])[(descriptorFileName number ++ [10]).length - 2]? =
        some 13) := by
    rintro ⟨_, isReturn⟩
    rw [Option.some.inj (beforeLast.symm.trans isReturn)] at lastDigit
    exact absurd lastDigit (by decide)
  have newline : (descriptorFileName number ++ [10]).getLast? = some 10 := List.getLast?_concat
  rw [readCurrent, current]
  simp only [newline, true_or, if_true, if_neg notReturn]
  rw [List.length_append, List.length_singleton, Nat.add_sub_cancel, List.take_left]

/-- `Recover` reads the manifest that `CURRENT` names. -/
theorem recover_of_current (options : VersionSetOptions) (tables : Nat → List (Entry UserKey β))
    (versions : VersionSet β) {directory : Directory} {number : Nat} {contents : Bytes}
    (current : directory currentFileName = some (descriptorFileName number ++ [10]))
    (manifest : directory (descriptorFileName number) = some contents) :
    versions.recover options tables directory =
      recoverLoop options tables (contents.length + 1)
          (Log.Reader.new { remaining := contents } true 0)
          { builder := Builder.new versions.current, compactPointer := versions.compactPointer } >>=
        RecoverState.finish options versions (descriptorFileName number) contents := by
  simp only [VersionSet.recover, readCurrent_descriptorFileName current, bind, Except.bind, manifest]

/-- The numbers that the last of a list of edits carries. -/
structure Completes (edit : VersionEdit UserKey β) (logNumber prevLogNumber nextFile lastSequence : Nat) :
    Prop where
  logNumber : edit.logNumber = some logNumber
  prevLogNumber : edit.prevLogNumber = some prevLogNumber
  nextFile : edit.nextFileNumber = some nextFile
  lastSequence : edit.lastSequence = some lastSequence

/-- `Recover` once its loop has replayed the edits of the manifest that `CURRENT` names. -/
theorem recover_of_replayed {options : VersionSetOptions} {tables : Nat → List (Entry UserKey β)}
    {directory : Directory} {number : Nat} {contents : Bytes}
    (current : directory currentFileName = some (descriptorFileName number ++ [10]))
    (manifest : directory (descriptorFileName number) = some contents)
    {logged : List (VersionEdit UserKey β)} {edit : VersionEdit UserKey β}
    {logNumber prevLogNumber nextFile lastSequence : Nat}
    (completes : Completes edit logNumber prevLogNumber nextFile lastSequence)
    (distinct : ∀ level, ((addedAt (logged ++ [edit]) level).map FileMetaData.number).Nodup)
    (reads : recoverLoop options tables (contents.length + 1)
        (Log.Reader.new { remaining := contents } true 0)
        { builder := Builder.new Version.empty, compactPointer := fun _ => none } =
      .ok ((logged ++ [edit]).foldl (RecoverState.replay tables)
        { builder := Builder.new Version.empty, compactPointer := fun _ => none })) :
    ∃ recovered, (VersionSet.new : VersionSet β).recover options tables directory = .ok recovered ∧
      (∀ level, recovered.current.files level =
        (((logged ++ [edit]).foldl Version.applyEdit Version.empty).files level).map
          (FileMetaData.recovered tables)) ∧
      recovered.compactPointer = foldPointers (fun _ => none) (logged ++ [edit]) ∧
      recovered.logNumber = logNumber ∧ recovered.prevLogNumber = prevLogNumber ∧
      recovered.lastSequence = lastSequence ∧ recovered.nextFileNumber = (nextFile + 1) % 2 ^ 64 := by
  obtain ⟨isLog, isPrevLog, isNext, isSequence⟩ := completes
  have replayed : (logged ++ [edit]).foldl (RecoverState.replay tables)
        { builder := Builder.new Version.empty, compactPointer := fun _ => none } =
      { logNumber := some logNumber
        prevLogNumber := some prevLogNumber
        nextFile := some nextFile
        lastSequence := some lastSequence
        builder := ((logged ++ [edit]).map
          (VersionEdit.mapFiles (FileMetaData.reload tables))).foldl Builder.apply
            (Builder.new Version.empty)
        compactPointer := foldPointers (fun _ => none) (logged ++ [edit]) } := by
    have builder := foldl_replay_builder tables (logged ++ [edit])
      { builder := Builder.new Version.empty, compactPointer := fun _ => none }
    have pointers := foldl_replay_compactPointer tables (logged ++ [edit])
      { builder := Builder.new Version.empty, compactPointer := fun _ => none }
    rw [← builder, ← pointers, List.foldl_append, List.foldl_cons, List.foldl_nil]
    simp only [RecoverState.replay, isLog, isPrevLog, isNext, isSequence, Option.some_or]
  rw [replayed] at reads
  have recovers : (VersionSet.new : VersionSet β).recover options tables directory =
      RecoverState.finish options VersionSet.new (descriptorFileName number) contents
        { logNumber := some logNumber
          prevLogNumber := some prevLogNumber
          nextFile := some nextFile
          lastSequence := some lastSequence
          builder := ((logged ++ [edit]).map
            (VersionEdit.mapFiles (FileMetaData.reload tables))).foldl Builder.apply
              (Builder.new Version.empty)
          compactPointer := foldPointers (fun _ => none) (logged ++ [edit]) } := by
    rw [recover_of_current options tables VersionSet.new current manifest]
    exact congrArg (fun result => result >>= RecoverState.finish options VersionSet.new
      (descriptorFileName number) contents) reads
  exact ⟨_, recovers, saveTo_replay tables distinct, rfl, rfl, rfl, rfl, rfl⟩

end Reading

/-! ### The snapshot -/

/-- Setting the pointers of a snapshot one after the other gives the pointers it was made of. -/
theorem setPointers_flatMap_range (pointers : Nat → Option (InternalKey UserKey))
    (count level : Nat) :
    setPointers (fun _ => none) ((List.range count).flatMap fun level =>
      (pointers level).toList.map fun key => (level, key)) level =
        if level < count then pointers level else none := by
  induction count with
  | zero => rfl
  | succ count inductionHypothesis =>
    have step : setPointers (fun _ => none) ((List.range (count + 1)).flatMap fun level =>
        (pointers level).toList.map fun key => (level, key)) =
        setPointers (setPointers (fun _ => none) ((List.range count).flatMap fun level =>
          (pointers level).toList.map fun key => (level, key)))
            ((pointers count).toList.map fun key => (count, key)) := by
      rw [List.range_succ, List.flatMap_append, List.flatMap_singleton, setPointers, setPointers,
        setPointers, List.foldl_append]
    rw [step]
    cases isPointer : pointers count with
    | none =>
      show setPointers (fun _ => none) _ level = _
      rw [inductionHypothesis]
      rcases Nat.lt_trichotomy level count with below | same | above
      · rw [if_pos below, if_pos (Nat.lt_succ_of_lt below)]
      · rw [same, if_neg (Nat.lt_irrefl count), if_pos (Nat.lt_succ_self count), isPointer]
      · rw [if_neg (Nat.not_lt.mpr above.le), if_neg (by omega)]
    | some key =>
      show Function.update (setPointers (fun _ => none) _) count (some key) level = _
      rcases Nat.lt_trichotomy level count with below | same | above
      · rw [Function.update_of_ne below.ne, inductionHypothesis, if_pos below,
          if_pos (Nat.lt_succ_of_lt below)]
      · rw [same, Function.update_self, if_pos (Nat.lt_succ_self count), isPointer]
      · rw [Function.update_of_ne above.ne', inductionHypothesis,
          if_neg (Nat.not_lt.mpr above.le), if_neg (by omega)]

/-- A version as the code can hold it: seven levels, each in the order of the builder. -/
structure Version.Leveled [LinearOrder UserKey] (version : Version UserKey β) : Prop where
  ranked : ∀ level, Ranked (version.files level)
  distinct : ∀ level, ((version.files level).map FileMetaData.number).Nodup
  files : ∀ level, Config.kNumLevels ≤ level → version.files level = []

theorem newFilesAt_snapshot (options : VersionSetOptions) {versions : VersionSet β}
    (files : ∀ level, Config.kNumLevels ≤ level → versions.current.files level = []) (level : Nat) :
    (versions.snapshot options).newFilesAt level = versions.current.files level := by
  refine (filter_flatMap_range versions.current.files Config.kNumLevels level).trans ?_
  split
  · rfl
  · rename_i above
    exact (files level (Nat.not_lt.mp above)).symm

theorem setPointers_snapshot (options : VersionSetOptions) {versions : VersionSet β}
    (pointers : ∀ level, Config.kNumLevels ≤ level → versions.compactPointer level = none) :
    setPointers (fun _ => none) (versions.snapshot options).compactPointers =
      versions.compactPointer := by
  funext level
  refine (setPointers_flatMap_range versions.compactPointer Config.kNumLevels level).trans ?_
  split
  · rfl
  · rename_i above
    exact (pointers level (Nat.not_lt.mp above)).symm

/-- The snapshot of a version set makes its files out of nothing. -/
theorem applyEdit_snapshot [LinearOrder UserKey] (options : VersionSetOptions)
    {versions : VersionSet β} (leveled : versions.current.Leveled) (level : Nat) :
    (Version.empty.applyEdit (versions.snapshot options)).files level =
      (versions.current.files level).map preparedFile := by
  rw [applyEdit_files_eq, newFilesAt_snapshot options leveled.files]
  exact saveLevel_of_ranked (leveled.ranked level) (leveled.distinct level)

/-! ### Version sets and their manifests -/

section Recorded

variable [LinearOrder UserKey]

/-- The manifest that `CURRENT` names holds a list of edits, and they make up the version set. -/
structure VersionSet.Recorded (options : VersionSetOptions) (logged : List (VersionEdit UserKey β))
    (versions : VersionSet β) (directory : Directory) : Prop where
  current : directory currentFileName =
    some (descriptorFileName versions.manifestFileNumber ++ [10])
  manifest : directory (descriptorFileName versions.manifestFileNumber) =
    some (manifestBytes logged)
  writer : ∃ writer, versions.descriptorLog = some writer ∧
    writer.dest.contents = manifestBytes logged ∧ writer.blockOffset = manifestOffset logged
  readable : ∀ edit ∈ logged, edit.Readable options
  distinct : ∀ level, ((addedAt logged level).map FileMetaData.number).Nodup
  files : ∀ level, (logged.foldl Version.applyEdit Version.empty).files level =
    (versions.current.files level).map preparedFile
  last : ∃ front edit nextFile lastSequence, logged = front ++ [edit] ∧
    Completes edit versions.logNumber versions.prevLogNumber nextFile lastSequence

omit [LinearOrder UserKey] in
theorem VersionEdit.mapFiles_id (edit : VersionEdit UserKey β) : edit.mapFiles id = edit := by
  obtain ⟨comparator, logNumber, prevLogNumber, nextFileNumber, lastSequence, compactPointers,
    deletedFiles, newFiles⟩ := edit
  show VersionEdit.mk _ _ _ _ _ _ _ (newFiles.map id) = _
  rw [List.map_id]

/-- One more edit keeps the recorded files in step with the current version. -/
theorem applyEdit_preparedFile {logged : List (VersionEdit UserKey β)}
    {current : Version UserKey β}
    (files : ∀ level, (logged.foldl Version.applyEdit Version.empty).files level =
      (current.files level).map preparedFile) (edit : VersionEdit UserKey β) (level : Nat) :
    ((logged ++ [edit]).foldl Version.applyEdit Version.empty).files level =
      ((current.applyEdit edit).files level).map preparedFile := by
  have mapped := @foldl_applyEdit_mapFiles UserKey β _ preparedFile id (fun _ => rfl)
    (fun _ => rfl) current (logged.foldl Version.applyEdit Version.empty) files [edit] level
  rw [List.map_singleton, VersionEdit.mapFiles_id] at mapped
  rw [List.foldl_append]
  exact mapped

omit [LinearOrder UserKey] in
theorem VersionSet.completes_completeEdit (versions : VersionSet β)
    (edit : VersionEdit UserKey β) :
    Completes (versions.completeEdit edit) (edit.logNumber.getD versions.logNumber)
      (edit.prevLogNumber.getD versions.prevLogNumber) versions.nextFileNumber
      versions.lastSequence :=
  ⟨rfl, rfl, rfl, rfl⟩

omit [LinearOrder UserKey] in
theorem VersionEdit.Readable.reopen {options reopened : VersionSetOptions}
    (same : reopened.comparator = options.comparator) {edit : VersionEdit UserKey β}
    (readable : edit.Readable options) : edit.Readable reopened :=
  ⟨readable.fits, fun name isName => (readable.comparator name isName).trans same.symm⟩

omit [LinearOrder UserKey] in
theorem map_recovered_preparedFile (tables : Nat → List (Entry UserKey β))
    (files : List (FileMetaData UserKey β)) :
    (files.map preparedFile).map (FileMetaData.recovered tables) =
      files.map (FileMetaData.recovered tables) := by
  rw [List.map_map]
  rfl

/-- `Recover` on the directory rebuilds the version and the log numbers. -/
theorem VersionSet.Recorded.recover {options reopened : VersionSetOptions}
    (same : reopened.comparator = options.comparator) {logged : List (VersionEdit UserKey β)}
    {versions : VersionSet β} {directory : Directory}
    (recorded : versions.Recorded options logged directory)
    (tables : Nat → List (Entry UserKey β)) :
    ∃ recovered front edit nextFile lastSequence,
      (VersionSet.new : VersionSet β).recover reopened tables directory = .ok recovered ∧
      logged = front ++ [edit] ∧
      Completes edit versions.logNumber versions.prevLogNumber nextFile lastSequence ∧
      (∀ level, recovered.current.files level =
        (versions.current.files level).map (FileMetaData.recovered tables)) ∧
      recovered.compactPointer = foldPointers (fun _ => none) logged ∧
      recovered.logNumber = versions.logNumber ∧
      recovered.prevLogNumber = versions.prevLogNumber ∧
      recovered.lastSequence = lastSequence ∧ recovered.nextFileNumber = (nextFile + 1) % 2 ^ 64 := by
  obtain ⟨front, edit, nextFile, lastSequence, rfl, completes⟩ := recorded.last
  have reads := @recoverLoop_manifest _ _ reopened tables (front ++ [edit])
    (fun edit member => (recorded.readable edit member).reopen same)
    { builder := Builder.new Version.empty, compactPointer := fun _ => none }
  obtain ⟨recovered, recovers, files, pointers, isLog, isPrevLog, isSequence, isNext⟩ :=
    recover_of_replayed recorded.current recorded.manifest completes recorded.distinct reads
  refine ⟨recovered, front, edit, nextFile, lastSequence, recovers, rfl, completes, fun level => ?_,
    pointers, isLog, isPrevLog, isSequence, isNext⟩
  rw [files, recorded.files, map_recovered_preparedFile]

/-- The appends of a `LogAndApply` on an open manifest miss no byte of a trailer. -/
def VersionSet.Trailers (faults : ManifestFaults) (versions : VersionSet β)
    (edit : VersionEdit UserKey β) : Prop :=
  ∀ writer, versions.descriptorLog = some writer →
    ({ writer with dest := { writer.dest with outcomes := faults.appends } } : Log.Writer).Trailers
      (versions.completeEdit edit).encodeTo

/-- `LogAndApply` on an open manifest: it appends a part of the record of the edit, and all of it
when it succeeds. -/
theorem VersionSet.Recorded.logAndApply_appends {options : VersionSetOptions}
    {logged : List (VersionEdit UserKey β)} {versions : VersionSet β} {directory : Directory}
    (recorded : versions.Recorded options logged directory) {faults : ManifestFaults}
    {edit : VersionEdit UserKey β} (trailers : versions.Trailers faults edit) :
    ∃ writer : Log.Writer, ∃ kept,
      writer.dest.contents = manifestBytes logged ++ (Log.layout (manifestOffset logged)
        (Log.fragments (versions.completeEdit edit).encodeTo (manifestOffset logged))).take kept ∧
      ((versions.logAndApply options faults directory edit).1 = true →
        writer.dest.contents = manifestBytes (logged ++ [versions.completeEdit edit]) ∧
          writer.blockOffset = manifestOffset (logged ++ [versions.completeEdit edit])) ∧
      (versions.logAndApply options faults directory edit).2.2 =
        Function.update directory (descriptorFileName versions.manifestFileNumber)
          (some writer.dest.contents) ∧
      (versions.logAndApply options faults directory edit).2.1 =
        if (versions.logAndApply options faults directory edit).1 then
          (versions.pointTo edit.compactPointers).install (versions.completeEdit edit) writer
        else { versions.pointTo edit.compactPointers with descriptorLog := some writer } := by
  obtain ⟨writer, isWriter, contents, offset⟩ := recorded.writer
  obtain ⟨kept, _, appended, whole⟩ := Log.Writer.addRecord_take (trailers writer isWriter)
  set faulty : Log.Writer :=
    { writer with dest := { writer.dest with outcomes := faults.appends } } with isFaulty
  have sameContents : faulty.dest.contents = manifestBytes logged := contents
  have sameOffset : faulty.blockOffset = manifestOffset logged := offset
  rw [sameContents, sameOffset] at appended
  have logs : versions.logAndApply options faults directory edit =
      let added := faulty.addRecord (versions.completeEdit edit).encodeTo
      let written := Function.update directory (descriptorFileName versions.manifestFileNumber)
        (some added.2.dest.contents)
      let pointed := versions.pointTo edit.compactPointers
      if added.1 && faults.synced then
        (true, pointed.install (versions.completeEdit edit) added.2, written)
      else (false, { pointed with descriptorLog := some added.2 }, written) := by
    have opened : (versions.pointTo (versions.completeEdit edit).compactPointers).openDescriptor
        options faults = (true, faulty) := by
      rw [VersionSet.openDescriptor, VersionSet.pointTo]
      simp only [isWriter, isFaulty]
    rw [VersionSet.logAndApply]
    simp only [VersionSet.addToDescriptor, opened, isWriter, if_true]
    rfl
  refine ⟨(faulty.addRecord (versions.completeEdit edit).encodeTo).2, kept, appended, ?_⟩
  rw [logs]
  simp only
  split
  · rename_i succeeded
    refine ⟨fun _ => ?_, rfl, (if_pos rfl).symm⟩
    have wrote := whole (Bool.and_eq_true_iff.mp succeeded).1
    rw [manifestBytes_append, manifestOffset_append, wrote.contents, wrote.offset, sameContents,
      sameOffset]
    exact ⟨rfl, rfl⟩
  · exact ⟨fun failed => (by cases failed), rfl, rfl⟩

/-- A successful `LogAndApply` on an open manifest records its edit. -/
theorem VersionSet.Recorded.logAndApply {options : VersionSetOptions}
    {logged : List (VersionEdit UserKey β)} {versions versions' : VersionSet β}
    {directory directory' : Directory} (recorded : versions.Recorded options logged directory)
    {faults : ManifestFaults} {edit : VersionEdit UserKey β}
    (trailers : versions.Trailers faults edit)
    (readable : (versions.completeEdit edit).Readable options)
    (once : ∀ level, ((addedAt (logged ++ [versions.completeEdit edit]) level).map
      FileMetaData.number).Nodup)
    (logs : versions.logAndApply options faults directory edit = (true, versions', directory')) :
    versions'.Recorded options (logged ++ [versions.completeEdit edit]) directory' := by
  obtain ⟨writer, kept, _, whole, isDirectory, isVersions⟩ :=
    recorded.logAndApply_appends trailers
  rw [logs] at whole isDirectory isVersions
  obtain ⟨contents, offset⟩ := whole rfl
  rw [if_pos rfl] at isVersions
  have isDirectory : directory' = Function.update directory
    (descriptorFileName versions.manifestFileNumber) (some writer.dest.contents) := isDirectory
  have isVersions : versions' =
    (versions.pointTo edit.compactPointers).install (versions.completeEdit edit) writer := isVersions
  have otherName : currentFileName ≠ descriptorFileName versions.manifestFileNumber :=
    (descriptorFileName_ne_currentFileName _).symm
  rw [isVersions, isDirectory]
  refine ⟨?_, ?_, ⟨writer, rfl, contents, offset⟩, ?_, once, ?_, ?_⟩
  · exact (Function.update_of_ne otherName _ _).trans recorded.current
  · exact (Function.update_self _ _ _).trans (congrArg some contents)
  · intro other member
    rcases List.mem_append.mp member with old | new
    · exact recorded.readable other old
    · rw [List.mem_singleton.mp new]
      exact readable
  · exact applyEdit_preparedFile recorded.files (versions.completeEdit edit)
  · exact ⟨logged, versions.completeEdit edit, _, _, rfl, versions.completes_completeEdit edit⟩

end Recorded

end LevelDb
