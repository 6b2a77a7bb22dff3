/-
This file states what the files of a database promise to the next `Open`, whatever a crash leaves of
them. The records of the logs are in the order of their sequence numbers, within a log and from one
log to the next; and every state that a manifest can be cut down to was a state whose numbers cover
the tables it lists, and whose last sequence covers those tables and the logs it no longer needs.
-/

import LevelDb.DbMoves

namespace LevelDb

variable {α β : Type}

/-! ### Logs -/

/-- The sequence number after those of the batch. -/
def WriteBatch.next (batch : WriteBatch α β) : Nat := batch.sequence + batch.count

/-- The records are well formed and in the order of their sequence numbers. -/
structure LogOrder (logs : Lib.Shelf (LogFile α β)) : Prop where
  pos : ∀ number ∈ logs.numbers, 0 < number
  wellFormed : ∀ number ∈ logs.numbers, ∀ record ∈ (logs.file number).records,
    record.WellFormed ∧ 0 < record.sequence
  within : ∀ number ∈ logs.numbers,
    (logs.file number).records.Pairwise fun record later => record.next ≤ later.sequence
  across : ∀ number ∈ logs.numbers, ∀ other ∈ logs.numbers, number < other →
    ∀ record ∈ (logs.file number).records, ∀ later ∈ (logs.file other).records,
      record.next ≤ later.sequence

/-- The logs with smaller numbers have only sequence numbers up to the bound. -/
def UpTo (logs : Lib.Shelf (LogFile α β)) (limit bound : Nat) : Prop :=
  ∀ number ∈ logs.numbers, number < limit → ∀ record ∈ (logs.file number).records,
    record.next ≤ bound + 1

/-- Logs and records are missing, and nothing else is different. -/
structure Shrinks (logs shrunk : Lib.Shelf (LogFile α β)) : Prop where
  numbers : shrunk.numbers ⊆ logs.numbers
  records : ∀ number ∈ shrunk.numbers,
    (shrunk.file number).records.Sublist (logs.file number).records

section Logs

variable {logs shrunk : Lib.Shelf (LogFile α β)}

theorem LogOrder.shrinks (order : LogOrder logs) (shrinks : Shrinks logs shrunk) :
    LogOrder shrunk := by
  have numbers := fun {number} (member : number ∈ shrunk.numbers) => shrinks.numbers member
  have records := fun {number} (member : number ∈ shrunk.numbers) =>
    (shrinks.records number member).subset
  refine ⟨fun number member => order.pos number (numbers member), ?_, ?_, ?_⟩
  · intro number member record inRecords
    exact order.wellFormed number (numbers member) record (records member inRecords)
  · intro number member
    exact (order.within number (numbers member)).sublist (shrinks.records number member)
  · intro number member other otherMember less record inRecords later inLater
    exact order.across number (numbers member) other (numbers otherMember) less record
      (records member inRecords) later (records otherMember inLater)

theorem UpTo.shrinks {limit bound : Nat} (upTo : UpTo logs limit bound)
    (shrinks : Shrinks logs shrunk) : UpTo shrunk limit bound := by
  intro number member less record inRecords
  exact upTo number (shrinks.numbers member) less record
    ((shrinks.records number member).subset inRecords)

theorem UpTo.mono {limit bound limit' bound' : Nat} (upTo : UpTo logs limit bound)
    (limits : limit' ≤ limit) (bounds : bound ≤ bound') : UpTo logs limit' bound' := by
  intro number member less record inRecords
  exact (upTo number member (less.trans_le limits) record inRecords).trans
    (Nat.succ_le_succ bounds)

theorem keepAt_sublist {γ : Type} (keeps : Nat → Bool) (list : List γ) :
    (keepAt keeps list).Sublist list := by
  have sublist : (keepAt keeps list).Sublist (list.zipIdx.map Prod.fst) :=
    List.filter_sublist.map Prod.fst
  rwa [List.zipIdx_map_fst] at sublist

theorem shrinks_crash (loss : Loss) (files : Files α β) :
    Shrinks files.logs (files.crash loss).logs :=
  ⟨fun _ member => member, fun _ _ => keepAt_sublist _ _⟩

theorem shrinks_remove (logs : Lib.Shelf (LogFile α β)) (number : Nat) :
    Shrinks logs (logs.remove number) :=
  ⟨fun _ member => (Lib.Shelf.mem_remove.mp member).2, fun _ _ => List.Sublist.refl _⟩

theorem shrinks_sync {number : Nat} (member : number ∈ logs.numbers) :
    Shrinks logs (logs.put number (logs.file number).sync) := by
  refine ⟨fun other inNumbers => ?_, ?_⟩
  · rcases Lib.Shelf.mem_put.mp inNumbers with rfl | old
    · exact member
    · exact old
  · have kept := @Lib.Shelf.forall_put _ logs number (logs.file number).sync
      (fun other log => log.records.Sublist (logs.file other).records)
    exact kept (List.Sublist.refl _) fun _ _ _ => List.Sublist.refl _

/-- A new log is the last one. -/
theorem LogOrder.create (order : LogOrder logs) {number : Nat}
    (last : ∀ other ∈ logs.numbers, other < number) (pos : 0 < number) :
    LogOrder (logs.put number LogFile.new) := by
  have old : ∀ other ∈ (logs.put number LogFile.new).numbers, ∀ record ∈
      ((logs.put number LogFile.new).file other).records, other ∈ logs.numbers ∧ other ≠ number ∧
        record ∈ (logs.file other).records := by
    intro other member record inRecords
    by_cases same : other = number
    · rw [same, Lib.Shelf.put_file_self] at inRecords
      cases inRecords
    · rw [Lib.Shelf.put_file_of_ne _ same] at inRecords
      exact ⟨(Lib.Shelf.mem_put.mp member).resolve_left same, same, inRecords⟩
  refine ⟨?_, ?_, ?_, ?_⟩
  · intro other member
    rcases Lib.Shelf.mem_put.mp member with rfl | there
    · exact pos
    · exact order.pos other there
  · intro other member record inRecords
    obtain ⟨there, _, isRecord⟩ := old other member record inRecords
    exact order.wellFormed other there record isRecord
  · have within := @Lib.Shelf.forall_put _ logs number LogFile.new
      (fun _ log => log.records.Pairwise fun record later => record.next ≤ later.sequence)
    exact within List.Pairwise.nil fun other member _ => order.within other member
  · intro first firstMember second secondMember less record inRecords later inLater
    obtain ⟨firstThere, _, isRecord⟩ := old first firstMember record inRecords
    obtain ⟨secondThere, _, isLater⟩ := old second secondMember later inLater
    exact order.across first firstThere second secondThere less record isRecord later isLater

theorem UpTo.create {number limit bound : Nat} (upTo : UpTo logs limit bound) :
    UpTo (logs.put number LogFile.new) limit bound := by
  have created := @Lib.Shelf.forall_put _ logs number LogFile.new
    (fun other log => other < limit → ∀ record ∈ log.records, record.next ≤ bound + 1)
  exact created (fun _ record impossible => absurd impossible List.not_mem_nil)
    fun other member _ => upTo other member

/-- A record that is younger than all others is appended to the last log. -/
theorem LogOrder.append (order : LogOrder logs) {number bound : Nat} {batch : WriteBatch α β}
    (member : number ∈ logs.numbers) (last : ∀ other ∈ logs.numbers, other ≤ number)
    (upTo : UpTo logs (number + 1) bound) (wellFormed : batch.WellFormed)
    (younger : bound < batch.sequence) :
    LogOrder (logs.put number ((logs.file number).append batch)) := by
  have before : ∀ other ∈ logs.numbers, ∀ record ∈ (logs.file other).records,
      record.next ≤ batch.sequence := fun other there record inRecords =>
    (upTo other there (Nat.lt_succ_of_le (last other there)) record inRecords).trans younger
  have there : ∀ other ∈ (logs.put number ((logs.file number).append batch)).numbers,
      other ∈ logs.numbers := by
    intro other inNumbers
    rcases Lib.Shelf.mem_put.mp inNumbers with rfl | old
    · exact member
    · exact old
  refine ⟨fun other inNumbers => order.pos other (there other inNumbers), ?_, ?_, ?_⟩
  · have appended := @Lib.Shelf.forall_put _ logs number ((logs.file number).append batch)
      (fun _ log => ∀ record ∈ log.records, record.WellFormed ∧ 0 < record.sequence)
    refine appended (fun record inRecords => ?_) fun other there _ => order.wellFormed other there
    rcases List.mem_append.mp inRecords with old | new
    · exact order.wellFormed number member record old
    · rw [List.mem_singleton.mp new]
      exact ⟨wellFormed, (Nat.zero_le _).trans_lt younger⟩
  · have appended := @Lib.Shelf.forall_put _ logs number ((logs.file number).append batch)
      (fun _ log => log.records.Pairwise fun record later => record.next ≤ later.sequence)
    refine appended ?_ fun other there _ => order.within other there
    refine List.pairwise_append.mpr ⟨order.within number member, List.pairwise_singleton _ _, ?_⟩
    intro record inRecords later isBatch
    rw [List.mem_singleton.mp isBatch]
    exact before number member record inRecords
  · intro first firstMember second secondMember less record inRecords later inLater
    have firstThere := there first firstMember
    have notLast : first ≠ number :=
      ne_of_lt (less.trans_le (last second (there second secondMember)))
    rw [Lib.Shelf.put_file_of_ne _ notLast] at inRecords
    by_cases same : second = number
    · rw [same, Lib.Shelf.put_file_self] at inLater
      rcases List.mem_append.mp inLater with old | new
      · exact order.across first firstThere number member (same ▸ less) record inRecords later old
      · rw [List.mem_singleton.mp new]
        exact before first firstThere record inRecords
    · rw [Lib.Shelf.put_file_of_ne _ same] at inLater
      exact order.across first firstThere second (there second secondMember) less record inRecords
        later inLater

theorem UpTo.append_below {number limit bound : Nat} {batch : WriteBatch α β}
    (upTo : UpTo logs limit bound) (below : limit ≤ number) :
    UpTo (logs.put number ((logs.file number).append batch)) limit bound := by
  have appended := @Lib.Shelf.forall_put _ logs number ((logs.file number).append batch)
    (fun other log => other < limit → ∀ record ∈ log.records, record.next ≤ bound + 1)
  exact appended (fun less => absurd less (Nat.not_lt.mpr below))
    fun other member _ => upTo other member

theorem UpTo.append {number limit bound bound' : Nat} {batch : WriteBatch α β}
    (member : number ∈ logs.numbers) (below : number < limit) (upTo : UpTo logs limit bound)
    (bounds : bound ≤ bound') (batch_le : batch.next ≤ bound' + 1) :
    UpTo (logs.put number ((logs.file number).append batch)) limit bound' := by
  have wider := upTo.mono le_rfl bounds
  have appended := @Lib.Shelf.forall_put _ logs number ((logs.file number).append batch)
    (fun other log => other < limit → ∀ record ∈ log.records, record.next ≤ bound' + 1)
  refine appended (fun _ record inRecords => ?_) fun other there _ => wider other there
  rcases List.mem_append.mp inRecords with old | new
  · exact wider number member below record old
  · rw [List.mem_singleton.mp new]
    exact batch_le

/-- Between the last log and those before it there is a sequence number, and it is a greatest one. -/
theorem LogOrder.exists_between (order : LogOrder logs) {number bound : Nat}
    (member : number ∈ logs.numbers) (upTo : UpTo logs (number + 1) bound) :
    ∃ between ≤ bound, UpTo logs number between ∧
      (∀ record ∈ (logs.file number).records, between < record.sequence) ∧
      ∀ sequence ≤ bound, (∀ record ∈ (logs.file number).records, sequence < record.sequence) →
        sequence ≤ between := by
  have within := order.within number member
  cases isRecords : (logs.file number).records with
  | nil =>
    exact ⟨bound, le_rfl, upTo.mono (Nat.le_succ _) le_rfl, fun _ impossible =>
      absurd impossible List.not_mem_nil, fun _ le _ => le⟩
  | cons first rest =>
    have isFirst : first ∈ (logs.file number).records := by
      rw [isRecords]
      exact List.mem_cons_self
    have pos := (order.wellFormed number member first isFirst).2
    have first_le := upTo number member (Nat.lt_succ_self _) first isFirst
    rw [isRecords] at within
    refine ⟨first.sequence - 1, ?_, ?_, ?_, fun sequence _ below => ?_⟩
    · rw [WriteBatch.next] at first_le
      omega
    · intro other there less record inRecords
      have before := order.across other there number member less record inRecords first isFirst
      omega
    · intro record inRecords
      rcases List.mem_cons.mp inRecords with rfl | later
      · omega
      · have after := List.rel_of_pairwise_cons within later
        rw [WriteBatch.next] at after
        omega
    · exact Nat.le_sub_one_of_lt (below first List.mem_cons_self)

end Logs

/-! ### Manifests -/

/-- The files that the edits add, with their levels. -/
def addedFiles (edits : List (VersionEdit α β)) : List (Nat × FileMetaData α β) :=
  edits.flatMap VersionEdit.newFiles

theorem lastSet_append (field : VersionEdit α β → Option Nat) (edits : List (VersionEdit α β))
    (edit : VersionEdit α β) :
    lastSet field (edits ++ [edit]) = (field edit).or (lastSet field edits) := by
  rw [lastSet, List.foldl_append]
  rfl

theorem addedFiles_append (edits : List (VersionEdit α β)) (edit : VersionEdit α β) :
    addedFiles (edits ++ [edit]) = addedFiles edits ++ edit.newFiles := by
  rw [addedFiles, List.flatMap_append, List.flatMap_singleton]
  rfl

/-- The edit carries all the numbers. -/
structure VersionEdit.Numbered (edit : VersionEdit α β) (logNumber nextFile lastSequence : Nat) :
    Prop where
  logNumber : edit.logNumber = some logNumber
  prevLogNumber : edit.prevLogNumber = some 0
  nextFile : edit.nextFileNumber = some nextFile
  lastSequence : edit.lastSequence = some lastSequence

/-- The file has a smaller number and no later entry. -/
def FileMetaData.Below (file : FileMetaData α β) (next last : Nat) : Prop :=
  file.number < next ∧ ∀ entry ∈ file.entries, entry.sequence ≤ last

theorem FileMetaData.Below.mono {file : FileMetaData α β} {next last next' last' : Nat}
    (below : file.Below next last) (nexts : next ≤ next') (lasts : last ≤ last') :
    file.Below next' last' :=
  ⟨below.1.trans_le nexts, fun entry member => (below.2 entry member).trans lasts⟩

variable [LinearOrder α]

/-- A file of the version that a builder saves was added by one of the edits. -/
theorem mem_foldl_add {files : List (FileMetaData α β)} {state : LevelState α β}
    {file : FileMetaData α β} (member : file ∈ (files.foldl LevelState.add state).addedFiles) :
    file ∈ state.addedFiles ∨ ∃ new ∈ files, file = preparedFile new := by
  induction files generalizing state with
  | nil => exact Or.inl member
  | cons first rest inductionHypothesis =>
    rcases inductionHypothesis member with old | ⟨new, inRest, isNew⟩
    · rcases Lib.mem_of_mem_setInsert bySmallestKey old with same | older
      · exact Or.inr ⟨first, List.mem_cons_self, same⟩
      · exact Or.inl older
    · exact Or.inr ⟨new, List.mem_cons_of_mem _ inRest, isNew⟩

theorem mem_saveLevel {state : LevelState α β} {base : List (FileMetaData α β)}
    {file : FileMetaData α β} (member : file ∈ saveLevel state base) :
    file ∈ base ∨ file ∈ state.addedFiles := by
  have inMerge := List.mem_of_mem_filter member
  rw [(Lib.mergeInto_perm bySmallestKey state.addedFiles base).mem_iff] at inMerge
  exact List.mem_append.mp inMerge

theorem mem_foldl_apply {edits : List (VersionEdit α β)} {builder : Builder α β} {level : Nat}
    {file : FileMetaData α β}
    (member : file ∈ ((edits.foldl Builder.apply builder).levels level).addedFiles) :
    file ∈ (builder.levels level).addedFiles ∨
      ∃ new, (level, new) ∈ addedFiles edits ∧ file = preparedFile new := by
  induction edits generalizing builder with
  | nil => exact Or.inl member
  | cons edit rest inductionHypothesis =>
    rcases inductionHypothesis member with old | ⟨new, inRest, isNew⟩
    · rcases mem_foldl_add old with older | ⟨new, inEdit, isNew⟩
      · exact Or.inl older
      · exact Or.inr ⟨new, List.mem_append_left _ (mem_newFilesAt.mp inEdit), isNew⟩
    · exact Or.inr ⟨new, List.mem_append_right _ inRest, isNew⟩

theorem foldl_apply_base (edits : List (VersionEdit α β)) (builder : Builder α β) :
    (edits.foldl Builder.apply builder).base = builder.base := by
  induction edits generalizing builder with
  | nil => rfl
  | cons edit rest inductionHypothesis => exact inductionHypothesis (builder.apply edit)

theorem mem_versionOf {edits : List (VersionEdit α β)} {level : Nat} {file : FileMetaData α β}
    (member : file ∈ (versionOf edits).files level) :
    ∃ new, (level, new) ∈ addedFiles edits ∧ file = preparedFile new := by
  rcases mem_saveLevel member with inBase | added
  · rw [foldl_apply_base] at inBase
    cases inBase
  · rcases mem_foldl_apply added with impossible | isAdded
    · cases impossible
    · exact isAdded

/-- A file of the version after an edit was there before or was added by it. -/
theorem mem_applyEdit {version : Version α β} {edit : VersionEdit α β} {level : Nat}
    {file : FileMetaData α β} (member : file ∈ (version.applyEdit edit).files level) :
    file ∈ version.files level ∨ ∃ new, (level, new) ∈ edit.newFiles ∧ file = preparedFile new := by
  rcases mem_saveLevel member with old | added
  · exact Or.inl old
  · rcases mem_foldl_add added with impossible | ⟨new, inEdit, isNew⟩
    · cases impossible
    · exact Or.inr ⟨new, mem_newFilesAt.mp inEdit, isNew⟩

theorem read_nil : Descriptor.read ([] : List (VersionEdit α β)) = none := rfl

/-- What is read after an edit with all the numbers are those numbers. -/
theorem read_append {edits : List (VersionEdit α β)} {edit : VersionEdit α β}
    {logNumber nextFile lastSequence : Nat}
    (numbered : edit.Numbered logNumber nextFile lastSequence) :
    Descriptor.read (edits ++ [edit]) = some
      { logNumber
        prevLogNumber := 0
        nextFile
        lastSequence
        version := versionOf (edits ++ [edit])
        compactPointer := pointersOf (edits ++ [edit]) } := by
  rw [Descriptor.read, lastSet_append, lastSet_append, lastSet_append, lastSet_append,
    numbered.nextFile, numbered.logNumber, numbered.lastSequence, numbered.prevLogNumber]
  rfl

/-- Nothing that the edits add or count goes beyond the counters. -/
structure EditsBelow (edits : List (VersionEdit α β)) (next last : Nat) : Prop where
  added : ∀ added ∈ addedFiles edits, added.2.Below next last
  read : ∀ kept descriptor, Descriptor.read (edits.take kept) = some descriptor →
    descriptor.nextFile ≤ next ∧ descriptor.lastSequence ≤ last

/-- What was read of a manifest covers the tables that were added to it and the logs before the
log number. -/
structure Descriptor.Backed (logs : Lib.Shelf (LogFile α β)) (current : Nat)
    (edits : List (VersionEdit α β)) (descriptor : Descriptor α β) : Prop where
  log_lt : descriptor.logNumber < descriptor.nextFile
  prev : descriptor.prevLogNumber = 0
  current_lt : current < descriptor.nextFile
  below : EditsBelow edits descriptor.nextFile descriptor.lastSequence
  stale : UpTo logs descriptor.logNumber descriptor.lastSequence
  reached : descriptor.logNumber = 0 ∨ ∃ number ∈ logs.numbers, descriptor.logNumber ≤ number

/-- Whatever is kept of the manifest is backed. -/
def ManifestBacked (logs : Lib.Shelf (LogFile α β)) (current : Nat)
    (edits : List (VersionEdit α β)) : Prop :=
  ∀ kept descriptor, Descriptor.read (edits.take kept) = some descriptor →
    descriptor.Backed logs current (edits.take kept)

section Manifest

variable {logs logs' : Lib.Shelf (LogFile α β)} {current : Nat} {edits : List (VersionEdit α β)}
  {next last next' last' : Nat}

theorem EditsBelow.mono (below : EditsBelow edits next last) (nexts : next ≤ next')
    (lasts : last ≤ last') : EditsBelow edits next' last' :=
  ⟨fun added member => (below.added added member).mono nexts lasts, fun kept descriptor reads =>
    ⟨(below.read kept descriptor reads).1.trans nexts,
      (below.read kept descriptor reads).2.trans lasts⟩⟩

theorem take_append_singleton {γ : Type} (list : List γ) (last : γ) (kept : Nat) :
    (list ++ [last]).take kept = list.take kept ∧ kept ≤ list.length ∨
      (list ++ [last]).take kept = list ++ [last] ∧ list.length < kept := by
  rcases Nat.lt_or_ge list.length kept with more | fewer
  · refine Or.inr ⟨List.take_of_length_le ?_, more⟩
    rw [List.length_append]
    exact more
  · exact Or.inl ⟨List.take_append_of_le_length fewer, fewer⟩

/-- What can be read after one more edit with all the numbers. -/
theorem read_take_append {edit : VersionEdit α β} {logNumber nextFile lastSequence kept : Nat}
    {descriptor : Descriptor α β} (numbered : edit.Numbered logNumber nextFile lastSequence)
    (reads : Descriptor.read ((edits ++ [edit]).take kept) = some descriptor) :
    (edits ++ [edit]).take kept = edits.take kept ∧
        Descriptor.read (edits.take kept) = some descriptor ∨
      (edits ++ [edit]).take kept = edits ++ [edit] ∧ descriptor.logNumber = logNumber ∧
        descriptor.prevLogNumber = 0 ∧ descriptor.nextFile = nextFile ∧
        descriptor.lastSequence = lastSequence := by
  rcases take_append_singleton edits edit kept with ⟨same, _⟩ | ⟨same, _⟩
  · rw [same] at reads
    exact Or.inl ⟨same, reads⟩
  · rw [same, read_append numbered] at reads
    obtain rfl := Option.some.inj reads
    exact Or.inr ⟨same, rfl, rfl, rfl, rfl⟩

theorem EditsBelow.append (below : EditsBelow edits next last) {edit : VersionEdit α β}
    {logNumber : Nat} (numbered : edit.Numbered logNumber next last)
    (new : ∀ added ∈ edit.newFiles, added.2.Below next last) :
    EditsBelow (edits ++ [edit]) next last := by
  refine ⟨fun added member => ?_, fun kept descriptor reads => ?_⟩
  · rw [addedFiles_append] at member
    rcases List.mem_append.mp member with old | isNew
    · exact below.added added old
    · exact new added isNew
  · rcases read_take_append numbered reads with ⟨_, old⟩ | ⟨_, _, _, nextFile, lastSequence⟩
    · exact below.read kept descriptor old
    · exact ⟨nextFile.le, lastSequence.le⟩

theorem ManifestBacked.read (backed : ManifestBacked logs current edits)
    {descriptor : Descriptor α β} (reads : Descriptor.read edits = some descriptor) :
    descriptor.Backed logs current edits := by
  have whole := backed edits.length descriptor
  rw [List.take_length] at whole
  exact whole reads

theorem ManifestBacked.take (backed : ManifestBacked logs current edits) (kept : Nat) :
    ManifestBacked logs current (edits.take kept) := by
  intro fewer descriptor reads
  rw [List.take_take] at reads ⊢
  exact backed _ descriptor reads

/-- The logs may change where no descriptor looks. -/
theorem ManifestBacked.of_logs (backed : ManifestBacked logs current edits)
    (stale : ∀ kept descriptor, Descriptor.read (edits.take kept) = some descriptor →
      UpTo logs descriptor.logNumber descriptor.lastSequence →
        UpTo logs' descriptor.logNumber descriptor.lastSequence)
    (reached : ∀ kept descriptor, Descriptor.read (edits.take kept) = some descriptor →
      (∃ number ∈ logs.numbers, descriptor.logNumber ≤ number) →
        ∃ number ∈ logs'.numbers, descriptor.logNumber ≤ number) :
    ManifestBacked logs' current edits := by
  intro kept descriptor reads
  have old := backed kept descriptor reads
  exact ⟨old.log_lt, old.prev, old.current_lt, old.below, stale kept descriptor reads old.stale,
    old.reached.imp_right (reached kept descriptor reads)⟩

/-- One more edit whose numbers cover everything before it. -/
theorem ManifestBacked.append (backed : ManifestBacked logs current edits)
    {edit : VersionEdit α β} {logNumber : Nat} (numbered : edit.Numbered logNumber next last)
    (log_lt : logNumber < next) (current_lt : current < next) (below : EditsBelow edits next last)
    (new : ∀ added ∈ edit.newFiles, added.2.Below next last) (stale : UpTo logs logNumber last)
    (reached : ∃ number ∈ logs.numbers, logNumber ≤ number) :
    ManifestBacked logs current (edits ++ [edit]) := by
  intro kept descriptor reads
  rcases read_take_append numbered reads with ⟨same, old⟩ | ⟨same, isLog, isPrev, isNext, isLast⟩
  · rw [same]
    exact backed kept descriptor old
  · rw [same]
    obtain ⟨_, _, _, _, _, _⟩ := descriptor
    subst isLog isPrev isNext isLast
    exact ⟨log_lt, rfl, current_lt, below.append numbered new, stale, Or.inr reached⟩

end Manifest

/-! ### The directory -/

/-- The next `Open` can rely on the files. -/
structure Files.Recoverable (files : Files α β) : Prop where
  order : LogOrder files.logs
  current : files.current ∈ files.manifests.numbers
  backed : ManifestBacked files.logs files.current files.manifest.edits

omit [LinearOrder α] in
theorem edits_cut (manifest : ManifestFile α β) (kept : Nat) :
    (manifest.cut kept).edits = manifest.edits.take kept := by
  rw [ManifestFile.edits, ManifestFile.cut, List.map_take]
  rfl

theorem Files.Recoverable.crash {files : Files α β} (recoverable : files.Recoverable)
    (loss : Loss) : (files.crash loss).Recoverable := by
  have shrinks := shrinks_crash loss files
  refine ⟨recoverable.order.shrinks shrinks, recoverable.current, ?_⟩
  have cut : (files.crash loss).manifest.edits = files.manifest.edits.take (loss.edits _) :=
    edits_cut _ _
  rw [cut]
  exact (recoverable.backed.take _).of_logs (fun _ _ _ stale => stale.shrinks shrinks)
    fun _ _ _ reached => reached

theorem recoverable_created : (Store.created : Store α β).files.Recoverable := by
  have none : ∀ number, number ∉ (Store.created : Store α β).files.logs.numbers :=
    Finset.notMem_empty
  refine ⟨⟨?_, ?_, ?_, ?_⟩, Finset.mem_singleton_self 1, ?_⟩
  · exact fun number member => absurd member (none number)
  · exact fun number member => absurd member (none number)
  · exact fun number member => absurd member (none number)
  · exact fun number member => absurd member (none number)
  · intro kept descriptor reads
    have edits : (Store.created : Store α β).files.manifest.edits = [newDbEdit] := rfl
    rw [edits] at reads ⊢
    rcases kept with _ | kept
    · cases reads
    · rw [List.take_succ_cons, List.take_nil] at reads ⊢
      cases reads
      refine ⟨Nat.zero_lt_two, rfl, Nat.one_lt_two, ⟨?_, ?_⟩, ?_, Or.inl rfl⟩
      · exact fun added member => absurd member List.not_mem_nil
      · intro fewer older reads
        rcases fewer with _ | fewer
        · cases reads
        · rw [List.take_succ_cons, List.take_nil] at reads
          cases reads
          exact ⟨le_rfl, le_rfl⟩
      · exact fun number member => absurd member (none number)

end LevelDb
