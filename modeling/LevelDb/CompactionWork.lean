/-
This file models the main loop of a compaction (`DBImpl::DoCompactionWork` with
`MakeInputIterator`, `IsBaseLevelForKey` and `ShouldStopBefore`): the merged input entries are
visited in order, each is dropped or added to the current output, and outputs are cut by
size or by the number of grandparent bytes they overlap.

The loop is a fold of one step over the merged entries. Which entries are dropped depends on
nothing but the keys seen so far, so the drop decision has its own state and the list of kept
entries its own definition; the outputs are then shown to be a partition of that list.
-/

import LevelDb.Compaction

namespace LevelDb

variable {α β : Type} [LinearOrder α]

/-! ### The merged input -/

/-- The entries a merging iterator over sorted children yields from `SeekToFirst` on: the
least current key first, the earlier child on a tie. -/
def mergingIterator (children : List (List (Entry α β))) : List (Entry α β) :=
  children.foldr (Lib.mergeTwo fun first second => first.key ≤ second.key) []

/-- The entries of a concatenating iterator over the files of one level. -/
def concatenatingIterator (files : List (FileMetaData α β)) : List (Entry α β) :=
  files.flatMap FileMetaData.entries

/-- `MakeInputIterator`: level-0 inputs are merged one by one, the inputs of any other level
are read as one concatenated list. -/
def makeInputIterator (compaction : Compaction α β) : List (Entry α β) :=
  mergingIterator
    ((if compaction.level = 0 then compaction.inputs0.map FileMetaData.entries
      else [concatenatingIterator compaction.inputs0]) ++
      [concatenatingIterator compaction.inputs1])

theorem mergingIterator_cons (child : List (Entry α β)) (rest : List (List (Entry α β))) :
    mergingIterator (child :: rest) =
      child.merge (mergingIterator rest) fun first second => first.key ≤ second.key :=
  Lib.mergeTwo_eq _ child (mergingIterator rest)

theorem mergingIterator_perm (children : List (List (Entry α β))) :
    (mergingIterator children).Perm children.flatten := by
  induction children with
  | nil => exact List.Perm.refl _
  | cons child rest inductionHypothesis =>
    rw [List.flatten_cons, mergingIterator_cons]
    exact (List.merge_perm_append _).trans (inductionHypothesis.append_left child)

theorem mergingIterator_pairwise_le {children : List (List (Entry α β))}
    (sorted : ∀ child ∈ children, Sorted child) :
    (mergingIterator children).Pairwise fun first second => first.key ≤ second.key := by
  induction children with
  | nil => exact List.Pairwise.nil
  | cons child rest inductionHypothesis =>
    have restSorted := inductionHypothesis fun other member =>
      sorted other (List.mem_cons_of_mem _ member)
    have childSorted := (sorted child List.mem_cons_self).imp fun less => le_of_lt less
    have merged : (child.merge (mergingIterator rest)
        fun first second => decide (first.key ≤ second.key)).Pairwise
        fun first second => decide (first.key ≤ second.key) = true :=
      List.pairwise_merge (fun first second third => by simpa using le_trans)
        (fun first second => by simpa using le_total first.key second.key)
        child (mergingIterator rest) (by simpa using childSorted) (by simpa using restSorted)
    rw [mergingIterator_cons]
    exact merged.imp fun less => by simpa using less

/-- Merging sorted children whose keys are all different gives a sorted list. -/
theorem mergingIterator_sorted {children : List (List (Entry α β))}
    (sorted : ∀ child ∈ children, Sorted child)
    (distinct : children.flatten.Pairwise fun first second => first.key ≠ second.key) :
    Sorted (mergingIterator children) := by
  have different : (mergingIterator children).Pairwise fun first second => first.key ≠ second.key :=
    ((mergingIterator_perm children).pairwise_iff fun ne => Ne.symm ne).mpr distinct
  exact (mergingIterator_pairwise_le sorted).and different |>.imp
    fun both => lt_of_le_of_ne both.1 both.2

theorem makeInputIterator_perm (compaction : Compaction α β) :
    (makeInputIterator compaction).Perm
      ((compaction.inputs0 ++ compaction.inputs1).flatMap FileMetaData.entries) := by
  refine (mergingIterator_perm _).trans (List.Perm.of_eq ?_)
  rw [List.flatten_append, List.flatMap_append, List.flatten_singleton]
  congr 1
  split
  · exact List.flatMap_def.symm
  · exact List.flatten_singleton

theorem mem_makeInputIterator {compaction : Compaction α β} {entry : Entry α β} :
    entry ∈ makeInputIterator compaction ↔
      ∃ file, (file ∈ compaction.inputs0 ∨ file ∈ compaction.inputs1) ∧ entry ∈ file.entries := by
  rw [(makeInputIterator_perm compaction).mem_iff, List.mem_flatMap]
  simp only [List.mem_append]

/-- No file number and no internal key occurs in two files of the version. -/
structure Version.Distinct (version : Version α β) : Prop where
  numbers_nodup : ∀ level, ((version.files level).map FileMetaData.number).Nodup
  numbers_ne : ∀ level level', level ≠ level' → ∀ file ∈ version.files level,
    ∀ other ∈ version.files level', file.number ≠ other.number
  keys_ne : ∀ level level', ∀ file ∈ version.files level, ∀ other ∈ version.files level',
    file.number ≠ other.number → ∀ entry ∈ file.entries, ∀ entry' ∈ other.entries,
      entry.key ≠ entry'.key

theorem concatenatingIterator_sorted {files : List (FileMetaData α β)}
    (valid : ∀ file ∈ files, file.Valid) (disjoint : DisjointSorted files) :
    Sorted (concatenatingIterator files) := by
  refine List.pairwise_flatMap.mpr ⟨fun file member => (valid file member).sorted, ?_⟩
  refine disjoint.imp_of_mem fun firstMember secondMember less entry inFirst other inSecond => ?_
  exact ((valid _ firstMember).le_largest entry inFirst).trans_lt
    (less.trans_le ((valid _ secondMember).smallest_le other inSecond))

theorem Compaction.Chosen.inputs1_sublist {version : Version α β} {compaction : Compaction α β}
    (chosen : compaction.Chosen version) :
    compaction.inputs1.Sublist (version.files (compaction.level + 1)) := by
  obtain ⟨range, _, equal⟩ := chosen.inputs1_eq
  rw [equal]
  exact List.filter_sublist

/-- The merged input of a chosen compaction is sorted. -/
theorem makeInputIterator_sorted {version : Version α β} (sorted : version.Sorted)
    (distinct : version.Distinct) {compaction : Compaction α β}
    (chosen : compaction.Chosen version) : Sorted (makeInputIterator compaction) := by
  have valid0 : ∀ file ∈ compaction.inputs0, file.Valid := fun file member =>
    sorted.valid _ file (chosen.inputs0_sublist.subset member)
  have valid1 : ∀ file ∈ compaction.inputs1, file.Valid := fun file member =>
    sorted.valid _ file (chosen.inputs1_sublist.subset member)
  have disjoint1 : DisjointSorted compaction.inputs1 :=
    (sorted.disjoint _ (Nat.succ_pos _)).sublist chosen.inputs1_sublist
  have numbers : (compaction.inputs0 ++ compaction.inputs1).Pairwise
      fun first second => first.number ≠ second.number := by
    refine List.pairwise_append.mpr ⟨?_, ?_, fun file member other otherMember => ?_⟩
    · exact (List.pairwise_map.mp (distinct.numbers_nodup compaction.level)).sublist
        chosen.inputs0_sublist
    · exact (List.pairwise_map.mp (distinct.numbers_nodup (compaction.level + 1))).sublist
        chosen.inputs1_sublist
    · exact distinct.numbers_ne _ _ (Nat.ne_of_lt (Nat.lt_succ_self _)) file
        (chosen.inputs0_sublist.subset member) other (chosen.inputs1_sublist.subset otherMember)
  have level : ∀ file ∈ compaction.inputs0 ++ compaction.inputs1,
      ∃ level, file ∈ version.files level := by
    intro file member
    rcases List.mem_append.mp member with in0 | in1
    · exact ⟨_, chosen.inputs0_sublist.subset in0⟩
    · exact ⟨_, chosen.inputs1_sublist.subset in1⟩
  refine mergingIterator_sorted ?_ ?_
  · intro child member
    rcases List.mem_append.mp member with first | second
    · split at first
      · obtain ⟨file, inInputs, rfl⟩ := List.mem_map.mp first
        exact (valid0 file inInputs).sorted
      · rename_i nonzero
        rw [List.mem_singleton.mp first]
        exact concatenatingIterator_sorted valid0
          ((sorted.disjoint _ (Nat.pos_of_ne_zero nonzero)).sublist chosen.inputs0_sublist)
    · rw [List.mem_singleton.mp second]
      exact concatenatingIterator_sorted valid1 disjoint1
  · have keys : ((compaction.inputs0 ++ compaction.inputs1).flatMap FileMetaData.entries).Pairwise
        fun first second => first.key ≠ second.key := by
      refine List.pairwise_flatMap.mpr ⟨fun file member => ?_, ?_⟩
      · obtain ⟨level, inLevel⟩ := level file member
        exact (sorted.valid level file inLevel).sorted.imp fun less => ne_of_lt less
      · refine numbers.imp_of_mem fun firstMember secondMember different entry inFirst other
          inSecond => ?_
        obtain ⟨firstLevel, inFirstLevel⟩ := level _ firstMember
        obtain ⟨secondLevel, inSecondLevel⟩ := level _ secondMember
        exact distinct.keys_ne firstLevel secondLevel _ inFirstLevel _ inSecondLevel different
          entry inFirst other inSecond
    have perm := (mergingIterator_perm _).symm.trans (makeInputIterator_perm compaction)
    exact (perm.pairwise_iff fun ne => Ne.symm ne).mpr keys

/-! ### `IsBaseLevelForKey` -/

/-- Advance over the files of one level that end before the user key. The result is the new
position and whether the file there contains the user key. -/
def advanceLevel (userKey : α) : List (FileMetaData α β) → Nat → Nat × Bool
  | [], position => (position, false)
  | file :: rest, position =>
    if userKey ≤ file.largest.userKey then (position, decide (file.smallest.userKey ≤ userKey))
    else advanceLevel userKey rest (position + 1)

/-- The loop over the levels; it stops at the first level with a file that contains the
user key. -/
def baseLevelLoop (version : Version α β) (userKey : α) :
    List Nat → (Nat → Nat) → (Nat → Nat) × Bool
  | [], levelPtrs => (levelPtrs, true)
  | level :: rest, levelPtrs =>
    let advanced := advanceLevel userKey ((version.files level).drop (levelPtrs level))
      (levelPtrs level)
    let levelPtrs' := Function.update levelPtrs level advanced.1
    if advanced.2 then (levelPtrs', false) else baseLevelLoop version userKey rest levelPtrs'

/-- The levels below the output level of a compaction. -/
def deeperLevels (compaction : Compaction α β) : List Nat :=
  List.range' (compaction.level + 2) (Config.kNumLevels - (compaction.level + 2))

/-- `IsBaseLevelForKey`, with the positions it keeps between calls. -/
def isBaseLevelForKey (compaction : Compaction α β) (userKey : α) (levelPtrs : Nat → Nat) :
    (Nat → Nat) × Bool :=
  baseLevelLoop compaction.inputVersion userKey (deeperLevels compaction) levelPtrs

/-! ### The drop decision -/

/-- What the loop remembers between entries in order to drop hidden ones. -/
structure DropState (α : Type) where
  currentUserKey : Option α
  lastSequenceForKey : Nat
  levelPtrs : Nat → Nat

def DropState.initial : DropState α := ⟨none, kMaxSequenceNumber, fun _ => 0⟩

/-- The drop decision for one key. A key that does not parse is kept and resets the state. -/
def dropDecision (compaction : Compaction α β) (smallestSnapshot : Nat) (state : DropState α)
    (key : InternalKey α) : DropState α × Bool :=
  match parseInternalKey key with
  | none => (⟨none, kMaxSequenceNumber, state.levelPtrs⟩, false)
  | some ikey =>
    let last :=
      if state.currentUserKey = some ikey.userKey then state.lastSequenceForKey
      else kMaxSequenceNumber
    if last ≤ smallestSnapshot then
      (⟨some ikey.userKey, ikey.sequence, state.levelPtrs⟩, true)
    else if ikey.type = .kTypeDeletion ∧ ikey.sequence ≤ smallestSnapshot then
      let base := isBaseLevelForKey compaction ikey.userKey state.levelPtrs
      (⟨some ikey.userKey, ikey.sequence, base.1⟩, base.2)
    else (⟨some ikey.userKey, ikey.sequence, state.levelPtrs⟩, false)

/-- The entries that survive the drop decisions, in input order. -/
def keptEntries (compaction : Compaction α β) (smallestSnapshot : Nat) :
    DropState α → List (Entry α β) → List (Entry α β)
  | _, [] => []
  | state, entry :: rest =>
    let decision := dropDecision compaction smallestSnapshot state entry.key
    if decision.2 then keptEntries compaction smallestSnapshot decision.1 rest
    else entry :: keptEntries compaction smallestSnapshot decision.1 rest

/-! ### `ShouldStopBefore` -/

structure StopState where
  grandparentIndex : Nat
  seenKey : Bool
  overlappedBytes : Nat

def StopState.initial : StopState := ⟨0, false, 0⟩

/-- Pass the grandparents that end before the key, counting their bytes once a key was
seen. -/
def stopLoop (key : InternalKey α) (seenKey : Bool) :
    List (FileMetaData α β) → Nat → Nat → Nat × Nat
  | [], index, bytes => (index, bytes)
  | file :: rest, index, bytes =>
    if file.largest < key then
      stopLoop key seenKey rest (index + 1) (if seenKey then bytes + file.fileSize else bytes)
    else (index, bytes)

def shouldStopBefore (options : Options α β) (compaction : Compaction α β) (state : StopState)
    (key : InternalKey α) : StopState × Bool :=
  let passed := stopLoop key state.seenKey (compaction.grandparents.drop state.grandparentIndex)
    state.grandparentIndex state.overlappedBytes
  if passed.2 > maxGrandParentOverlapBytes options then (⟨passed.1, true, 0⟩, true)
  else (⟨passed.1, true, passed.2⟩, false)

/-! ### The outputs -/

/-- `CompactionState::Output` with the entries added to its table so far. -/
structure Output (α β : Type) where
  number : Nat
  smallest : InternalKey α
  largest : InternalKey α
  entries : List (Entry α β)

/-- `OpenCompactionOutputFile` followed by the first `Add`. -/
def Output.start (number : Nat) (entry : Entry α β) : Output α β :=
  ⟨number, entry.key, entry.key, [entry]⟩

def Output.add (output : Output α β) (entry : Entry α β) : Output α β :=
  { output with largest := entry.key, entries := output.entries ++ [entry] }

/-- The file metadata of a finished output. -/
def Output.toFile (options : Options α β) (output : Output α β) : FileMetaData α β :=
  { number := output.number
    fileSize := options.finishedFileSize output.entries
    allowedSeeks := 2 ^ 30
    smallest := output.smallest
    largest := output.largest
    entries := output.entries }

/-- The state of the loop: finished outputs, the output being built, the file number
counter, and the states of the drop and stop decisions. -/
structure CompactionState (α β : Type) where
  outputs : List (Output α β)
  builder : Option (Output α β)
  nextFileNumber : Nat
  drop : DropState α
  stop : StopState

def CompactionState.initial (nextFileNumber : Nat) : CompactionState α β :=
  ⟨[], none, nextFileNumber, DropState.initial, StopState.initial⟩

/-- `FinishCompactionOutputFile`, when there is an output to finish. -/
def CompactionState.finish (state : CompactionState α β) : CompactionState α β :=
  { state with outputs := state.outputs ++ state.builder.toList, builder := none }

/-- Add a kept entry, opening an output if there is none. -/
def CompactionState.keep (state : CompactionState α β) (entry : Entry α β) :
    CompactionState α β :=
  match state.builder with
  | none =>
    { state with
      builder := some (Output.start state.nextFileNumber entry)
      nextFileNumber := state.nextFileNumber + 1 }
  | some output => { state with builder := some (output.add entry) }

/-- Finish the output when it is big enough. -/
def CompactionState.cut (options : Options α β) (compaction : Compaction α β)
    (state : CompactionState α β) : CompactionState α β :=
  if state.builder.any fun output =>
      maxFileSizeForLevel options compaction.level ≤ options.builderFileSize output.entries then
    state.finish
  else state

/-- One round of the loop of `DoCompactionWork`. -/
def CompactionState.step (options : Options α β) (compaction : Compaction α β)
    (smallestSnapshot : Nat) (state : CompactionState α β) (entry : Entry α β) :
    CompactionState α β :=
  let stop := shouldStopBefore options compaction state.stop entry.key
  let stopped := if stop.2 then state.finish else state
  let decision := dropDecision compaction smallestSnapshot state.drop entry.key
  let decided := { stopped with stop := stop.1, drop := decision.1 }
  if decision.2 then decided else (decided.keep entry).cut options compaction

/-- The loop of `DoCompactionWork` over the given input, with the last output finished. -/
def compactionLoop (options : Options α β) (compaction : Compaction α β) (smallestSnapshot : Nat)
    (nextFileNumber : Nat) (input : List (Entry α β)) : CompactionState α β :=
  (input.foldl (CompactionState.step options compaction smallestSnapshot)
    (CompactionState.initial nextFileNumber)).finish

/-- The smallest snapshot a compaction has to serve: the oldest of the `SnapshotList`, which
is kept in creation order, or the last sequence when there is none. -/
def oldestSnapshot (snapshots : List Nat) (lastSequence : Nat) : Nat :=
  snapshots.head?.getD lastSequence

/-- `DoCompactionWork` up to the installation of its results: the output files and the file
number counter. -/
def doCompactionWork (options : Options α β) (compaction : Compaction α β)
    (smallestSnapshot nextFileNumber : Nat) : List (FileMetaData α β) × Nat :=
  let state := compactionLoop options compaction smallestSnapshot nextFileNumber
    (makeInputIterator compaction)
  (state.outputs.map (Output.toFile options), state.nextFileNumber)

/-- `InstallCompactionResults`: the edit that deletes the inputs and adds the outputs. -/
def installEdit (compaction : Compaction α β) (outputs : List (FileMetaData α β)) :
    VersionEdit α β :=
  outputs.foldl (fun edit file => edit.addFile (compaction.level + 1) file)
    (compaction.addInputDeletions compaction.edit)

/-! ### The outputs partition the kept entries -/

/-- The outputs of a state, the one being built included. -/
def CompactionState.allOutputs (state : CompactionState α β) : List (Output α β) :=
  state.outputs ++ state.builder.toList

/-- The bounds of an output are the keys of its first and last entry. -/
def Output.Built (output : Output α β) : Prop :=
  (∃ first, output.entries.head? = some first ∧ first.key = output.smallest) ∧
    ∃ last, output.entries.getLast? = some last ∧ last.key = output.largest

/-- The outputs are built and hold `kept` in order. -/
structure CompactionState.Fills (kept : List (Entry α β)) (state : CompactionState α β) :
    Prop where
  built : ∀ output ∈ state.allOutputs, output.Built
  entries_eq : state.allOutputs.flatMap Output.entries = kept

/-- The outputs are numbered from `start` on without a gap. -/
structure CompactionState.Numbered (start : Nat) (state : CompactionState α β) : Prop where
  numbers_eq : state.allOutputs.map Output.number = List.range' start state.allOutputs.length
  next_eq : state.nextFileNumber = start + state.allOutputs.length

omit [LinearOrder α] in
@[simp] theorem allOutputs_finish (state : CompactionState α β) :
    state.finish.allOutputs = state.allOutputs := by
  simp [CompactionState.allOutputs, CompactionState.finish]

omit [LinearOrder α] in
@[simp] theorem allOutputs_cut (options : Options α β) (compaction : Compaction α β)
    (state : CompactionState α β) :
    (state.cut options compaction).allOutputs = state.allOutputs := by
  unfold CompactionState.cut
  split
  · exact allOutputs_finish state
  · rfl

omit [LinearOrder α] in
@[simp] theorem nextFileNumber_cut (options : Options α β) (compaction : Compaction α β)
    (state : CompactionState α β) :
    (state.cut options compaction).nextFileNumber = state.nextFileNumber := by
  unfold CompactionState.cut
  split <;> rfl

omit [LinearOrder α] in
/-- A kept entry opens an output, with the next file number, or joins the one being built. -/
theorem allOutputs_keep (state : CompactionState α β) (entry : Entry α β) :
    ((state.keep entry).allOutputs =
        state.allOutputs ++ [Output.start state.nextFileNumber entry] ∧
      (state.keep entry).nextFileNumber = state.nextFileNumber + 1) ∨
      ∃ front output, state.allOutputs = front ++ [output] ∧
        (state.keep entry).allOutputs = front ++ [output.add entry] ∧
        (state.keep entry).nextFileNumber = state.nextFileNumber := by
  obtain ⟨outputs, builder, nextFileNumber, drop, stop⟩ := state
  cases builder with
  | none =>
    refine Or.inl ⟨?_, rfl⟩
    simp [CompactionState.allOutputs, CompactionState.keep]
  | some output => exact Or.inr ⟨outputs, output, rfl, rfl, rfl⟩

omit [LinearOrder α] in
theorem Output.Built.add {output : Output α β} (built : output.Built) (entry : Entry α β) :
    (output.add entry).Built := by
  obtain ⟨⟨first, head, smallest⟩, _⟩ := built
  refine ⟨⟨first, ?_, smallest⟩, ⟨entry, ?_, rfl⟩⟩
  · rw [Output.add, List.head?_append, head]
    rfl
  · rw [Output.add, List.getLast?_append]
    rfl

omit [LinearOrder α] in
theorem CompactionState.Fills.keep {kept : List (Entry α β)} {state : CompactionState α β}
    (fills : state.Fills kept) (entry : Entry α β) : (state.keep entry).Fills (kept ++ [entry]) := by
  rcases allOutputs_keep state entry with ⟨opened, _⟩ | ⟨front, output, before, after, _⟩
  · refine ⟨?_, ?_⟩
    · rw [opened]
      intro output member
      rcases List.mem_append.mp member with old | new
      · exact fills.built output old
      · rw [List.mem_singleton.mp new]
        exact ⟨⟨entry, rfl, rfl⟩, ⟨entry, rfl, rfl⟩⟩
    · rw [opened, List.flatMap_append, fills.entries_eq]
      simp [Output.start]
  · have built := fills.built
    have entries := fills.entries_eq
    rw [before] at built entries
    refine ⟨?_, ?_⟩
    · rw [after]
      intro other member
      rcases List.mem_append.mp member with old | new
      · exact built other (List.mem_append_left _ old)
      · rw [List.mem_singleton.mp new]
        exact (built output (List.mem_append_right _ (List.mem_singleton.mpr rfl))).add entry
    · rw [after, ← entries]
      simp [Output.add]

omit [LinearOrder α] in
theorem CompactionState.Numbered.keep {start : Nat} {state : CompactionState α β}
    (numbered : state.Numbered start) (entry : Entry α β) : (state.keep entry).Numbered start := by
  obtain ⟨numbers, next⟩ := numbered
  rcases allOutputs_keep state entry with ⟨opened, number⟩ | ⟨front, output, before, after, number⟩
  · refine ⟨?_, ?_⟩
    · rw [opened, List.map_append, numbers, List.length_append, List.length_singleton,
        List.range'_concat, Nat.one_mul]
      simp [Output.start, next]
    · rw [opened, number, next, List.length_append, List.length_singleton]
      omega
  · rw [before] at numbers next
    refine ⟨?_, ?_⟩
    · rw [after]
      simpa [Output.add] using numbers
    · rw [after, number, next]
      simp

/-- The state before an entry is added: the stop and drop decisions are made and the output
may have been finished. -/
theorem step_eq (state : CompactionState α β) (options : Options α β)
    (compaction : Compaction α β) (smallestSnapshot : Nat) (entry : Entry α β) :
    ∃ decided : CompactionState α β, decided.allOutputs = state.allOutputs ∧
      decided.nextFileNumber = state.nextFileNumber ∧
      decided.drop = (dropDecision compaction smallestSnapshot state.drop entry.key).1 ∧
      state.step options compaction smallestSnapshot entry =
        if (dropDecision compaction smallestSnapshot state.drop entry.key).2 then decided
        else (decided.keep entry).cut options compaction := by
  refine ⟨{(if (shouldStopBefore options compaction state.stop entry.key).2 then
        state.finish else state) with
      stop := (shouldStopBefore options compaction state.stop entry.key).1
      drop := (dropDecision compaction smallestSnapshot state.drop entry.key).1 },
    ?_, ?_, rfl, rfl⟩
  · by_cases stops : (shouldStopBefore options compaction state.stop entry.key).2 = true
    · simp only [stops, if_true]
      exact allOutputs_finish state
    · simp only [stops, Bool.false_eq_true, if_false]
      rfl
  · by_cases stops : (shouldStopBefore options compaction state.stop entry.key).2 = true
    · simp only [stops, if_true]
      rfl
    · simp only [stops, Bool.false_eq_true, if_false]

theorem le_nextFileNumber_step (state : CompactionState α β) (options : Options α β)
    (compaction : Compaction α β) (smallestSnapshot : Nat) (entry : Entry α β) :
    state.nextFileNumber ≤ (state.step options compaction smallestSnapshot entry).nextFileNumber := by
  obtain ⟨decided, _, next, _, equal⟩ := step_eq state options compaction smallestSnapshot entry
  rw [equal, ← next]
  split
  · exact le_rfl
  · rw [nextFileNumber_cut]
    rcases allOutputs_keep decided entry with ⟨_, number⟩ | ⟨_, _, _, _, number⟩
    · rw [number]
      exact Nat.le_succ _
    · rw [number]

/-- One round adds its entry to the outputs exactly when the drop decision keeps it. -/
theorem CompactionState.Fills.step {kept : List (Entry α β)} {state : CompactionState α β}
    (fills : state.Fills kept) (options : Options α β) (compaction : Compaction α β)
    (smallestSnapshot : Nat) (entry : Entry α β) :
    (state.step options compaction smallestSnapshot entry).Fills
      (kept ++ if (dropDecision compaction smallestSnapshot state.drop entry.key).2 then []
        else [entry]) := by
  obtain ⟨decided, outputs, _, _, equal⟩ :=
    step_eq state options compaction smallestSnapshot entry
  have decidedFills : decided.Fills kept :=
    ⟨outputs.symm ▸ fills.built, outputs.symm ▸ fills.entries_eq⟩
  rw [equal]
  split
  · rw [List.append_nil]
    exact decidedFills
  · obtain ⟨built, entries⟩ := decidedFills.keep entry
    rw [← allOutputs_cut options compaction] at built entries
    exact ⟨built, entries⟩

theorem CompactionState.Numbered.step {start : Nat} {state : CompactionState α β}
    (numbered : state.Numbered start) (options : Options α β) (compaction : Compaction α β)
    (smallestSnapshot : Nat) (entry : Entry α β) :
    (state.step options compaction smallestSnapshot entry).Numbered start := by
  obtain ⟨decided, outputs, next, _, equal⟩ :=
    step_eq state options compaction smallestSnapshot entry
  have decidedNumbered : decided.Numbered start := by
    refine ⟨outputs.symm ▸ numbered.numbers_eq, ?_⟩
    rw [next, outputs]
    exact numbered.next_eq
  rw [equal]
  split
  · exact decidedNumbered
  · obtain ⟨numbers, next⟩ := decidedNumbered.keep entry
    rw [← allOutputs_cut options compaction] at numbers next
    exact ⟨numbers, by rw [nextFileNumber_cut, next]⟩

omit [LinearOrder α] in
theorem cut_drop (options : Options α β) (compaction : Compaction α β)
    (state : CompactionState α β) : (state.cut options compaction).drop = state.drop := by
  unfold CompactionState.cut
  split <;> rfl

omit [LinearOrder α] in
theorem keep_drop (state : CompactionState α β) (entry : Entry α β) :
    (state.keep entry).drop = state.drop := by
  unfold CompactionState.keep
  split <;> rfl

theorem step_drop (options : Options α β) (compaction : Compaction α β) (smallestSnapshot : Nat)
    (state : CompactionState α β) (entry : Entry α β) :
    (state.step options compaction smallestSnapshot entry).drop =
      (dropDecision compaction smallestSnapshot state.drop entry.key).1 := by
  obtain ⟨decided, _, _, drop, equal⟩ := step_eq state options compaction smallestSnapshot entry
  rw [equal]
  split
  · exact drop
  · rw [cut_drop, keep_drop, drop]

theorem foldl_step_fills {kept : List (Entry α β)} {state : CompactionState α β}
    (fills : state.Fills kept) (options : Options α β) (compaction : Compaction α β)
    (smallestSnapshot : Nat) (input : List (Entry α β)) :
    (input.foldl (CompactionState.step options compaction smallestSnapshot) state).Fills
      (kept ++ keptEntries compaction smallestSnapshot state.drop input) := by
  induction input generalizing kept state with
  | nil =>
    rw [keptEntries, List.append_nil]
    exact fills
  | cons entry rest inductionHypothesis =>
    have next := inductionHypothesis (fills.step options compaction smallestSnapshot entry)
    rw [step_drop, List.append_assoc] at next
    rw [List.foldl_cons, keptEntries]
    split
    · rename_i dropped
      rw [if_pos dropped, List.nil_append] at next
      exact next
    · rename_i notDropped
      rw [if_neg notDropped, List.singleton_append] at next
      exact next

theorem foldl_step_numbered {start : Nat} {state : CompactionState α β}
    (numbered : state.Numbered start) (options : Options α β) (compaction : Compaction α β)
    (smallestSnapshot : Nat) (input : List (Entry α β)) :
    (input.foldl (CompactionState.step options compaction smallestSnapshot) state).Numbered
      start := by
  induction input generalizing state with
  | nil => exact numbered
  | cons entry rest inductionHypothesis =>
    exact inductionHypothesis (numbered.step options compaction smallestSnapshot entry)

omit [LinearOrder α] in
theorem initial_fills (nextFileNumber : Nat) :
    (CompactionState.initial nextFileNumber : CompactionState α β).Fills [] := by
  refine ⟨fun output member => ?_, rfl⟩
  simp [CompactionState.allOutputs, CompactionState.initial] at member

/-- The outputs of the loop hold exactly the kept entries, in order. -/
theorem compactionLoop_fills (options : Options α β) (compaction : Compaction α β)
    (smallestSnapshot nextFileNumber : Nat) (input : List (Entry α β)) :
    (compactionLoop options compaction smallestSnapshot nextFileNumber input).Fills
      (keptEntries compaction smallestSnapshot DropState.initial input) := by
  obtain ⟨built, entries⟩ := foldl_step_fills (initial_fills nextFileNumber) options compaction
    smallestSnapshot input
  rw [← allOutputs_finish] at built entries
  exact ⟨built, entries⟩

/-- The outputs of the loop are numbered consecutively. -/
theorem compactionLoop_numbered (options : Options α β) (compaction : Compaction α β)
    (smallestSnapshot nextFileNumber : Nat) (input : List (Entry α β)) :
    (compactionLoop options compaction smallestSnapshot nextFileNumber input).Numbered
      nextFileNumber := by
  have initial : (CompactionState.initial nextFileNumber : CompactionState α β).Numbered
      nextFileNumber := ⟨rfl, rfl⟩
  obtain ⟨numbers, next⟩ := foldl_step_numbered initial options compaction smallestSnapshot input
  rw [← allOutputs_finish] at numbers next
  exact ⟨numbers, next⟩

theorem compactionLoop_outputs (options : Options α β) (compaction : Compaction α β)
    (smallestSnapshot nextFileNumber : Nat) (input : List (Entry α β)) :
    (compactionLoop options compaction smallestSnapshot nextFileNumber input).allOutputs =
      (compactionLoop options compaction smallestSnapshot nextFileNumber input).outputs := by
  simp [CompactionState.allOutputs, compactionLoop, CompactionState.finish]

/-- The output files hold exactly the kept entries, in order. -/
theorem doCompactionWork_entries (options : Options α β) (compaction : Compaction α β)
    (smallestSnapshot nextFileNumber : Nat) :
    (doCompactionWork options compaction smallestSnapshot nextFileNumber).1.flatMap
        FileMetaData.entries =
      keptEntries compaction smallestSnapshot DropState.initial (makeInputIterator compaction) := by
  rw [← (compactionLoop_fills options compaction smallestSnapshot nextFileNumber
    (makeInputIterator compaction)).entries_eq, compactionLoop_outputs, doCompactionWork,
    List.flatMap_map]
  rfl

theorem keptEntries_sublist (compaction : Compaction α β) (smallestSnapshot : Nat)
    (state : DropState α) (input : List (Entry α β)) :
    (keptEntries compaction smallestSnapshot state input).Sublist input := by
  induction input generalizing state with
  | nil => exact List.Sublist.refl _
  | cons entry rest inductionHypothesis =>
    rw [keptEntries]
    split
    · exact (inductionHypothesis _).cons entry
    · exact (inductionHypothesis _).cons_cons entry

/-- What the output files of a compaction are, when the merged input is sorted. -/
structure OutputFiles (start next : Nat) (kept : List (Entry α β))
    (files : List (FileMetaData α β)) : Prop where
  valid : ∀ file ∈ files, file.Valid
  disjoint : DisjointSorted files
  entries_eq : files.flatMap FileMetaData.entries = kept
  numbers_eq : files.map FileMetaData.number = List.range' start files.length
  next_eq : next = start + files.length

/-- The spec of `DoCompactionWork`: sorted input gives valid, sorted, disjoint output files
that hold exactly the kept entries, numbered consecutively from the counter. -/
theorem doCompactionWork_outputs (options : Options α β) (compaction : Compaction α β)
    (smallestSnapshot nextFileNumber : Nat) (sorted : Sorted (makeInputIterator compaction))
    (tags : ∀ entry ∈ makeInputIterator compaction,
      entry.key.tag ≤ packSequenceAndType kMaxSequenceNumber kValueTypeForSeek) :
    OutputFiles nextFileNumber
      (doCompactionWork options compaction smallestSnapshot nextFileNumber).2
      (keptEntries compaction smallestSnapshot DropState.initial (makeInputIterator compaction))
      (doCompactionWork options compaction smallestSnapshot nextFileNumber).1 := by
  set input := makeInputIterator compaction with inputEq
  set state := compactionLoop options compaction smallestSnapshot nextFileNumber input with stateEq
  obtain ⟨built, entries⟩ :=
    compactionLoop_fills options compaction smallestSnapshot nextFileNumber input
  obtain ⟨numbers, next⟩ :=
    compactionLoop_numbered options compaction smallestSnapshot nextFileNumber input
  rw [compactionLoop_outputs, ← stateEq] at built entries numbers next
  have sublist := keptEntries_sublist compaction smallestSnapshot DropState.initial input
  rw [← entries] at sublist
  have keptSorted : Sorted (state.outputs.flatMap Output.entries) := sorted.sublist sublist
  have pieceSublist : ∀ output ∈ state.outputs, output.entries.Sublist
      (state.outputs.flatMap Output.entries) := by
    intro output member
    rw [List.flatMap_def]
    exact List.sublist_flatten_of_mem (List.mem_map_of_mem member)
  have pairwise := (List.pairwise_flatMap.mp keptSorted).2
  refine ⟨?_, ?_, ?_, ?_, ?_⟩
  · intro file member
    obtain ⟨output, inOutputs, rfl⟩ := List.mem_map.mp member
    have pieceSorted : Sorted output.entries := keptSorted.sublist (pieceSublist output inOutputs)
    obtain ⟨⟨first, head, smallest⟩, ⟨last, getLast, largest⟩⟩ := built output inOutputs
    refine ⟨pieceSorted, fun entry inPiece => tags entry ?_,
      ⟨first, List.mem_of_mem_head? head, smallest⟩,
      ⟨last, List.mem_of_getLast? getLast, largest⟩, fun entry inPiece => ?_,
      fun entry inPiece => ?_⟩
    · exact sublist.subset ((pieceSublist output inOutputs).subset inPiece)
    · show output.smallest ≤ entry.key
      rw [← smallest]
      exact head_le_of_sorted pieceSorted head entry inPiece
    · show entry.key ≤ output.largest
      rw [← largest]
      exact le_last_of_sorted pieceSorted getLast entry inPiece
  · show (state.outputs.map (Output.toFile options)).Pairwise _
    rw [List.pairwise_map]
    refine pairwise.imp_of_mem fun firstMember secondMember less => ?_
    obtain ⟨_, last, getLast, largest⟩ := built _ firstMember
    obtain ⟨⟨first, head, smallest⟩, _⟩ := built _ secondMember
    show Output.largest _ < Output.smallest _
    rw [← largest, ← smallest]
    exact less last (List.mem_of_getLast? getLast) first (List.mem_of_mem_head? head)
  · exact doCompactionWork_entries options compaction smallestSnapshot nextFileNumber
  · show (state.outputs.map (Output.toFile options)).map FileMetaData.number =
      List.range' nextFileNumber (state.outputs.map (Output.toFile options)).length
    rw [List.map_map, List.length_map, ← numbers]
    rfl
  · show state.nextFileNumber = _ + (state.outputs.map (Output.toFile options)).length
    rw [List.length_map]
    exact next

end LevelDb
