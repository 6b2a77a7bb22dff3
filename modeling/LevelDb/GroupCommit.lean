/-
This file proves that group commit carries every batch exactly once. Over every interleaving of
writers with the steps of the writer at the front, of readers and of the background thread, the
groups popped at the end are the groups merged at the start; the log and the memtables receive the
batches in queue order, with consecutive sequence numbers; and a writer that asked for a sync is
only told that it succeeded after the log was synced.
-/

import LevelDb.WriteQueue

namespace LevelDb

variable {α β : Type}

/-! ### Building and popping a group -/

/-- The group carries its writers' batches in order, and no sync writer behind a leader that does
not sync. -/
structure Group.Formed (group : Group α β) : Prop where
  nonempty : group.writers ≠ []
  ops : group.updates.ops = group.writers.flatMap Writer.ops
  wellFormed : group.updates.WellFormed
  sync : ∀ writer ∈ group.writers, writer.sync = true →
    (group.writers.head?).any Writer.sync = true

/-- Every writer that asked for a sync is in a group that was synced. -/
def Group.SyncDone (group : Group α β) : Prop :=
  ∀ writer ∈ group.writers, writer.sync = true → group.synced = true

theorem WriteBatch.WellFormed.append {dst src : WriteBatch α β} (dstFormed : dst.WellFormed)
    (srcFormed : src.WellFormed) : (dst.append src).WellFormed := by
  unfold WriteBatch.WellFormed WriteBatch.append at *
  rw [List.length_append, dstFormed, srcFormed]

/-- The batch a loop of `BuildBatchGroup` will return if it takes nothing more. -/
def pendingBatch (first : WriteBatch α β) (result : Option (WriteBatch α β)) : WriteBatch α β :=
  result.getD first

theorem buildLoop_spec (opSize : WriteOp α β → Nat) (firstSync : Bool) (first : WriteBatch α β)
    (maxSize size : Nat) (result : Option (WriteBatch α β)) (rest : List (Writer α β)) :
    (∃ left, rest = (buildLoop opSize firstSync first maxSize size result rest).2 ++ left) ∧
    (∀ writer ∈ (buildLoop opSize firstSync first maxSize size result rest).2,
      writer.sync = true → firstSync = true) ∧
    (pendingBatch first (buildLoop opSize firstSync first maxSize size result rest).1).ops =
      (pendingBatch first result).ops ++
        (buildLoop opSize firstSync first maxSize size result rest).2.flatMap Writer.ops := by
  induction rest generalizing size result with
  | nil => exact ⟨⟨[], rfl⟩, fun _ member => absurd member List.not_mem_nil, by simp [buildLoop]⟩
  | cons writer rest inductionHypothesis =>
    rw [buildLoop]
    split
    · exact ⟨⟨_, rfl⟩, fun _ member => absurd member List.not_mem_nil, by simp⟩
    · rename_i maySync
      have headSync : writer.sync = true → firstSync = true := by
        intro isSync
        simpa [isSync] using maySync
      cases isBatch : writer.batch with
      | none =>
        obtain ⟨⟨left, split⟩, sync, ops⟩ := inductionHypothesis size result
        refine ⟨⟨left, congrArg (writer :: ·) split⟩, ?_, ?_⟩
        · exact List.forall_mem_cons.mpr ⟨headSync, sync⟩
        · simp only [List.flatMap_cons, Writer.ops, isBatch, Option.map_none, Option.getD_none,
            List.nil_append]
          exact ops
      | some batch =>
        simp only
        split
        · exact ⟨⟨_, rfl⟩, fun _ member => absurd member List.not_mem_nil, by simp⟩
        · obtain ⟨⟨left, split⟩, sync, ops⟩ := inductionHypothesis (size + batch.byteSize opSize)
            (some ((result.getD (WriteBatch.clear.append first)).append batch))
          refine ⟨⟨left, congrArg (writer :: ·) split⟩, ?_, ?_⟩
          · exact List.forall_mem_cons.mpr ⟨headSync, sync⟩
          · rw [List.flatMap_cons, ← List.append_assoc]
            have merged : (pendingBatch first
                (some ((result.getD (WriteBatch.clear.append first)).append batch))).ops =
                  (pendingBatch first result).ops ++ writer.ops := by
              rw [Writer.ops, isBatch]
              cases result <;> simp [pendingBatch, WriteBatch.append, WriteBatch.clear]
            rw [← merged]
            exact ops

variable {rest : List (Writer α β)}

theorem buildLoop_wellFormed (opSize : WriteOp α β → Nat) (firstSync : Bool)
    {first : WriteBatch α β} (firstFormed : first.WellFormed) (maxSize size : Nat)
    {result : Option (WriteBatch α β)} (resultFormed : ∀ batch ∈ result, batch.WellFormed)
    (restFormed : ∀ writer ∈ rest, ∀ batch ∈ writer.batch, batch.WellFormed) :
    ∀ batch ∈ (buildLoop opSize firstSync first maxSize size result rest).1, batch.WellFormed := by
  induction rest generalizing size result with
  | nil => exact resultFormed
  | cons writer rest inductionHypothesis =>
    have tailFormed := fun other member => restFormed other (List.mem_cons_of_mem _ member)
    rw [buildLoop]
    split
    · exact resultFormed
    · cases isBatch : writer.batch with
      | none => exact inductionHypothesis size resultFormed tailFormed
      | some batch =>
        simp only
        split
        · exact resultFormed
        · refine inductionHypothesis _ ?_ tailFormed
          rintro merged ⟨rfl⟩
          refine WriteBatch.WellFormed.append ?_ (restFormed writer List.mem_cons_self batch isBatch)
          cases result with
          | none => exact WriteBatch.WellFormed.append rfl firstFormed
          | some pending => exact resultFormed pending rfl

variable {batch : WriteBatch α β}

/-- The spec of `BuildBatchGroup`. -/
theorem buildBatchGroup_spec (opSize : WriteOp α β → Nat) {first : Writer α β}
    (isBatch : first.batch = some batch)
    (formed : ∀ writer ∈ first :: rest, ∀ batch ∈ writer.batch, batch.WellFormed) (sequence : Nat) :
    (Group.mk (buildBatchGroup opSize first batch rest).2
      { (buildBatchGroup opSize first batch rest).1 with sequence := sequence } false).Formed ∧
    ∃ left, first :: rest = (buildBatchGroup opSize first batch rest).2 ++ left := by
  obtain ⟨⟨left, split⟩, sync, ops⟩ := buildLoop_spec opSize first.sync batch
    (maxGroupSize (batch.byteSize opSize)) (batch.byteSize opSize) none rest
  have firstFormed := formed first List.mem_cons_self batch isBatch
  refine ⟨⟨List.cons_ne_nil _ _, ?_, ?_, ?_⟩, left, congrArg (first :: ·) split⟩
  · show (pendingBatch batch _).ops = _
    rw [ops, buildBatchGroup, List.flatMap_cons, Writer.ops, isBatch]
    rfl
  · have noResult : ∀ merged ∈ (none : Option (WriteBatch α β)), merged.WellFormed := nofun
    have loopFormed := buildLoop_wellFormed opSize first.sync firstFormed
      (maxGroupSize (batch.byteSize opSize)) (batch.byteSize opSize) noResult
      fun writer member => formed writer (List.mem_cons_of_mem _ member)
    show (pendingBatch batch _).WellFormed
    unfold pendingBatch
    cases built : (buildLoop opSize first.sync batch (maxGroupSize (batch.byteSize opSize))
      (batch.byteSize opSize) none rest).1 with
    | none => exact firstFormed
    | some merged => exact loopFormed merged built
  · exact List.forall_mem_cons.mpr ⟨id, sync⟩

/-- Popping up to the last writer of a group at the front pops exactly the group. -/
theorem popWriters_append {writers left : List (Writer α β)} {last : Writer α β}
    (isLast : writers.getLast? = some last) (ids : ((writers ++ left).map Writer.id).Nodup) :
    popWriters last.id (writers ++ left) = (writers, left) := by
  induction writers with
  | nil => cases isLast
  | cons writer rest inductionHypothesis =>
    rw [List.cons_append, popWriters]
    cases rest with
    | nil =>
      rw [List.getLast?_singleton, Option.some.injEq] at isLast
      rw [if_pos (congrArg Writer.id isLast), List.nil_append]
    | cons second rest =>
      rw [List.getLast?_cons_cons] at isLast
      rw [List.cons_append, List.map_cons, List.nodup_cons] at ids
      have different : writer.id ≠ last.id := by
        intro same
        refine ids.1 (List.mem_map.mpr ⟨last, ?_, same.symm⟩)
        exact List.mem_append_left _ (List.mem_of_getLast? isLast)
      rw [if_neg different, inductionHypothesis isLast ids.2]

/-! ### Sequence numbers -/

/-- The groups take consecutive ranges of sequence numbers after `start`, up to `last`. -/
def Numbered : Nat → List (Group α β) → Nat → Prop
  | start, [], last => last = start
  | start, group :: rest, last =>
    group.updates.sequence = start + 1 ∧ Numbered (start + group.updates.count) rest last

theorem Numbered.append {start last : Nat} {groups : List (Group α β)}
    (numbered : Numbered start groups last) {group : Group α β}
    (next : group.updates.sequence = last + 1) :
    Numbered start (groups ++ [group]) (last + group.updates.count) := by
  induction groups generalizing start with
  | nil =>
    rw [show last = start from numbered] at next ⊢
    exact ⟨next, rfl⟩
  | cons first rest inductionHypothesis =>
    exact ⟨numbered.1, inductionHypothesis numbered.2⟩

/-- The entries of numbered groups have consecutive sequence numbers, without gap or reuse. -/
theorem Numbered.sequences [Inhabited β] {start last : Nat} {groups : List (Group α β)}
    (numbered : Numbered start groups last)
    (formed : ∀ group ∈ groups, group.updates.WellFormed) :
    (groups.flatMap fun group => group.updates.entries).map Entry.sequence =
      List.range' (start + 1) (groups.map fun group => group.updates.count).sum := by
  induction groups generalizing start with
  | nil => rfl
  | cons first rest inductionHypothesis =>
    have tail := inductionHypothesis numbered.2
      fun group member => formed group (List.mem_cons_of_mem _ member)
    have count : first.updates.ops.length = first.updates.count :=
      (formed first List.mem_cons_self).symm
    rw [List.flatMap_cons, List.map_append, tail, WriteBatch.entries, map_sequence_batchEntries,
      numbered.1, count, List.map_cons, List.sum_cons, Nat.add_right_comm, List.range'_append_1]

/-! ### The invariant -/

/-- The group of a phase. -/
def Phase.group : Phase α β → Option (Group α β)
  | .logging group => some group
  | .syncing group => some group
  | .inserting group _ => some group
  | .finishing group _ _ => group
  | _ => none

/-- The group whose record is in the log but whose writers have not been popped. -/
def Phase.appended : Phase α β → List (Group α β)
  | .syncing group => [group]
  | .inserting group _ => [group]
  | .finishing group _ _ => group.toList
  | _ => []

/-- The entries of that group that are still to be inserted. -/
def Phase.remaining [Inhabited β] : Phase α β → List (Entry α β)
  | .syncing group => group.updates.entries
  | .inserting group done => group.updates.entries.drop done
  | _ => []

theorem Phase.appended_cases (phase : Phase α β) :
    phase.appended = [] ∨ ∃ group, phase.group = some group ∧ phase.appended = [group] := by
  cases phase with
  | waiting => exact Or.inl rfl
  | makingRoom => exact Or.inl rfl
  | logging group => exact Or.inl rfl
  | syncing group => exact Or.inr ⟨group, rfl, rfl⟩
  | inserting group done => exact Or.inr ⟨group, rfl, rfl⟩
  | finishing group status syncError =>
    cases group with
    | none => exact Or.inl rfl
    | some built => exact Or.inr ⟨built, rfl, rfl⟩

/-- What holds of the phase of a run in which everything succeeds. -/
def Phase.Succeeding : Phase α β → Prop
  | .inserting group _ => group.SyncDone
  | .finishing group status syncError =>
    (∃ built, group = some built ∧ built.SyncDone) ∧ status = .ok ∧ syncError = false
  | _ => True

/-- The finished groups. -/
def WriteState.groups (state : WriteState α β) : List (Group α β) := state.finished.map Prod.fst

/-- Group commit: every writer is in one finished group or still in the queue, in the order of
arrival; the log has one record for each group; the memtables have the entries of the groups; the
sequence numbers are consecutive; and the writers got the status of their group. -/
structure WriteState.Commits [Inhabited β] (start : Nat) (initial : List (Entry α β))
    (state : WriteState α β) : Prop where
  order : (state.groups.flatMap Group.writers) ++ state.queue = state.arrived
  formed : ∀ group ∈ state.groups ++ state.phase.appended, group.Formed
  logged : state.log.map LogRecord.contents =
    (state.groups ++ state.phase.appended).map Group.updates
  inserted : state.added ++ state.phase.remaining =
    (state.groups ++ state.phase.appended).flatMap fun group => group.updates.entries
  memTables : (state.frozen.flatten ++ state.db.mem).Perm (initial ++ state.added)
  numbered : Numbered start state.groups state.db.lastSequence
  returned : state.returned =
    state.finished.flatMap fun pair => pair.1.writers.map fun writer => (writer, pair.2)
  ok : ∀ pair ∈ state.finished, pair.2 = .ok
  synced : ∀ group ∈ state.groups, group.SyncDone

/-- What the steps keep beside: the writers' names are distinct, their batches are well formed,
and the group on its way is at the front of the queue. -/
structure WriteState.CommitInv [Inhabited β] (start : Nat) (initial : List (Entry α β))
    (state : WriteState α β) : Prop extends state.Commits start initial where
  ids : state.arrived.map Writer.id = List.range state.arrived.length
  batches : ∀ writer ∈ state.arrived, ∃ batch, writer.batch = some batch ∧ batch.WellFormed
  noError : state.bgError = false
  succeeding : state.phase.Succeeding
  current : ∀ group ∈ state.phase.group, group.Formed ∧
    (∃ left, state.queue = group.writers ++ left) ∧
      group.updates.sequence = state.db.lastSequence + 1

/-- The step is one of a run in which the log and memtable operations succeed and the batches are
well formed. -/
def WriteAction.succeeds : WriteAction α β → Bool
  | .arrive batch _ => batch.any fun batch => decide batch.WellFormed
  | .newLogFails => false
  | .append succeeds => succeeds
  | .sync succeeds => succeeds
  | _ => true

/-! ### The steps keep it -/

variable [Inhabited β]

theorem WriteState.start_commitInv (db : Db α β) (logNumber : Nat) :
    (WriteState.start db logNumber).CommitInv db.lastSequence db.mem where
  order := rfl
  formed := nofun
  logged := rfl
  inserted := rfl
  memTables := by
    show (db.mem).Perm (db.mem ++ [])
    rw [List.append_nil]
  numbered := rfl
  returned := rfl
  ok := nofun
  synced := nofun
  ids := rfl
  batches := nofun
  noError := rfl
  succeeding := trivial
  current := nofun

variable {initial : List (Entry α β)} {state : WriteState α β} {start : Nat}

theorem WriteState.CommitInv.arrive (inv : state.CommitInv start initial)
    (formed : batch.WellFormed) (sync : Bool) :
    ({ state with
      queue := state.queue ++ [⟨state.arrived.length, some batch, sync⟩]
      arrived := state.arrived ++ [⟨state.arrived.length, some batch, sync⟩] } :
        WriteState α β).CommitInv start initial :=
  { inv with
    order := by
      show state.groups.flatMap Group.writers ++ (state.queue ++ _) = state.arrived ++ _
      rw [← List.append_assoc, inv.order]
    ids := by
      rw [List.map_append, inv.ids, List.length_append, List.length_singleton, List.range_succ]
      rfl
    batches := by
      intro writer member
      rcases List.mem_append.mp member with old | new
      · exact inv.batches writer old
      · rw [List.mem_singleton.mp new]
        exact ⟨batch, rfl, formed⟩
    current := by
      intro group isGroup
      obtain ⟨isFormed, ⟨left, split⟩, next⟩ := inv.current group isGroup
      refine ⟨isFormed, ⟨left ++ [⟨state.arrived.length, some batch, sync⟩], ?_⟩, next⟩
      show state.queue ++ _ = _
      rw [split, List.append_assoc] }

theorem WriteState.CommitInv.switchMemTable (inv : state.CommitInv start initial)
    (logNumber nextFileNumber : Nat) :
    ({ state with
      db := { state.db with
        mem := []
        imm := some state.db.mem
        nextFileNumber := nextFileNumber }
      frozen := state.frozen ++ [state.db.mem]
      logNumber := logNumber } : WriteState α β).CommitInv start initial :=
  { inv with
    memTables := by
      show ((state.frozen ++ [state.db.mem]).flatten ++ []).Perm _
      rw [List.flatten_append, List.flatten_singleton, List.append_nil]
      exact inv.memTables }

/-- The leader has merged the batches at the front of the queue. -/
theorem WriteState.CommitInv.buildGroup (inv : state.CommitInv start initial)
    (phase : state.phase = .makingRoom) {first : Writer α β}
    (queue : state.queue = first :: rest)
    (isBatch : first.batch = some batch) (opSize : WriteOp α β → Nat) :
    ({ state with phase := .logging ⟨(buildBatchGroup opSize first batch rest).2,
      { (buildBatchGroup opSize first batch rest).1 with sequence := state.db.lastSequence + 1 },
      false⟩ } : WriteState α β).CommitInv start initial := by
  have arrivedFormed : ∀ writer ∈ first :: rest, ∀ batch ∈ writer.batch, batch.WellFormed := by
    intro writer member batch isBatch
    rw [← queue] at member
    obtain ⟨own, isOwn, formed⟩ := inv.batches writer
      (inv.order ▸ List.mem_append_right _ member)
    rw [isOwn] at isBatch
    exact Option.some.inj isBatch ▸ formed
  obtain ⟨formed, left, split⟩ := buildBatchGroup_spec opSize isBatch arrivedFormed
    (state.db.lastSequence + 1)
  have appended : state.phase.appended = [] := by rw [phase]; rfl
  have remaining : state.phase.remaining = [] := by rw [phase]; rfl
  have isFormed := inv.formed
  have logged := inv.logged
  have inserted := inv.inserted
  rw [appended] at isFormed logged inserted
  rw [remaining] at inserted
  exact { inv with
    formed := isFormed
    logged := logged
    inserted := inserted
    succeeding := trivial
    current := by
      rintro group ⟨rfl⟩
      refine ⟨formed, ⟨left, ?_⟩, rfl⟩
      show state.queue = _
      rw [queue]
      exact split }

/-- The group is the same but for the sync. -/
def Group.SameAs (group old : Group α β) : Prop :=
  group.writers = old.writers ∧ group.updates = old.updates

omit [Inhabited β] in
theorem Group.Formed.sameAs {group old : Group α β} (formed : old.Formed)
    (same : group.SameAs old) : group.Formed := by
  obtain ⟨writers, updates⟩ := same
  obtain ⟨nonempty, ops, wellFormed, sync⟩ := formed
  refine ⟨writers ▸ nonempty, ?_, updates ▸ wellFormed, writers ▸ sync⟩
  rw [writers, updates, ops]

/-- The leader moves on with its group, whose record stays in the log. -/
theorem WriteState.CommitInv.setPhase (inv : state.CommitInv start initial) {phase : Phase α β}
    (current : ∀ group ∈ phase.group, ∃ old ∈ state.phase.group, group.SameAs old)
    (ofPhase : ∀ group ∈ phase.appended, group ∈ phase.group)
    (appended : phase.appended.map Group.updates = state.phase.appended.map Group.updates)
    (remaining : phase.remaining = state.phase.remaining) (succeeding : phase.Succeeding) :
    ({ state with phase := phase } : WriteState α β).CommitInv start initial := by
  have formed : ∀ group ∈ phase.group, group.Formed := by
    intro group isGroup
    obtain ⟨old, isOld, same⟩ := current group isGroup
    exact (inv.current old isOld).1.sameAs same
  have byUpdates : ∀ groups : List (Group α β),
      (groups.flatMap fun group => group.updates.entries) =
        (groups.map Group.updates).flatMap WriteBatch.entries :=
    fun groups => (List.flatMap_map ..).symm
  exact { inv with
    formed := by
      intro group member
      rcases List.mem_append.mp member with finished | onItsWay
      · exact inv.formed group (List.mem_append_left _ finished)
      · exact formed group (ofPhase group onItsWay)
    logged := by
      show state.log.map LogRecord.contents = (state.groups ++ phase.appended).map Group.updates
      rw [List.map_append, appended, ← List.map_append]
      exact inv.logged
    inserted := by
      show state.added ++ phase.remaining = (state.groups ++ phase.appended).flatMap _
      rw [remaining, byUpdates, List.map_append, appended, ← List.map_append, ← byUpdates]
      exact inv.inserted
    succeeding := succeeding
    current := by
      intro group isGroup
      obtain ⟨old, isOld, same⟩ := current group isGroup
      obtain ⟨_, ⟨left, split⟩, next⟩ := inv.current old isOld
      exact ⟨formed group isGroup, ⟨left, same.1 ▸ split⟩, same.2 ▸ next⟩ }

theorem WriteState.CommitInv.append {start : Nat} {initial : List (Entry α β)}
    {state : WriteState α β} (inv : state.CommitInv start initial) {group : Group α β}
    (phase : state.phase = .logging group) :
    ({ state with
      log := state.log ++ [⟨state.logNumber, group.updates⟩]
      phase := Phase.afterAppend group } : WriteState α β).CommitInv start initial := by
  have isCurrent : group ∈ state.phase.group := by rw [phase]; rfl
  obtain ⟨formed, front, next⟩ := inv.current group isCurrent
  have appended : (Phase.afterAppend group).appended = [group] := by
    unfold Phase.afterAppend
    split <;> rfl
  have remaining : (Phase.afterAppend group).remaining = group.updates.entries := by
    unfold Phase.afterAppend
    split <;> rfl
  have isGroup : (Phase.afterAppend group).group = some group := by
    unfold Phase.afterAppend
    split <;> rfl
  have before : state.phase.appended = [] := by rw [phase]; rfl
  have nothing : state.phase.remaining = [] := by rw [phase]; rfl
  have oldFormed := inv.formed
  have logged := inv.logged
  have inserted := inv.inserted
  rw [before, List.append_nil] at oldFormed logged inserted
  rw [nothing, List.append_nil] at inserted
  exact { inv with
    formed := by
      show ∀ other ∈ state.groups ++ (Phase.afterAppend group).appended, other.Formed
      rw [appended]
      exact List.forall_mem_append.mpr ⟨oldFormed, List.forall_mem_singleton.mpr formed⟩
    logged := by
      show (state.log ++ _).map LogRecord.contents =
        (state.groups ++ (Phase.afterAppend group).appended).map Group.updates
      rw [appended, List.map_append, List.map_append, logged]
      rfl
    inserted := by
      show state.added ++ (Phase.afterAppend group).remaining =
        (state.groups ++ (Phase.afterAppend group).appended).flatMap _
      rw [appended, remaining, List.flatMap_append, inserted, List.flatMap_singleton]
    succeeding := by
      show (Phase.afterAppend group).Succeeding
      unfold Phase.afterAppend
      split
      · trivial
      · rename_i noSync
        intro writer member isSync
        exact absurd (formed.sync writer member isSync) noSync
    current := by
      show ∀ other ∈ (Phase.afterAppend group).group, _
      rw [isGroup]
      rintro other ⟨rfl⟩
      exact ⟨formed, front, next⟩ }

/-- The leader pops exactly the writers it had merged. -/
theorem WriteState.CommitInv.finish {start : Nat} {initial : List (Entry α β)}
    {state : WriteState α β} (inv : state.CommitInv start initial) {group : Option (Group α β)}
    {status : WriteStatus} {syncError : Bool} {last : Writer α β}
    (phase : state.phase = .finishing group status syncError)
    (isLast : lastWriter state.queue group = some last) :
    ({ state with
      db := { state.db with
        lastSequence := (group.map fun group => group.next - 1).getD state.db.lastSequence }
      bgError := state.bgError || syncError
      queue := (popWriters last.id state.queue).2
      phase := .waiting
      finished := state.finished ++ (group.map fun group => (group, status)).toList
      returned := state.returned ++ (popWriters last.id state.queue).1.map
        fun writer => (writer, status) } : WriteState α β).CommitInv start initial := by
  have succeeding := inv.succeeding
  rw [phase] at succeeding
  obtain ⟨⟨built, isBuilt, syncDone⟩, isOk, noSyncError⟩ := succeeding
  subst isBuilt isOk noSyncError
  have isCurrent : built ∈ state.phase.group := by rw [phase]; rfl
  obtain ⟨formed, ⟨left, split⟩, next⟩ := inv.current built isCurrent
  have popped : popWriters last.id state.queue = (built.writers, left) := by
    rw [split]
    refine popWriters_append isLast ?_
    have distinct : (state.arrived.map Writer.id).Nodup := inv.ids ▸ List.nodup_range
    rw [← inv.order, split] at distinct
    exact (List.map_append ▸ distinct).of_append_right
  have appended : state.phase.appended = [built] := by rw [phase]; rfl
  have remaining : state.phase.remaining = [] := by rw [phase]; rfl
  have groups : (state.finished ++ [(built, WriteStatus.ok)]).map Prod.fst =
      state.groups ++ [built] := by rw [List.map_append]; rfl
  have isFormed := inv.formed
  have logged := inv.logged
  have inserted := inv.inserted
  rw [appended] at isFormed logged inserted
  rw [remaining] at inserted
  have lastSequence : built.next - 1 = state.db.lastSequence + built.updates.count := by
    unfold Group.next
    omega
  exact { inv with
    order := by
      show ((state.finished ++ [(built, WriteStatus.ok)]).map Prod.fst).flatMap Group.writers ++
        (popWriters last.id state.queue).2 = state.arrived
      rw [groups, popped, List.flatMap_append, List.flatMap_singleton, List.append_assoc, ← split]
      exact inv.order
    formed := by
      show ∀ group ∈ (state.finished ++ [(built, WriteStatus.ok)]).map Prod.fst ++ [], group.Formed
      rw [groups, List.append_nil]
      exact isFormed
    logged := by
      show _ = ((state.finished ++ [(built, WriteStatus.ok)]).map Prod.fst ++ []).map Group.updates
      rw [groups, List.append_nil]
      exact logged
    inserted := by
      show _ = ((state.finished ++ [(built, WriteStatus.ok)]).map Prod.fst ++ []).flatMap _
      rw [groups, List.append_nil]
      exact inserted
    numbered := by
      show Numbered start ((state.finished ++ [(built, WriteStatus.ok)]).map Prod.fst)
        (built.next - 1)
      rw [groups, lastSequence]
      exact inv.numbered.append next
    returned := by
      show state.returned ++ (popWriters last.id state.queue).1.map _ =
        (state.finished ++ [(built, WriteStatus.ok)]).flatMap _
      rw [popped, inv.returned, List.flatMap_append, List.flatMap_singleton]
    ok := by
      show ∀ pair ∈ state.finished ++ [(built, WriteStatus.ok)], pair.2 = .ok
      exact List.forall_mem_append.mpr ⟨inv.ok, List.forall_mem_singleton.mpr rfl⟩
    synced := by
      show ∀ group ∈ (state.finished ++ [(built, WriteStatus.ok)]).map Prod.fst, group.SyncDone
      rw [groups]
      exact List.forall_mem_append.mpr ⟨inv.synced, List.forall_mem_singleton.mpr syncDone⟩
    batches := inv.batches
    noError := by
      show (state.bgError || false) = false
      rw [inv.noError]
      rfl
    succeeding := trivial
    current := nofun }

variable [LinearOrder α]

theorem WriteState.CommitInv.other (inv : state.CommitInv start initial) {options : Options α β}
    {action : Action α β} (isBeside : action.besideWrite = true) {db : Db α β}
    (taken : state.db.step options action = some db) :
    ({ state with db := db } : WriteState α β).CommitInv start initial := by
  obtain ⟨mem, lastSequence⟩ := Db.step_besideWrite isBeside taken
  exact { inv with
    memTables := by
      show (state.frozen.flatten ++ db.mem).Perm _
      rw [mem]
      exact inv.memTables
    numbered := by
      show Numbered start state.groups db.lastSequence
      rw [lastSequence]
      exact inv.numbered
    current := by
      intro group isGroup
      obtain ⟨isFormed, front, next⟩ := inv.current group isGroup
      refine ⟨isFormed, front, ?_⟩
      show _ = db.lastSequence + 1
      rw [lastSequence]
      exact next }


theorem WriteState.CommitInv.insert
    (inv : state.CommitInv start initial) {group : Group α β} {done : Nat}
    {entry : Entry α β} (phase : state.phase = .inserting group done)
    (next : group.updates.entries[done]? = some entry) :
    ({ state with
      db := { state.db with mem := memTableAdd state.db.mem entry }
      added := state.added ++ [entry]
      phase := .inserting group (done + 1) } : WriteState α β).CommitInv start initial := by
  have isCurrent : group ∈ state.phase.group := by rw [phase]; rfl
  have succeeding := inv.succeeding
  have appended : state.phase.appended = [group] := by rw [phase]; rfl
  have remaining : state.phase.remaining = entry :: group.updates.entries.drop (done + 1) := by
    rw [phase]
    obtain ⟨bound, isEntry⟩ := List.getElem?_eq_some_iff.mp next
    show group.updates.entries.drop done = _
    rw [List.drop_eq_getElem_cons bound, isEntry]
  have formed := inv.formed
  have logged := inv.logged
  have inserted := inv.inserted
  rw [appended] at formed logged inserted
  rw [remaining] at inserted
  rw [phase] at succeeding
  exact { inv with
    formed := formed
    logged := logged
    inserted := by
      show state.added ++ [entry] ++ group.updates.entries.drop (done + 1) = _
      rw [List.append_assoc]
      exact inserted
    memTables := by
      show (state.frozen.flatten ++ memTableAdd state.db.mem entry).Perm
        (initial ++ (state.added ++ [entry]))
      have memAdd := (memTableAdd_perm state.db.mem entry).append_left state.frozen.flatten
      refine memAdd.trans (List.perm_middle.trans ?_)
      rw [← List.append_assoc]
      exact (inv.memTables.cons entry).trans (List.perm_append_singleton _ _).symm
    succeeding := succeeding
    current := by
      rintro other ⟨rfl⟩
      exact inv.current group isCurrent }

/-- Every step of a run in which everything succeeds keeps the invariant. -/
theorem WriteState.CommitInv.step {start : Nat} {initial : List (Entry α β)}
    {options : Options α β} {opSize : WriteOp α β → Nat} {state state' : WriteState α β}
    (inv : state.CommitInv start initial) {action : WriteAction α β}
    (succeeds : action.succeeds = true) (taken : state.step options opSize action = some state') :
    state'.CommitInv start initial := by
  cases WriteState.step_moves taken with
  | arrive batch sync =>
    obtain ⟨own, rfl, formed⟩ := (Option.any_eq_true _ _).mp succeeds
    exact inv.arrive (by simpa using formed) sync
  | lead phase nonempty =>
    refine inv.setPhase nofun nofun ?_ ?_ trivial
    · rw [phase]
      rfl
    · rw [phase]
      rfl
  | switchMemTable phase empty => exact inv.switchMemTable _ _
  | leaves action status phase reason =>
    rcases reason with rfl | ⟨rfl, bgError | ⟨first, isFirst, noBatch⟩⟩
    · cases succeeds
    · rw [inv.noError] at bgError
      cases bgError
    · have arrived : first ∈ state.arrived :=
        inv.order ▸ List.mem_append_right _ (List.mem_of_mem_head? isFirst)
      obtain ⟨batch, isBatch, _⟩ := inv.batches first arrived
      rw [noBatch] at isBatch
      cases isBatch
  | group first rest batch phase queue isBatch => exact inv.buildGroup phase queue isBatch opSize
  | append group phase => exact inv.append phase
  | appendFails group phase => cases succeeds
  | sync group phase =>
    refine inv.setPhase ?_ ?_ ?_ ?_ (fun _ _ _ => rfl)
    · rintro other ⟨rfl⟩
      exact ⟨group, by rw [phase]; rfl, rfl, rfl⟩
    · exact fun other member => List.mem_singleton.mp member ▸ rfl
    · rw [phase]
      rfl
    · rw [phase]
      rfl
  | syncFails group phase => cases succeeds
  | insert group done entry phase next => exact inv.insert phase next
  | inserted group done phase all =>
    have succeeding := inv.succeeding
    rw [phase] at succeeding
    have isCurrent : group ∈ state.phase.group := by rw [phase]; rfl
    have wellFormed := (inv.current group isCurrent).1.wellFormed
    refine inv.setPhase ?_ ?_ ?_ ?_ ⟨⟨group, rfl, succeeding⟩, if_pos wellFormed.symm, rfl⟩
    · rintro other ⟨rfl⟩
      exact ⟨group, isCurrent, rfl, rfl⟩
    · exact fun other member => List.mem_singleton.mp member ▸ rfl
    · rw [phase]
      rfl
    · rw [phase]
      exact (List.drop_eq_nil_of_le (List.getElem?_eq_none_iff.mp all)).symm
  | finish group status syncError last phase isLast => exact inv.finish phase isLast
  | read snapshot sequence isTaken => exact { inv with }
  | other action isBeside db stepped => exact inv.other isBeside stepped

omit [LinearOrder α] in
/-- The group on its way takes the sequence numbers after the finished ones. -/
theorem WriteState.CommitInv.sequences (inv : state.CommitInv start initial) :
    ((state.groups ++ state.phase.appended).flatMap fun group =>
      group.updates.entries).map Entry.sequence =
        List.range' (start + 1)
          ((state.groups ++ state.phase.appended).map fun group => group.updates.count).sum := by
  have formed := fun group member => (inv.formed group member).wellFormed
  rcases state.phase.appended_cases with nothing | ⟨group, isGroup, appended⟩
  · rw [nothing, List.append_nil] at formed ⊢
    exact inv.numbered.sequences formed
  · rw [appended] at formed ⊢
    exact (inv.numbered.append (inv.current group isGroup).2.2).sequences formed

/-- Group commit over every run in which the log and memtable operations succeed: each batch is
logged and inserted once, in queue order, with consecutive sequence numbers; each writer gets the
status of the group that carried it; and a sync writer that got OK was in a synced group. -/
theorem groups_commit (options : Options α β) (opSize : WriteOp α β → Nat) (db : Db α β)
    (logNumber : Nat) (state : WriteState α β)
    (reachable : Lib.Reachable (WriteState.step options opSize)
      (fun _ action => action.succeeds = true) (WriteState.start db logNumber) state) :
    state.Commits db.lastSequence db.mem ∧
      ((state.groups ++ state.phase.appended).flatMap fun group =>
        group.updates.entries).map Entry.sequence =
          List.range' (db.lastSequence + 1)
            ((state.groups ++ state.phase.appended).map fun group => group.updates.count).sum ∧
      ∀ pair ∈ state.returned, pair.1.sync = true → pair.2 = .ok →
        ∃ group, (group, pair.2) ∈ state.finished ∧ pair.1 ∈ group.writers ∧
          group.synced = true := by
  have inv : state.CommitInv db.lastSequence db.mem := by
    have kept : ∀ (state : WriteState α β) action state', state.CommitInv db.lastSequence db.mem →
        action.succeeds = true → state.step options opSize action = some state' →
          state'.CommitInv db.lastSequence db.mem :=
      fun _ _ _ inv succeeds taken => inv.step succeeds taken
    exact Lib.Reachable.invariant (WriteState.start_commitInv db logNumber) kept reachable
  refine ⟨inv.toCommits, inv.sequences, fun pair member isSync _ => ?_⟩
  rw [inv.returned] at member
  obtain ⟨⟨group, status⟩, isFinished, inGroup⟩ := List.mem_flatMap.mp member
  obtain ⟨writer, isWriter, rfl⟩ := List.mem_map.mp inGroup
  exact ⟨group, isFinished, isWriter, inv.synced group (List.mem_map_of_mem isFinished) writer
    isWriter isSync⟩

/-- Two writers join behind a writer that does not sync, the first of them with a sync: it cannot
join the group and leads the next one. -/
def threeWriters : List (WriteAction Nat Nat) :=
  [.arrive (some ⟨0, 1, [.put 1 10]⟩) false, .lead, .arrive (some ⟨0, 1, [.put 2 20]⟩) true,
    .arrive (some ⟨0, 2, [.put 3 30, .delete 1]⟩) false, .buildGroup, .append true, .insert,
    .insert, .finish, .lead, .buildGroup, .append true, .sync true, .insert, .read none, .insert,
    .insert, .insert, .finish]

theorem groups_commit_three_writers :
    ∃ state : WriteState Nat Nat,
      Lib.Reachable (WriteState.step sizedOptions fun _ => 10)
        (fun _ action => action.succeeds = true) (WriteState.start Db.empty 3) state ∧
      state.Commits 0 [] ∧ state.returned.length = 3 ∧ state.log.length = 2 ∧
      ((state.groups ++ state.phase.appended).flatMap fun group =>
        group.updates.entries).map Entry.sequence = [1, 2, 3, 4] := by
  obtain ⟨state, reachable, outcome⟩ := Lib.exists_of_run
    (show (Lib.run (WriteState.step sizedOptions fun _ => 10)
      (fun _ action => action.succeeds = true) (WriteState.start Db.empty 3) threeWriters).any
        (fun state => state.returned.length == 3 && state.log.length == 2 &&
          ((state.groups ++ state.phase.appended).map fun group => group.updates.count).sum == 4) =
            true by decide +kernel)
  simp only [Bool.and_eq_true, beq_iff_eq] at outcome
  obtain ⟨commits, sequences, _⟩ := groups_commit sizedOptions (fun _ => 10) Db.empty 3 state
    reachable
  refine ⟨state, reachable, commits, outcome.1.1, outcome.1.2, ?_⟩
  rw [sequences, outcome.2]
  rfl

end LevelDb
