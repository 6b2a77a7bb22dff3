/-
This file proves that the database is a map with snapshots. The map is what the writes make of the
empty one, and a snapshot keeps the map as it was; flushes, moves and compactions do not change it.
In every run in which no compaction leaves older entries of a user key behind, `Get` answers from
the map, and at a snapshot from the map that the snapshot has kept.
-/

import LevelDb.KeptReads

namespace LevelDb

open Lib

variable {α β φ : Type}

/-! ### The map -/

/-- What a database is for: a map, and the maps that the snapshots have kept. -/
structure MapState (α β : Type) where
  current : α → Option β
  snapshots : List (α → Option β)

def MapState.empty : MapState α β := ⟨fun _ => none, []⟩

/-- The status of a read that is served a value or none. -/
def ReadStatus.ofOption : Option β → ReadStatus β
  | none => .notFound
  | some value => .ok value

variable [LinearOrder α]

def WriteOp.apply (map : α → Option β) : WriteOp α β → α → Option β
  | .put userKey value => Function.update map userKey (some value)
  | .delete userKey => Function.update map userKey none

/-- What a step does to the map. Flushes and compactions are not seen. -/
def MapState.step (state : MapState α β) : Action α β → MapState α β
  | .write ops => { state with current := ops.foldl WriteOp.apply state.current }
  | .getSnapshot => { state with snapshots := state.snapshots ++ [state.current] }
  | .releaseSnapshot index => { state with snapshots := state.snapshots.eraseIdx index }
  | _ => state

/-- The database and the map, step by step together. -/
def Db.stepWithMap [Inhabited β] (options : Options α β) (state : Db α β × MapState α β)
    (action : Action α β) : Option (Db α β × MapState α β) :=
  (state.1.step options action).map fun db => (db, state.2.step action)

/-! ### Writes -/

section Writes

variable [Inhabited β] {content : Set (Entry α β)} {sequence : Nat}

theorem WriteOp.entry_apply (op : WriteOp α β) (map : α → Option β) (userKey : α) :
    (if (op.entry sequence).userKey = userKey then (op.entry sequence).carried else map userKey) =
      op.apply map userKey := by
  cases op with
  | put target value =>
    have isValue : ((WriteOp.put target value).entry sequence).carried = some value := by
      rw [Entry.carried, if_neg]
      · rfl
      · simp [Entry.IsDeletion, WriteOp.entry, ValueType.code]
    rw [isValue, WriteOp.apply, Function.update_apply]
    exact if_congr eq_comm rfl rfl
  | delete target =>
    have isDeletion : ((WriteOp.delete target : WriteOp α β).entry sequence).carried = none := by
      rw [Entry.carried, if_pos]
      simp [Entry.IsDeletion, WriteOp.entry, ValueType.code]
    rw [isDeletion, WriteOp.apply, Function.update_apply]
    exact if_congr eq_comm rfl rfl

/-- A batch does to what is served what its operations do to the map, one after the other. -/
theorem served_batch {map : α → Option β} (upTo : ∀ entry ∈ content, entry.sequence ≤ sequence)
    (served : ∀ userKey, Served content userKey sequence (map userKey)) (ops : List (WriteOp α β))
    (userKey : α) :
    Served ({entry | entry ∈ batchEntries (sequence + 1) ops} ∪ content) userKey
      (sequence + ops.length) (ops.foldl WriteOp.apply map userKey) := by
  induction ops generalizing content sequence map with
  | nil =>
    have same : {entry | entry ∈ batchEntries (sequence + 1) ([] : List (WriteOp α β))} ∪ content =
        content := by
      ext entry
      simp [batchEntries]
    rw [same]
    exact served userKey
  | cons op rest inductionHypothesis =>
    have number : (op.entry (sequence + 1)).sequence = sequence + 1 := op.entry_sequence _
    have next : ∀ userKey, Served (insert (op.entry (sequence + 1)) content) userKey (sequence + 1)
        (op.apply map userKey) := by
      intro userKey
      have inserted := (served userKey).insert_newest upTo
        (number.symm ▸ Nat.lt_succ_self sequence : sequence < (op.entry (sequence + 1)).sequence)
      rw [number, op.entry_apply] at inserted
      exact inserted
    have upToNext : ∀ entry ∈ insert (op.entry (sequence + 1)) content,
        entry.sequence ≤ sequence + 1 := by
      intro entry member
      rcases Set.mem_insert_iff.mp member with rfl | old
      · exact number.le
      · exact (upTo entry old).trans (Nat.le_succ _)
    have same : {entry | entry ∈ batchEntries (sequence + 1) (op :: rest)} ∪ content =
        {entry | entry ∈ batchEntries (sequence + 1 + 1) rest} ∪
          insert (op.entry (sequence + 1)) content := by
      ext entry
      constructor
      · rintro (inBatch | old)
        · rcases List.mem_cons.mp inBatch with rfl | inRest
          · exact Or.inr (Set.mem_insert _ _)
          · exact Or.inl inRest
        · exact Or.inr (Set.mem_insert_of_mem _ old)
      · rintro (inRest | inserted)
        · exact Or.inl (List.mem_cons_of_mem _ inRest)
        · rcases Set.mem_insert_iff.mp inserted with rfl | old
          · exact Or.inl List.mem_cons_self
          · exact Or.inr old
    rw [same, List.foldl_cons, List.length_cons, Nat.add_comm rest.length, ← Nat.add_assoc]
    exact inductionHypothesis upToNext next

theorem Db.write_entries {db db' : Db α β} {ops : List (WriteOp α β)}
    (taken : db.write ops = some db') :
    db'.entries = {entry | entry ∈ batchEntries (db.lastSequence + 1) ops} ∪ db.entries := by
  obtain ⟨-, rfl⟩ := Lib.of_guard taken
  ext entry
  constructor
  · rintro (inMem | inImm | inLevel)
    · exact (mem_insertInto.mp inMem).elim (fun old => Or.inr (Or.inl old)) Or.inl
    · exact Or.inr (Or.inr (Or.inl inImm))
    · exact Or.inr (Or.inr (Or.inr inLevel))
  · rintro (inBatch | inMem | inImm | inLevel)
    · exact Or.inl (mem_insertInto.mpr (Or.inr inBatch))
    · exact Or.inl (mem_insertInto.mpr (Or.inl inMem))
    · exact Or.inr (Or.inl inImm)
    · exact Or.inr (Or.inr inLevel)

end Writes

/-! ### The simulation -/

/-- The database serves the map, and at the sequence number of each snapshot the map that it has
kept. -/
structure Db.Represents (db : Db α β) (state : MapState α β) : Prop where
  stacked : db.Stacked
  current : ∀ userKey, Served db.entries userKey db.lastSequence (state.current userKey)
  kept : List.Forall₂ (fun snapshot map => ∀ userKey,
    Served db.entries userKey snapshot (map userKey)) db.snapshots state.snapshots
  bounded : ∀ snapshot ∈ db.snapshots, snapshot ≤ db.lastSequence
  ascending : db.snapshots.Pairwise (· ≤ ·)

theorem empty_represents : (Db.empty : Db α β).Represents MapState.empty where
  stacked := Db.empty_stacked
  current := fun userKey => by
    have empty : (Db.empty : Db α β).entries = ∅ := by
      refine Set.eq_empty_iff_forall_notMem.mpr ?_
      rintro entry (inMem | ⟨imm, isImm, -⟩ | ⟨level, file, inNone, -⟩)
      · exact List.not_mem_nil inMem
      · cases isImm
      · exact List.not_mem_nil inNone
    rw [empty]
    exact serves_empty _ _
  kept := .nil
  bounded := fun snapshot inNone => absurd inNone List.not_mem_nil
  ascending := .nil

/-- Every snapshot is live, and so is the last sequence number. -/
theorem oldestSnapshot_le {snapshots : List Nat} {lastSequence : Nat}
    (ascending : snapshots.Pairwise (· ≤ ·)) :
    (∀ snapshot ∈ snapshots, oldestSnapshot snapshots lastSequence ≤ snapshot) ∧
      ((∀ snapshot ∈ snapshots, snapshot ≤ lastSequence) →
        oldestSnapshot snapshots lastSequence ≤ lastSequence) := by
  cases snapshots with
  | nil => exact ⟨fun snapshot member => absurd member List.not_mem_nil, fun _ => le_rfl⟩
  | cons first rest =>
    refine ⟨fun snapshot member => ?_, fun bounded => bounded first List.mem_cons_self⟩
    rcases List.mem_cons.mp member with rfl | later
    · exact le_rfl
    · exact (List.pairwise_cons.mp ascending).1 snapshot later

section Steps

variable [Inhabited β] {options : Options α β} {db db' : Db α β} {state : MapState α β}
  {action : Action α β}

omit [Inhabited β] in
/-- What is served at every live snapshot is served of another set of entries too. -/
theorem Db.Represents.kept_of {content : Set (Entry α β)} (represents : db.Represents state)
    (serves : ∀ snapshot, oldestSnapshot db.snapshots db.lastSequence ≤ snapshot →
      snapshot ≤ db.lastSequence → ∀ userKey value, Served db.entries userKey snapshot value →
        Served content userKey snapshot value) :
    List.Forall₂ (fun snapshot map => ∀ userKey, Served content userKey snapshot (map userKey))
      db.snapshots state.snapshots := by
  have live := (@oldestSnapshot_le db.snapshots db.lastSequence represents.ascending).1
  have paired := (List.forall₂_and_left _ _).mpr
    ⟨fun snapshot member => And.intro (live snapshot member) (represents.bounded snapshot member),
      represents.kept⟩
  exact paired.imp fun snapshot map both userKey =>
    serves snapshot both.1.1 both.1.2 userKey _ (both.2 userKey)

/-- A step that neither writes nor takes or releases a snapshot leaves both as they are. -/
theorem Db.step_snapshots (taken : db.step options action = some db')
    (notWrite : ∀ ops, action ≠ .write ops) (notGet : action ≠ .getSnapshot)
    (notRelease : ∀ index, action ≠ .releaseSnapshot index) :
    db'.snapshots = db.snapshots ∧ db'.lastSequence = db.lastSequence := by
  cases action with
  | write ops => exact absurd rfl (notWrite ops)
  | getSnapshot => exact absurd rfl notGet
  | releaseSnapshot index => exact absurd rfl (notRelease index)
  | switchMemTable =>
    obtain ⟨-, rfl⟩ := Lib.of_guard taken
    exact ⟨rfl, rfl⟩
  | compactMemTable =>
    obtain ⟨imm, -, rfl⟩ := Option.map_eq_some_iff.mp taken
    cases db
    exact ⟨rfl, rfl⟩
  | chargeSeek level index =>
    obtain ⟨-, charged⟩ := Option.ite_none_right_eq_some.mp taken
    obtain ⟨file, -, rfl⟩ := Option.map_eq_some_iff.mp charged
    exact ⟨rfl, rfl⟩
  | backgroundCompaction =>
    obtain ⟨compaction, -, rfl⟩ := Option.map_eq_some_iff.mp taken
    cases db
    split <;> exact ⟨rfl, rfl⟩
  | manualCompaction level first last =>
    obtain ⟨compaction, -, rfl⟩ := Option.map_eq_some_iff.mp taken
    cases db
    exact ⟨rfl, rfl⟩

/-- A step that is no write and leaves the snapshots as they are. -/
theorem Db.Represents.unchanged (represents : db.Represents state)
    (keeps : db.KeepsWhole options action) (taken : db.step options action = some db')
    (notWrite : ∀ ops, action ≠ .write ops) (notGet : action ≠ .getSnapshot)
    (notRelease : ∀ index, action ≠ .releaseSnapshot index) : db'.Represents state := by
  obtain ⟨snapshots, lastSequence⟩ := Db.step_snapshots taken notWrite notGet notRelease
  have serves : ∀ snapshot, oldestSnapshot db.snapshots db.lastSequence ≤ snapshot →
      snapshot ≤ db.lastSequence → ∀ userKey value, Served db.entries userKey snapshot value →
        Served db'.entries userKey snapshot value := fun snapshot live _ userKey value served =>
    represents.stacked.step_served keeps taken notWrite live served
  have oldest := (@oldestSnapshot_le db.snapshots db.lastSequence represents.ascending).2
    represents.bounded
  refine ⟨represents.stacked.step keeps.older taken, fun userKey => ?_, ?_, ?_, ?_⟩
  · rw [lastSequence]
    exact serves _ oldest le_rfl userKey _ (represents.current userKey)
  · rw [snapshots]
    exact represents.kept_of serves
  · rw [snapshots, lastSequence]
    exact represents.bounded
  · rw [snapshots]
    exact represents.ascending

/-- Every step keeps the map represented. -/
theorem Db.Represents.step (represents : db.Represents state)
    (keeps : db.KeepsWhole options action) (taken : db.step options action = some db') :
    db'.Represents (state.step action) := by
  have stacked' := represents.stacked.step keeps.older taken
  obtain ⟨flushed, switched, aged⟩ := represents.stacked.ordered.aged
  cases action with
  | write ops =>
    have entries := Db.write_entries taken
    have later : ∀ entry ∈ {entry | entry ∈ batchEntries (db.lastSequence + 1) ops},
        db.lastSequence < entry.sequence := fun entry inBatch =>
      (batchEntries_sequence_bounds inBatch).1
    have kept := represents.kept_of fun snapshot _ isBelow userKey value served =>
      served.union_later fun entry inBatch => isBelow.trans_lt (later entry inBatch)
    have current := served_batch (fun entry => aged.sequence_le) represents.current ops
    rw [← entries] at kept current
    obtain ⟨-, rfl⟩ := Lib.of_guard taken
    exact ⟨stacked', current, kept,
      fun snapshot member => (represents.bounded snapshot member).trans (Nat.le_add_right _ _),
      represents.ascending⟩
  | getSnapshot =>
    cases taken
    refine ⟨stacked', represents.current, ?_, ?_, ?_⟩
    · exact List.rel_append represents.kept (.cons represents.current .nil)
    · intro snapshot member
      rcases List.mem_append.mp member with old | new
      · exact represents.bounded snapshot old
      · exact (List.mem_singleton.mp new).le
    · refine List.pairwise_append.mpr ⟨represents.ascending, List.pairwise_singleton _ _, ?_⟩
      intro snapshot member last isLast
      rw [List.mem_singleton.mp isLast]
      exact represents.bounded snapshot member
  | releaseSnapshot index =>
    cases taken
    refine ⟨stacked', represents.current, ?_, ?_, ?_⟩
    · show List.Forall₂ _ (db.snapshots.eraseIdx index) (state.snapshots.eraseIdx index)
      rw [List.eraseIdx_eq_take_drop_succ, List.eraseIdx_eq_take_drop_succ]
      exact List.rel_append (List.forall₂_take index represents.kept)
        (List.forall₂_drop (index + 1) represents.kept)
    · exact fun snapshot member =>
        represents.bounded snapshot ((List.eraseIdx_sublist _ _).subset member)
    · exact represents.ascending.sublist (List.eraseIdx_sublist _ _)
  | _ => exact represents.unchanged keeps taken (by simp) (by simp) (by simp)

end Steps

/-! ### Reads -/

/-- `Get` returns what is served. -/
theorem Db.Stacked.get_eq {db : Db α β} (stacked : db.Stacked) (options : TableOptions α β φ)
    {userKey : α} {snapshot : Option Nat} {value : Option β}
    (served : Served db.entries userKey (snapshot.getD db.lastSequence) value) :
    (db.get options userKey snapshot).1 = ReadStatus.ofOption value := by
  obtain ⟨answer, answers, status⟩ := stacked.layered.get_answers options userKey snapshot
  rw [status, served.unique (answers.serves stacked.ordered.unique)]
  cases answer with
  | none => rfl
  | some entry =>
    by_cases deletion : entry.IsDeletion
    · rw [statusOf, if_pos deletion, Option.bind_some, Entry.carried, if_pos deletion]
      rfl
    · rw [statusOf, if_neg deletion, Option.bind_some, Entry.carried, if_neg deletion]
      rfl

/-- The reads of the database are those of the map: a read without a snapshot those of the current
map, a read at a snapshot those of the map that the snapshot has kept. -/
structure Db.ReadsMap (options : TableOptions α β φ) (db : Db α β) (state : MapState α β) :
    Prop where
  current : ∀ userKey, (db.get options userKey none).1 = ReadStatus.ofOption (state.current userKey)
  kept : List.Forall₂ (fun snapshot map => ∀ userKey,
    (db.get options userKey (some snapshot)).1 = ReadStatus.ofOption (map userKey))
      db.snapshots state.snapshots

theorem Db.Represents.readsMap {db : Db α β} {state : MapState α β}
    (represents : db.Represents state) (options : TableOptions α β φ) :
    db.ReadsMap options state where
  current := fun userKey => represents.stacked.get_eq options (represents.current userKey)
  kept := represents.kept.imp fun _ _ served userKey =>
    represents.stacked.get_eq options (served userKey)

/-! ### Runs -/

instance (options : Options α β) (db : Db α β) (action : Action α β) :
    Decidable (db.KeepsWhole options action) :=
  decidable_of_iff (db.KeepsOlder options action ∧
    (∀ compaction ∈ db.chosen options action, compaction.leavesOlderBelow = false) ∧
      ∀ compaction ∈ db.chosen options action,
        oldestSnapshot db.snapshots db.lastSequence < kMaxSequenceNumber)
    ⟨fun parts => ⟨parts.1, parts.2.1, parts.2.2⟩,
      fun keeps => ⟨keeps.older, keeps.below, keeps.bounded⟩⟩

/-- The map is represented after every run of steps that leave nothing older behind. -/
theorem represents_of_reachable [Inhabited β] {options : Options α β} {db : Db α β}
    {state : MapState α β}
    (reachable : Lib.Reachable (Db.stepWithMap options)
      (fun pair action => pair.1.KeepsWhole options action) (Db.empty, MapState.empty)
      (db, state)) :
    db.Represents state := by
  have kept : ∀ (pair : Db α β × MapState α β) action pair', pair.1.Represents pair.2 →
      pair.1.KeepsWhole options action → Db.stepWithMap options pair action = some pair' →
      pair'.1.Represents pair'.2 := by
    intro pair action pair' represents keeps taken
    obtain ⟨db, isStep, rfl⟩ := Option.map_eq_some_iff.mp taken
    exact represents.step keeps isStep
  have represents : (db, state).1.Represents (db, state).2 := by
    refine Lib.Reachable.invariant ?_ kept reachable
    exact empty_represents
  exact represents

/-- In every run in which no compaction leaves older entries of a user key behind, the reads of the
database are those of the map that the writes have made. -/
theorem get_reads_map [Inhabited β] (options : Options α β) (tableOptions : TableOptions α β φ)
    (db : Db α β) (state : MapState α β)
    (reachable : Lib.Reachable (Db.stepWithMap options)
      (fun pair action => pair.1.KeepsWhole options action) (Db.empty, MapState.empty)
      (db, state)) :
    db.ReadsMap tableOptions state :=
  (represents_of_reachable reachable).readsMap tableOptions

/-- Writes of one key around a snapshot, a flush, and a compaction of what is above it. -/
def snapshotActions : List (Action Nat Nat) :=
  [.write [.put 1 10, .put 2 20], .getSnapshot, .switchMemTable, .compactMemTable,
    .write [.delete 1, .put 2 21], .switchMemTable, .compactMemTable,
    .manualCompaction 1 none none, .write [.put 3 30]]

theorem get_reads_map_snapshot :
    ∃ (db : Db Nat Nat) (state : MapState Nat Nat),
      Lib.Reachable (Db.stepWithMap sizedOptions)
        (fun pair action => pair.1.KeepsWhole sizedOptions action) (Db.empty, MapState.empty)
        (db, state) ∧
      db.ReadsMap listedTableOptions state ∧ (db.version.files 2).length = 1 ∧
      (db.get listedTableOptions 2 none).1 = .ok 21 ∧
      state.snapshots.map (fun map => map 1) = [some 10] := by
  obtain ⟨⟨db, state⟩, reachable, outcome⟩ := Lib.exists_of_run
    (show (Lib.run (Db.stepWithMap sizedOptions)
      (fun pair action => pair.1.KeepsWhole sizedOptions action) (Db.empty, MapState.empty)
      snapshotActions).any (fun pair => decide ((pair.1.version.files 2).length = 1 ∧
        pair.2.current 2 = some 21 ∧ pair.2.snapshots.map (fun map => map 1) = [some 10])) = true by
      decide +kernel)
  obtain ⟨moved, current, kept⟩ := of_decide_eq_true outcome
  have reads := get_reads_map sizedOptions listedTableOptions db state reachable
  exact ⟨db, state, reachable, reads, moved, (reads.current 2).trans (congrArg _ current), kept⟩

end LevelDb
