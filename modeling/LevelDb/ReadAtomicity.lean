/-
This file proves that readers see whole batches. While the writer at the front inserts the
entries of its group one by one, with the mutex released, a reader that captures the last sequence
number, or reads at a snapshot taken that way, sees all entries of a batch or none of them,
whatever becomes of the log append and the sync. What it sees, and what `Get` returns to it, stays
the same however many entries are inserted into the memtable it holds.

Compactions are left out: they drop shadowed entries, and what that means for readers is treated
with them.
-/

import LevelDb.GroupCommit

namespace LevelDb

variable {α β : Type}

/-! ### What a reader sees -/

/-- The entries the reader can reach. -/
def WriteState.content (state : WriteState α β) (reader : Reader α β) : Set (Entry α β) :=
  {entry | entry ∈ state.memTable reader.memTable ∨ (∃ imm ∈ reader.imm, entry ∈ imm) ∨
    ∃ level, entry ∈ reader.version.levelEntries level}

/-- A read at the reader's sequence number sees the entry. -/
def WriteState.Sees (state : WriteState α β) (reader : Reader α β) (entry : Entry α β) : Prop :=
  entry ∈ state.content reader ∧ entry.sequence ≤ reader.sequence

/-- `Get` on what the reader has captured. -/
def WriteState.getFor {φ : Type} [LinearOrder α] (options : TableOptions α β φ)
    (state : WriteState α β) (reader : Reader α β) (userKey : α) : ReadStatus β :=
  (({ mem := state.memTable reader.memTable
      imm := reader.imm
      lastSequence := state.db.lastSequence
      snapshots := state.db.snapshots
      version := reader.version
      compactPointer := state.db.compactPointer
      nextFileNumber := state.db.nextFileNumber } : Db α β).get options userKey
        (some reader.sequence)).1

/-- The entries of each writer's batch, in a group that starts at a sequence number. -/
def carriedEntries [Inhabited β] (sequence : Nat) :
    List (Writer α β) → List (Writer α β × List (Entry α β))
  | [] => []
  | writer :: rest =>
    (writer, batchEntries sequence writer.ops) ::
      carriedEntries (sequence + writer.ops.length) rest

/-- All groups built so far. -/
def WriteState.allGroups (state : WriteState α β) : List (Group α β) :=
  state.groups ++ state.phase.group.toList

/-- A captured memtable keeps its place when the leader switches to a new one. -/
theorem memTable_switch (frozen : List (List (Entry α β))) (mem : List (Entry α β)) {index : Nat}
    (bound : index ≤ frozen.length) :
    ((frozen ++ [mem] ++ [[]])[index]?).getD [] = ((frozen ++ [mem])[index]?).getD [] := by
  rw [List.getElem?_append_left (by rw [List.length_append, List.length_singleton]; omega)]

theorem memTable_last (frozen : List (List (Entry α β))) (mem : List (Entry α β)) :
    ((frozen ++ [mem])[frozen.length]?).getD [] = mem := by
  rw [List.getElem?_concat_length, Option.getD_some]

theorem memTable_frozen (frozen : List (List (Entry α β))) (mem mem' : List (Entry α β))
    {index : Nat} (bound : index < frozen.length) :
    ((frozen ++ [mem])[index]?).getD [] = ((frozen ++ [mem'])[index]?).getD [] := by
  rw [List.getElem?_append_left bound, List.getElem?_append_left bound]

/-- Adding an entry to the current memtable shows in that memtable only. -/
theorem mem_memTable_add [LinearOrder α] {frozen : List (List (Entry α β))}
    {mem : List (Entry α β)} {entry other : Entry α β} {index : Nat}
    (bound : index ≤ frozen.length) :
    other ∈ ((frozen ++ [memTableAdd mem entry])[index]?).getD [] ↔
      other ∈ ((frozen ++ [mem])[index]?).getD [] ∨ index = frozen.length ∧ other = entry := by
  rcases bound.lt_or_eq with earlier | rfl
  · rw [memTable_frozen frozen (memTableAdd mem entry) mem earlier]
    simp [ne_of_lt earlier]
  · rw [memTable_last, memTable_last, (memTableAdd_perm mem entry).mem_iff, List.mem_cons, or_comm]
    simp

theorem batchEntries_append [Inhabited β] (sequence : Nat) (first second : List (WriteOp α β)) :
    batchEntries sequence (first ++ second) =
      batchEntries sequence first ++ batchEntries (sequence + first.length) second := by
  induction first generalizing sequence with
  | nil => rfl
  | cons op rest inductionHypothesis =>
    rw [List.cons_append, batchEntries, batchEntries, inductionHypothesis, List.length_cons,
      List.cons_append, Nat.add_assoc, Nat.add_comm 1]

theorem mem_of_carriedEntries [Inhabited β] {sequence : Nat} {writers : List (Writer α β)}
    {pair : Writer α β × List (Entry α β)} (carried : pair ∈ carriedEntries sequence writers)
    {entry : Entry α β} (member : entry ∈ pair.2) :
    entry ∈ batchEntries sequence (writers.flatMap Writer.ops) := by
  induction writers generalizing sequence with
  | nil => exact absurd carried List.not_mem_nil
  | cons writer rest inductionHypothesis =>
    rw [List.flatMap_cons, batchEntries_append]
    rcases List.mem_cons.mp carried with rfl | tail
    · exact List.mem_append_left _ member
    · exact List.mem_append_right _ (inductionHypothesis tail)

/-- The entries of a batch come in the order of their sequence numbers. -/
theorem batchEntries_ascending [Inhabited β] {sequence done : Nat} {ops : List (WriteOp α β)}
    {entry earlier : Entry α β} (next : (batchEntries sequence ops)[done]? = some entry)
    (before : earlier ∈ (batchEntries sequence ops).take done) :
    earlier.sequence < entry.sequence := by
  have ascending : (batchEntries sequence ops).Pairwise
      fun first second => first.sequence < second.sequence := by
    rw [← List.pairwise_map, map_sequence_batchEntries]
    exact List.pairwise_lt_range'
  rw [← List.take_append_drop done (batchEntries sequence ops)] at ascending
  have inDrop : entry ∈ (batchEntries sequence ops).drop done := by
    rw [List.mem_iff_getElem?]
    exact ⟨0, by rw [List.getElem?_drop]; exact next⟩
  exact (List.pairwise_append.mp ascending).2.2 earlier before entry inDrop

/-- The entries of a well formed group lie in its range of sequence numbers. -/
theorem Group.Formed.entry_bounds [Inhabited β] {group : Group α β} (formed : group.Formed)
    {entry : Entry α β} (member : entry ∈ group.updates.entries) :
    group.updates.sequence ≤ entry.sequence ∧ entry.sequence < group.next := by
  have bounds := batchEntries_sequence_bounds member
  rw [← show group.updates.count = group.updates.ops.length from formed.wellFormed] at bounds
  exact bounds

theorem Numbered.bounds {start last : Nat} {groups : List (Group α β)}
    (numbered : Numbered start groups last) : start ≤ last ∧ ∀ group ∈ groups,
      start < group.updates.sequence ∧ group.next ≤ last + 1 := by
  induction groups generalizing start with
  | nil => exact ⟨le_of_eq (show last = start from numbered).symm, nofun⟩
  | cons first rest inductionHypothesis =>
    obtain ⟨next, tail⟩ := numbered
    obtain ⟨order, bounds⟩ := inductionHypothesis tail
    refine ⟨(Nat.le_add_right _ _).trans order, List.forall_mem_cons.mpr ⟨⟨by omega, ?_⟩, ?_⟩⟩
    · unfold Group.next
      omega
    · intro group member
      exact ⟨(Nat.le_add_right _ _).trans_lt (bounds group member).1, (bounds group member).2⟩

/-- Numbered groups have ranges of their own. -/
theorem Numbered.pairwise {start last : Nat} {groups : List (Group α β)}
    (numbered : Numbered start groups last) :
    groups.Pairwise fun first second => first.next ≤ second.updates.sequence := by
  induction groups generalizing start with
  | nil => exact List.Pairwise.nil
  | cons first rest inductionHypothesis =>
    obtain ⟨next, tail⟩ := numbered
    refine List.pairwise_cons.mpr ⟨fun group member => ?_, inductionHypothesis tail⟩
    have later := (tail.bounds.2 group member).1
    unfold Group.next
    omega

theorem mem_of_popWriters {last : Nat} {queue : List (Writer α β)} {writer : Writer α β}
    (left : writer ∈ (popWriters last queue).2) : writer ∈ queue := by
  induction queue with
  | nil => exact left
  | cons first rest inductionHypothesis =>
    rw [popWriters] at left
    split at left
    · exact List.mem_cons_of_mem _ left
    · exact List.mem_cons_of_mem _ (inductionHypothesis left)

/-! ### The invariant -/

section Invariant

variable [Inhabited β]

/-- The entries of the group on its way that are in the memtable. -/
def Phase.insertedNow : Phase α β → List (Entry α β)
  | .inserting group done => group.updates.entries.take done
  | .finishing (some group) .ok _ => group.updates.entries
  | _ => []

/-- The entries of the groups that ended well. -/
def WriteState.committed (state : WriteState α β) : List (Entry α β) :=
  (state.finished.filter fun pair => pair.2 = .ok).flatMap fun pair => pair.1.updates.entries

/-- The sequence number splits no finished group. -/
def WriteState.Boundary (state : WriteState α β) (sequence : Nat) : Prop :=
  sequence ≤ state.db.lastSequence ∧ ∀ group ∈ state.groups,
    group.next ≤ sequence + 1 ∨ sequence < group.updates.sequence

/-- Where an entry can come from: from before the run, from a group that ended well or from the
group being inserted. -/
def WriteState.Known (state : WriteState α β) (start : Nat) (entry : Entry α β) : Prop :=
  entry.sequence ≤ start ∨ entry ∈ state.committed ++ state.phase.insertedNow

/-- A memtable is sorted and its entries parse. -/
structure MemOk [LinearOrder α] (mem : List (Entry α β)) : Prop where
  sorted : Sorted mem
  parses : ∀ entry ∈ mem, entry.Parses

/-- The invariant of the write path for readers. -/
structure WriteState.ReadInv [LinearOrder α] (start : Nat) (state : WriteState α β) : Prop where
  batches : ∀ writer ∈ state.queue, ∀ batch ∈ writer.batch, batch.WellFormed
  formed : ∀ group ∈ state.allGroups, group.Formed
  numbered : Numbered start state.groups state.db.lastSequence
  current : ∀ group ∈ state.phase.group, group.updates.sequence = state.db.lastSequence + 1
  stored : ∀ entry ∈ state.committed ++ state.phase.insertedNow, entry ∈ state.db.entries
  known : ∀ entry ∈ state.db.entries, state.Known start entry
  memTables : ∀ mem ∈ state.frozen ++ [state.db.mem], MemOk mem
  snapshots : ∀ sequence ∈ state.db.snapshots, state.Boundary sequence
  readers : ∀ reader ∈ state.readers, state.Boundary reader.sequence ∧
    reader.memTable ≤ state.frozen.length ∧
    (∀ entry ∈ state.committed, entry.sequence ≤ reader.sequence → entry ∈ state.content reader) ∧
    ∀ entry ∈ state.content reader, state.Known start entry

variable [LinearOrder α]

/-- What a database is opened with: the memtable is in order and nothing is newer than the last
sequence number. -/
structure Db.Opened (db : Db α β) : Prop where
  mem : MemOk db.mem
  entries : ∀ entry ∈ db.entries, entry.sequence ≤ db.lastSequence
  snapshots : ∀ sequence ∈ db.snapshots, sequence ≤ db.lastSequence

theorem WriteState.start_readInv {db : Db α β} (opened : db.Opened) (logNumber : Nat) :
    (WriteState.start db logNumber).ReadInv db.lastSequence where
  batches := nofun
  formed := nofun
  numbered := rfl
  current := nofun
  stored := nofun
  known := fun entry member => Or.inl (opened.entries entry member)
  memTables := List.forall_mem_singleton.mpr opened.mem
  snapshots := fun sequence member => ⟨opened.snapshots sequence member, nofun⟩
  readers := nofun

variable {state : WriteState α β} {start : Nat}

/-- The leader moves on without touching the memtable. -/
theorem WriteState.ReadInv.setPhase
    (inv : state.ReadInv start) {phase : Phase α β} (log : List (LogRecord α β))
    (current : ∀ group ∈ phase.group, group.Formed ∧
      group.updates.sequence = state.db.lastSequence + 1)
    (same : phase.insertedNow = state.phase.insertedNow) :
    ({ state with phase := phase, log := log } : WriteState α β).ReadInv start := by
  have known : ∀ entry, state.Known start entry →
      ({ state with phase := phase, log := log } : WriteState α β).Known start entry := by
    intro entry isKnown
    unfold WriteState.Known
    show entry.sequence ≤ start ∨ entry ∈ state.committed ++ phase.insertedNow
    rw [same]
    exact isKnown
  exact { inv with
    formed := by
      show ∀ group ∈ state.groups ++ phase.group.toList, group.Formed
      refine List.forall_mem_append.mpr ⟨fun group member => inv.formed group
        (List.mem_append_left _ member), fun group member => (current group ?_).1⟩
      simpa using member
    current := fun group isGroup => (current group isGroup).2
    stored := by
      show ∀ entry ∈ state.committed ++ phase.insertedNow, entry ∈ state.db.entries
      rw [same]
      exact inv.stored
    known := fun entry member => known entry (inv.known entry member)
    readers := by
      intro reader member
      obtain ⟨boundary, index, committed, content⟩ := inv.readers reader member
      exact ⟨boundary, index, committed, fun entry inContent => known entry
        (content entry inContent)⟩ }

theorem WriteState.ReadInv.arrive (inv : state.ReadInv start) {writer : Writer α β}
    (formed : ∀ batch ∈ writer.batch, batch.WellFormed) (arrived : List (Writer α β)) :
    ({ state with queue := state.queue ++ [writer], arrived := arrived } :
      WriteState α β).ReadInv start :=
  { inv with
    batches := List.forall_mem_append.mpr ⟨inv.batches, List.forall_mem_singleton.mpr formed⟩ }

theorem WriteState.ReadInv.switchMemTable
    (inv : state.ReadInv start) (empty : state.db.imm = none) (logNumber nextFileNumber : Nat) :
    ({ state with
      db := { state.db with
        mem := []
        imm := some state.db.mem
        nextFileNumber := nextFileNumber }
      frozen := state.frozen ++ [state.db.mem]
      logNumber := logNumber } : WriteState α β).ReadInv start := by
  set switched : Db α β := { state.db with
    mem := []
    imm := some state.db.mem
    nextFileNumber := nextFileNumber } with switchedEq
  have entries : switched.entries = state.db.entries := by
    ext entry
    simp [Db.entries, switchedEq, empty]
  have content : ∀ reader : Reader α β, reader.memTable ≤ state.frozen.length →
      ({ state with
        db := switched
        frozen := state.frozen ++ [state.db.mem]
        logNumber := logNumber } : WriteState α β).content reader = state.content reader := by
    intro reader bound
    unfold WriteState.content WriteState.memTable
    ext entry
    rw [Set.mem_ofPred_eq, Set.mem_ofPred_eq]
    exact or_congr_left (by rw [show switched.mem = [] from rfl, memTable_switch _ _ bound])
  exact { inv with
    stored := fun entry member => entries ▸ inv.stored entry member
    known := fun entry member => inv.known entry (entries ▸ member)
    memTables := by
      show ∀ mem ∈ state.frozen ++ [state.db.mem] ++ [[]], MemOk mem
      refine List.forall_mem_append.mpr ⟨inv.memTables, List.forall_mem_singleton.mpr ?_⟩
      exact ⟨List.Pairwise.nil, List.forall_mem_nil _⟩
    readers := by
      intro reader member
      obtain ⟨boundary, index, committed, known⟩ := inv.readers reader member
      refine ⟨boundary, ?_, ?_, ?_⟩
      · show reader.memTable ≤ (state.frozen ++ [state.db.mem]).length
        rw [List.length_append]
        exact index.trans (Nat.le_add_right _ _)
      · intro entry isCommitted visible
        rw [content reader index]
        exact committed entry isCommitted visible
      · intro entry inContent
        rw [content reader index] at inContent
        exact known entry inContent }

variable {entry : Entry α β} {group : Group α β}

/-- Every entry of the database is older than the next one of the group being inserted. -/
theorem WriteState.ReadInv.older (inv : state.ReadInv start) {done : Nat}
    (phase : state.phase = .inserting group done)
    (next : group.updates.entries[done]? = some entry) {other : Entry α β}
    (known : state.Known start other) : other.sequence < entry.sequence := by
  have isCurrent : group ∈ state.phase.group := by rw [phase]; rfl
  have formed := inv.formed group (List.mem_append_right _ (by simpa using isCurrent))
  have lower := (formed.entry_bounds (List.mem_of_getElem? next)).1
  have sequence := inv.current group isCurrent
  obtain ⟨order, bounds⟩ := inv.numbered.bounds
  rcases known with old | new
  · omega
  · rcases List.mem_append.mp new with isCommitted | inserted
    · obtain ⟨⟨earlier, status⟩, isFinished, inEarlier⟩ := List.mem_flatMap.mp isCommitted
      have isGroup : earlier ∈ state.groups := List.mem_map_of_mem (List.mem_of_mem_filter isFinished)
      have upper := ((inv.formed earlier (List.mem_append_left _ isGroup)).entry_bounds
        inEarlier).2
      have limit := (bounds earlier isGroup).2
      omega
    · rw [phase] at inserted
      exact batchEntries_ascending next inserted

theorem WriteState.ReadInv.insert (inv : state.ReadInv start) {done : Nat}
    (phase : state.phase = .inserting group done)
    (next : group.updates.entries[done]? = some entry) :
    ({ state with
      db := { state.db with mem := memTableAdd state.db.mem entry }
      added := state.added ++ [entry]
      phase := .inserting group (done + 1) } : WriteState α β).ReadInv start := by
  have isCurrent : group ∈ state.phase.group := by rw [phase]; rfl
  have inserted : state.phase.insertedNow ++ [entry] = group.updates.entries.take (done + 1) := by
    rw [phase, List.take_add_one, next, Option.toList_some]
    rfl
  have known : ∀ other, state.Known start other ∨ other = entry → other.sequence ≤ start ∨
      other ∈ state.committed ++ group.updates.entries.take (done + 1) := by
    rw [← inserted, ← List.append_assoc]
    rintro other ((old | new) | rfl)
    · exact Or.inl old
    · exact Or.inr (List.mem_append_left _ new)
    · exact Or.inr (List.mem_append_right _ (List.mem_singleton.mpr rfl))
  have entries : ∀ other,
      other ∈ ({ state.db with mem := memTableAdd state.db.mem entry } : Db α β).entries ↔
        other ∈ state.db.entries ∨ other = entry := by
    intro other
    simp only [Db.entries, Set.mem_ofPred_eq, (memTableAdd_perm state.db.mem entry).mem_iff,
      List.mem_cons]
    rw [or_assoc, or_comm]
  exact { inv with
    formed := by
      show ∀ other ∈ state.groups ++ [group], other.Formed
      have formed := inv.formed
      unfold WriteState.allGroups at formed
      rw [phase] at formed
      exact formed
    current := by
      rintro other ⟨rfl⟩
      exact inv.current group isCurrent
    stored := by
      show ∀ other ∈ state.committed ++ group.updates.entries.take (done + 1), _
      rw [← inserted, ← List.append_assoc]
      refine List.forall_mem_append.mpr ⟨fun other member => ?_, List.forall_mem_singleton.mpr ?_⟩
      · exact (entries other).mpr (Or.inl (inv.stored other member))
      · exact (entries entry).mpr (Or.inr rfl)
    known := fun other member => known other (((entries other).mp member).imp_left
      (inv.known other))
    memTables := by
      show ∀ mem ∈ state.frozen ++ [memTableAdd state.db.mem entry], MemOk mem
      obtain ⟨frozen, current⟩ := List.forall_mem_append.mp inv.memTables
      obtain ⟨sorted, parses⟩ := List.forall_mem_singleton.mp current
      refine List.forall_mem_append.mpr ⟨frozen, List.forall_mem_singleton.mpr ⟨?_, ?_⟩⟩
      · refine memTableAdd_sorted sorted fun other member => ?_
        exact sequence_ne_key_ne (inv.older phase next (inv.known other (Or.inl member)))
      · intro other member
        rcases List.mem_cons.mp ((memTableAdd_perm _ _).mem_iff.mp member) with rfl | old
        · exact batchEntries_parses (List.mem_of_getElem? next)
        · exact parses other old
    readers := by
      intro reader member
      obtain ⟨boundary, index, committed, content⟩ := inv.readers reader member
      refine ⟨boundary, index, fun other isCommitted visible => ?_, fun other inContent =>
        known other ?_⟩
      · refine (committed other isCommitted visible).imp_left fun inMem => ?_
        exact (mem_memTable_add index).mpr (Or.inl inMem)
      · rcases inContent with inMem | rest
        · exact ((mem_memTable_add index).mp inMem).imp (fun old => content other (Or.inl old))
            fun new => new.2
        · exact Or.inl (content other (Or.inr rest)) }

/-- The last sequence number splits no group. -/
theorem WriteState.ReadInv.boundary_last
    (inv : state.ReadInv start) : state.Boundary state.db.lastSequence :=
  ⟨le_rfl, fun group member => Or.inl (inv.numbered.bounds.2 group member).2⟩

theorem WriteState.ReadInv.finish {start : Nat} {state : WriteState α β}
    (inv : state.ReadInv start) {group : Option (Group α β)} {status : WriteStatus}
    {syncError : Bool} (phase : state.phase = .finishing group status syncError) (last : Nat)
    (bgError : Bool) (returned : List (Writer α β × WriteStatus)) :
    ({ state with
      db := { state.db with
        lastSequence := (group.map fun group => group.next - 1).getD state.db.lastSequence }
      bgError := bgError
      queue := (popWriters last state.queue).2
      phase := .waiting
      finished := state.finished ++ (group.map fun group => (group, status)).toList
      returned := returned } : WriteState α β).ReadInv start := by
  set finished := state.finished ++ (group.map fun group => (group, status)).toList with finishedEq
  set lastSequence := (group.map fun group => group.next - 1).getD state.db.lastSequence
    with lastEq
  have isGroup : state.phase.group = group := by rw [phase]; rfl
  have groups : finished.map Prod.fst = state.groups ++ group.toList := by
    rw [finishedEq, List.map_append]
    cases group <;> rfl
  have committed : ((finished.filter fun pair => pair.2 = .ok).flatMap
      fun pair => pair.1.updates.entries) = state.committed ++ state.phase.insertedNow := by
    rw [finishedEq, List.filter_append, List.flatMap_append, phase]
    refine congrArg (state.committed ++ ·) ?_
    cases group with
    | none => rfl
    | some built => cases status <;> simp [Phase.insertedNow]
  have next : ∀ built ∈ group, built.updates.sequence = state.db.lastSequence + 1 :=
    isGroup ▸ inv.current
  have grows : state.db.lastSequence ≤ lastSequence := by
    rw [lastEq]
    cases group with
    | none => exact le_rfl
    | some built =>
      have isNext := next built rfl
      show state.db.lastSequence ≤ built.next - 1
      unfold Group.next
      omega
  have boundary : ∀ sequence, state.Boundary sequence → sequence ≤ lastSequence ∧
      ∀ built ∈ finished.map Prod.fst,
        built.next ≤ sequence + 1 ∨ sequence < built.updates.sequence := by
    rintro sequence ⟨bound, splitsNone⟩
    rw [groups]
    refine ⟨bound.trans grows, List.forall_mem_append.mpr ⟨splitsNone, fun built member => ?_⟩⟩
    have isNext := next built (by simpa using member)
    exact Or.inr (by omega)
  have known : ∀ entry, state.Known start entry → entry.sequence ≤ start ∨
      entry ∈ ((finished.filter fun pair => pair.2 = .ok).flatMap
        fun pair => pair.1.updates.entries) ++ [] := by
    rw [committed, List.append_nil]
    exact fun entry isKnown => isKnown
  exact { inv with
    batches := fun writer member => inv.batches writer (mem_of_popWriters member)
    formed := by
      show ∀ built ∈ finished.map Prod.fst ++ [], built.Formed
      rw [groups, List.append_nil, ← isGroup]
      exact inv.formed
    numbered := by
      show Numbered start (finished.map Prod.fst) lastSequence
      rw [groups, lastEq]
      cases group with
      | none =>
        rw [Option.toList_none, List.append_nil]
        exact inv.numbered
      | some built =>
        have isNext := next built rfl
        have isLast : built.next - 1 = state.db.lastSequence + built.updates.count := by
          unfold Group.next
          omega
        show Numbered start (state.groups ++ [built]) (built.next - 1)
        rw [isLast]
        exact inv.numbered.append isNext
    current := nofun
    stored := by
      show ∀ entry ∈ ((finished.filter fun pair => pair.2 = .ok).flatMap
        fun pair => pair.1.updates.entries) ++ [], entry ∈ state.db.entries
      rw [committed, List.append_nil]
      exact inv.stored
    known := fun entry member => known entry (inv.known entry member)
    memTables := inv.memTables
    snapshots := fun sequence member => boundary sequence (inv.snapshots sequence member)
    readers := by
      intro reader member
      obtain ⟨isBoundary, index, seen, content⟩ := inv.readers reader member
      refine ⟨boundary reader.sequence isBoundary, index, ?_, fun entry inContent =>
        known entry (content entry inContent)⟩
      show ∀ entry ∈ (finished.filter fun pair => pair.2 = .ok).flatMap
        (fun pair => pair.1.updates.entries), entry.sequence ≤ reader.sequence →
          entry ∈ state.content reader
      rw [committed]
      refine List.forall_mem_append.mpr ⟨seen, fun entry inserted visible => ?_⟩
      have tooNew : state.db.lastSequence < entry.sequence := by
        rw [phase] at inserted
        cases group with
        | none => exact absurd inserted List.not_mem_nil
        | some built =>
          have inGroup : entry ∈ built.updates.entries := by
            cases status with
            | ok => exact inserted
            | _ => exact absurd inserted List.not_mem_nil
          have formed := inv.formed built (List.mem_append_right _ (by rw [isGroup]; simp))
          have lower := (formed.entry_bounds inGroup).1
          have isNext := next built rfl
          omega
      exact absurd (visible.trans isBoundary.1) (not_le_of_gt tooNew) }

theorem WriteState.ReadInv.read (inv : state.ReadInv start) {sequence : Nat}
    (taken : sequence = state.db.lastSequence ∨ sequence ∈ state.db.snapshots) :
    ({ state with readers := state.readers ++
        [⟨sequence, state.frozen.length, state.db.imm, state.db.version⟩] } :
      WriteState α β).ReadInv start := by
  have boundary : state.Boundary sequence := by
    rcases taken with rfl | isSnapshot
    · exact inv.boundary_last
    · exact inv.snapshots sequence isSnapshot
  have content : state.content
      ⟨sequence, state.frozen.length, state.db.imm, state.db.version⟩ = state.db.entries := by
    unfold WriteState.content WriteState.memTable
    rw [memTable_last]
    rfl
  exact { inv with
    readers := by
      refine List.forall_mem_append.mpr ⟨inv.readers, List.forall_mem_singleton.mpr
        ⟨boundary, le_rfl, fun entry isCommitted _ => ?_, fun entry inContent => ?_⟩⟩
      · show entry ∈ state.content _
        rw [content]
        exact inv.stored entry (List.mem_append_left _ isCommitted)
      · change entry ∈ state.content _ at inContent
        rw [content] at inContent
        exact inv.known entry inContent }

/-- The step is no compaction. -/
def Action.keepsEntries : Action α β → Bool
  | .backgroundCompaction => false
  | .manualCompaction _ _ _ => false
  | _ => true

variable {options : Options α β}

/-- Beside the writers, and without compactions, the database keeps its entries. -/
theorem Db.step_keepsEntries {db db' : Db α β} {action : Action α β}
    (isBeside : action.besideWrite = true) (keeps : action.keepsEntries = true)
    (taken : db.step options action = some db') :
    db'.entries = db.entries ∧
      ∀ sequence ∈ db'.snapshots, sequence ∈ db.snapshots ∨ sequence = db.lastSequence := by
  cases action with
  | write ops => cases isBeside
  | switchMemTable => cases isBeside
  | getSnapshot =>
    cases taken
    refine ⟨rfl, fun sequence member => ?_⟩
    exact (List.mem_append.mp member).imp id List.mem_singleton.mp
  | releaseSnapshot index =>
    cases taken
    exact ⟨rfl, fun sequence member => Or.inl (List.mem_of_mem_eraseIdx member)⟩
  | compactMemTable =>
    obtain ⟨imm, isImm, rfl⟩ := Option.map_eq_some_iff.mp taken
    refine ⟨?_, fun sequence member => Or.inl member⟩
    ext entry
    simp only [Db.entries, Set.mem_ofPred_eq, isImm]
    refine or_congr_right ?_
    have flushed : (∃ level, entry ∈ (db.version.applyEdit
        (writeLevel0Table options (some db.version) db.nextFileNumber imm {})).levelEntries level) ↔
          (∃ level, entry ∈ db.version.levelEntries level) ∨ entry ∈ imm := levelEntries_flush_iff
    constructor
    · rintro (⟨other, isNone, _⟩ | inVersion)
      · cases isNone
      · exact (flushed.mp inVersion).symm.imp_left fun inImm => ⟨imm, rfl, inImm⟩
    · rintro (⟨other, ⟨rfl⟩, inImm⟩ | inVersion)
      · exact Or.inr (flushed.mpr (Or.inr inImm))
      · exact Or.inr (flushed.mpr (Or.inl inVersion))
  | chargeSeek level index =>
    rw [Db.step, Db.chargeSeek] at taken
    split at taken
    · obtain ⟨file, _, rfl⟩ := Option.map_eq_some_iff.mp taken
      exact ⟨rfl, fun sequence member => Or.inl member⟩
    · cases taken
  | backgroundCompaction => cases keeps
  | manualCompaction level first last => cases keeps

theorem WriteState.ReadInv.other (inv : state.ReadInv start) {action : Action α β}
    (isBeside : action.besideWrite = true) (keeps : action.keepsEntries = true) {db : Db α β}
    (taken : state.db.step options action = some db) :
    ({ state with db := db } : WriteState α β).ReadInv start := by
  obtain ⟨mem, lastSequence⟩ := Db.step_besideWrite isBeside taken
  obtain ⟨entries, snapshots⟩ := Db.step_keepsEntries isBeside keeps taken
  have boundary : ∀ sequence, state.Boundary sequence →
      ({ state with db := db } : WriteState α β).Boundary sequence := by
    rintro sequence ⟨bound, splitsNone⟩
    exact ⟨lastSequence ▸ bound, splitsNone⟩
  have content : ∀ reader, ({ state with db := db } : WriteState α β).content reader =
      state.content reader := by
    intro reader
    unfold WriteState.content WriteState.memTable
    rw [mem]
  exact { inv with
    numbered := by
      show Numbered start state.groups db.lastSequence
      rw [lastSequence]
      exact inv.numbered
    current := by
      intro group isGroup
      show _ = db.lastSequence + 1
      rw [lastSequence]
      exact inv.current group isGroup
    stored := fun entry member => entries ▸ inv.stored entry member
    known := fun entry member => inv.known entry (entries ▸ member)
    memTables := by
      show ∀ other ∈ state.frozen ++ [db.mem], MemOk other
      rw [mem]
      exact inv.memTables
    snapshots := by
      intro sequence member
      rcases snapshots sequence member with old | rfl
      · exact boundary sequence (inv.snapshots sequence old)
      · exact boundary _ inv.boundary_last
    readers := by
      intro reader member
      obtain ⟨isBoundary, index, seen, known⟩ := inv.readers reader member
      refine ⟨boundary _ isBoundary, index, ?_, ?_⟩
      · rw [content reader]
        exact seen
      · rw [content reader]
        exact known }

/-- The step is one of a run with well formed batches and without compactions. The log operations
may fail. -/
def WriteAction.wellFormed : WriteAction α β → Bool
  | .arrive batch _ => batch.all fun batch => decide batch.WellFormed
  | .other action => action.keepsEntries
  | _ => true

theorem WriteState.ReadInv.step {start : Nat} {options : Options α β}
    {opSize : WriteOp α β → Nat} {state state' : WriteState α β} (inv : state.ReadInv start)
    {action : WriteAction α β} (isFormed : action.wellFormed = true)
    (taken : state.step options opSize action = some state') : state'.ReadInv start := by
  have currentFormed : ∀ group ∈ state.phase.group, group.Formed ∧
      group.updates.sequence = state.db.lastSequence + 1 := fun group isGroup =>
    ⟨inv.formed group (List.mem_append_right _ (by simpa using isGroup)), inv.current group isGroup⟩
  cases WriteState.step_moves taken with
  | arrive batch sync =>
    refine inv.arrive (fun own isOwn => ?_) _
    have all : batch.all (fun batch => decide batch.WellFormed) = true := isFormed
    rw [show batch = some own from isOwn] at all
    simpa using all
  | lead phase nonempty => exact inv.setPhase state.log nofun (by rw [phase]; rfl)
  | switchMemTable phase empty => exact inv.switchMemTable empty _ _
  | leaves action status phase reason => exact inv.setPhase state.log nofun (by rw [phase]; rfl)
  | group first rest batch phase queue isBatch =>
    refine inv.setPhase state.log ?_ (by rw [phase]; rfl)
    rintro group ⟨rfl⟩
    exact ⟨(buildBatchGroup_spec opSize isBatch (queue ▸ inv.batches) _).1, rfl⟩
  | append group phase =>
    rw [phase] at currentFormed
    refine inv.setPhase _ ?_ ?_
    · unfold Phase.afterAppend
      split <;> exact currentFormed
    · rw [phase]
      unfold Phase.afterAppend
      split <;> rfl
  | appendFails group phase =>
    rw [phase] at currentFormed
    exact inv.setPhase state.log currentFormed (by rw [phase]; rfl)
  | sync group phase =>
    rw [phase] at currentFormed
    refine inv.setPhase state.log ?_ (by rw [phase]; rfl)
    rintro other ⟨rfl⟩
    exact ⟨(currentFormed group rfl).1.sameAs ⟨rfl, rfl⟩, (currentFormed group rfl).2⟩
  | syncFails group phase =>
    rw [phase] at currentFormed
    exact inv.setPhase state.log currentFormed (by rw [phase]; rfl)
  | insert group done entry phase next => exact inv.insert phase next
  | inserted group done phase all =>
    rw [phase] at currentFormed
    refine inv.setPhase state.log currentFormed ?_
    have isOk : group.updates.iterateStatus = .ok :=
      if_pos (currentFormed group rfl).1.wellFormed.symm
    rw [phase, isOk]
    exact (List.take_of_length_le (List.getElem?_eq_none_iff.mp all)).symm
  | finish group status syncError last phase isLast => exact inv.finish phase last.id _ _
  | read snapshot sequence isTaken => exact inv.read isTaken
  | other action isBeside db stepped => exact inv.other isBeside isFormed stepped

omit [LinearOrder α] in
theorem Phase.insertedNow_sub {phase : Phase α β}
    (member : entry ∈ phase.insertedNow) : ∃ group ∈ phase.group, entry ∈ group.updates.entries := by
  cases phase with
  | inserting group done => exact ⟨group, rfl, List.mem_of_mem_take member⟩
  | finishing group status syncError =>
    cases group with
    | none => exact absurd member List.not_mem_nil
    | some built =>
      cases status with
      | ok => exact ⟨built, rfl, member⟩
      | _ => exact absurd member List.not_mem_nil
  | _ => exact absurd member List.not_mem_nil

/-- No entry of a group that failed is anywhere. -/
theorem WriteState.ReadInv.failed_unknown (inv : state.ReadInv start) {status : WriteStatus}
    (isFinished : (group, status) ∈ state.finished) (failed : status ≠ .ok)
    (member : entry ∈ group.updates.entries) : ¬ state.Known start entry := by
  have isGroup : group ∈ state.groups := List.mem_map_of_mem isFinished
  have formed : ∀ other ∈ state.groups, other.Formed := fun other isOther =>
    inv.formed other (List.mem_append_left _ isOther)
  obtain ⟨lower, upper⟩ := (formed group isGroup).entry_bounds member
  obtain ⟨first, limit⟩ := inv.numbered.bounds.2 group isGroup
  rintro (old | new)
  · omega
  · rcases List.mem_append.mp new with isCommitted | inserted
    · obtain ⟨⟨other, otherStatus⟩, inFilter, inOther⟩ := List.mem_flatMap.mp isCommitted
      obtain ⟨otherFinished, isOk⟩ := List.mem_filter.mp inFilter
      have apart : state.finished.Pairwise fun first second =>
          first.1.next ≤ second.1.updates.sequence ∨ second.1.next ≤ first.1.updates.sequence :=
        (List.pairwise_map.mp inv.numbered.pairwise).imp Or.inl
      have symmetric : Std.Symm fun first second : Group α β × WriteStatus =>
          first.1.next ≤ second.1.updates.sequence ∨ second.1.next ≤ first.1.updates.sequence :=
        ⟨fun _ _ order => order.symm⟩
      have different : (group, status) ≠ (other, otherStatus) := by
        intro same
        have statusOk : otherStatus = .ok := by simpa using isOk
        exact failed ((congrArg Prod.snd same).trans statusOk)
      have bounds := (formed other (List.mem_map_of_mem otherFinished)).entry_bounds inOther
      rcases apart.forall isFinished otherFinished different with before | after
      · change group.next ≤ other.updates.sequence at before
        omega
      · change other.next ≤ group.updates.sequence at after
        omega
    · obtain ⟨current, isCurrent, inCurrent⟩ := Phase.insertedNow_sub inserted
      have currentFormed := inv.formed current (List.mem_append_right _ (by simpa using isCurrent))
      have later := (currentFormed.entry_bounds inCurrent).1
      have sequence := inv.current current isCurrent
      omega

variable {reader : Reader α β}

/-- A reader sees all entries of a group or none. -/
theorem WriteState.ReadInv.all_or_none
    (inv : state.ReadInv start) (isReader : reader ∈ state.readers)
    (isGroup : group ∈ state.allGroups) :
    (∀ entry ∈ group.updates.entries, state.Sees reader entry) ∨
      ∀ entry ∈ group.updates.entries, ¬ state.Sees reader entry := by
  obtain ⟨⟨bound, splitsNone⟩, _, seen, known⟩ := inv.readers reader isReader
  have formed := inv.formed group isGroup
  have tooNew : reader.sequence < group.updates.sequence →
      ∀ entry ∈ group.updates.entries, ¬ state.Sees reader entry := fun later entry member sees =>
    absurd (later.trans_le (formed.entry_bounds member).1) (not_lt_of_ge sees.2)
  rcases List.mem_append.mp isGroup with isFinished | isCurrent
  · rcases splitsNone group isFinished with visible | later
    · obtain ⟨⟨built, status⟩, member, rfl⟩ := List.mem_map.mp isFinished
      by_cases isOk : status = .ok
      · refine Or.inl fun entry inGroup => ?_
        have upper := (formed.entry_bounds inGroup).2
        have inTime : entry.sequence ≤ reader.sequence := by
          change built.next ≤ reader.sequence + 1 at visible
          change entry.sequence < built.next at upper
          omega
        refine ⟨seen entry ?_ inTime, inTime⟩
        refine List.mem_flatMap.mpr ⟨(built, status), List.mem_filter.mpr ⟨member, ?_⟩, inGroup⟩
        simpa using isOk
      · refine Or.inr fun entry inGroup sees => ?_
        exact inv.failed_unknown member isOk inGroup (known entry sees.1)
    · exact Or.inr (tooNew later)
  · have sequence := inv.current group (by simpa using isCurrent)
    exact Or.inr (tooNew (by omega))

/-! ### Repeated reads -/

/-- The entries of the captured memtable that a read at the reader's sequence number can see. -/
def WriteState.visibleIn (state : WriteState α β) (reader : Reader α β) : List (Entry α β) :=
  (state.memTable reader.memTable).filter fun entry => entry.sequence ≤ reader.sequence

omit [Inhabited β] in
/-- A newer entry does not change what can be seen of a memtable. -/
theorem filter_memTableAdd {mem : List (Entry α β)} {sequence : Nat}
    (newer : sequence < entry.sequence) :
    ((memTableAdd mem entry).filter fun other => other.sequence ≤ sequence) =
      mem.filter fun other => other.sequence ≤ sequence := by
  induction mem with
  | nil =>
    show [entry].filter _ = []
    rw [List.filter_cons_of_neg (by simpa using newer), List.filter_nil]
  | cons head rest inductionHypothesis =>
    rw [memTableAdd, List.orderedInsert_cons]
    split
    · rw [List.filter_cons_of_neg (by simpa using newer)]
    · rw [List.filter_cons, List.filter_cons]
      rw [memTableAdd] at inductionHypothesis
      rw [inductionHypothesis]

/-- A step leaves the readers what they can see of their memtables. -/
theorem WriteState.ReadInv.step_visibleIn
    {opSize : WriteOp α β → Nat} {state state' : WriteState α β} (inv : state.ReadInv start)
    {action : WriteAction α β} (taken : state.step options opSize action = some state')
    (isReader : reader ∈ state.readers) :
    reader ∈ state'.readers ∧ state'.visibleIn reader = state.visibleIn reader := by
  obtain ⟨⟨bound, _⟩, index, _, _⟩ := inv.readers reader isReader
  cases WriteState.step_moves taken with
  | switchMemTable phase empty =>
    refine ⟨isReader, ?_⟩
    unfold WriteState.visibleIn WriteState.memTable
    rw [memTable_switch _ _ index]
  | insert group done entry phase next =>
    refine ⟨isReader, ?_⟩
    unfold WriteState.visibleIn WriteState.memTable
    rcases index.lt_or_eq with earlier | last
    · rw [memTable_frozen _ _ state.db.mem earlier]
    · have isCurrent : group ∈ state.phase.group := by rw [phase]; rfl
      have formed := inv.formed group (List.mem_append_right _ (by simpa using isCurrent))
      have lower := (formed.entry_bounds (List.mem_of_getElem? next)).1
      have sequence := inv.current group isCurrent
      rw [last, memTable_last, memTable_last, filter_memTableAdd (by omega)]
  | read snapshot sequence isTaken => exact ⟨List.mem_append_left _ isReader, rfl⟩
  | other action isBeside db stepped =>
    refine ⟨isReader, ?_⟩
    unfold WriteState.visibleIn WriteState.memTable
    rw [(Db.step_besideWrite isBeside stepped).1]
  | _ => exact ⟨isReader, rfl⟩

omit [Inhabited β] in
/-- A seek in a memtable depends only on what can be seen of it. -/
theorem seekAnswer_eq_find {mem : List (Entry α β)} (memOk : MemOk mem) (lookup : LookupKey α) :
    seekAnswer mem lookup = (mem.filter fun entry => entry.sequence ≤ lookup.sequence).find?
      fun entry => entry.userKey = lookup.userKey := by
  obtain ⟨sorted, parses⟩ := memOk
  rw [List.find?_filter]
  induction mem with
  | nil => rfl
  | cons entry rest inductionHypothesis =>
    obtain ⟨less, restSorted⟩ := List.pairwise_cons.mp sorted
    have isParsed := parses entry List.mem_cons_self
    have tail := inductionHypothesis restSorted fun other member =>
      parses other (List.mem_cons_of_mem _ member)
    rw [seekAnswer] at tail ⊢
    by_cases same : entry.userKey = lookup.userKey
    · by_cases visible : entry.sequence ≤ lookup.sequence
      · have after := (internalKey_le_iff isParsed same).mpr visible
        rw [List.find?_cons_of_pos (by simpa using after),
          List.find?_cons_of_pos (by simp [same, visible]),
          Option.filter_some_pos (by simpa using same)]
      · have notAfter := mt (internalKey_le_iff isParsed same).mp visible
        rw [List.find?_cons_of_neg (by simpa using notAfter),
          List.find?_cons_of_neg (by simp [visible])]
        exact tail
    · by_cases after : lookup.internalKey ≤ entry.key
      · rw [List.find?_cons_of_pos (by simpa using after),
          Option.filter_some_neg (by simpa using same), List.find?_cons_of_neg (by simp [same])]
        refine (List.find?_eq_none.mpr fun other member => ?_).symm
        have order : entry.userKey ≤ other.userKey :=
          InternalKey.userKey_le_of_lt (less other member)
        have above : lookup.userKey < entry.userKey :=
          lt_of_le_of_ne (InternalKey.userKey_le_of_le after) (Ne.symm same)
        have different := ne_of_gt (above.trans_le order)
        simp [different]
      · rw [List.find?_cons_of_neg (by simpa using after),
          List.find?_cons_of_neg (by simp [same])]
        exact tail

/-- What a read sees and what `Get` returns depend on the captured memtable only through what can
be seen of it. -/
theorem WriteState.reads_eq {start start' : Nat} {state state' : WriteState α β}
    (inv : state.ReadInv start) (inv' : state'.ReadInv start')
    (isReader : reader ∈ state.readers) (isReader' : reader ∈ state'.readers)
    (visible : state'.visibleIn reader = state.visibleIn reader) :
    (∀ entry, state'.Sees reader entry ↔ state.Sees reader entry) ∧
      ∀ {φ : Type} (tableOptions : TableOptions α β φ) (userKey : α),
        state'.getFor tableOptions reader userKey = state.getFor tableOptions reader userKey := by
  have memOk : ∀ {start : Nat} {state : WriteState α β}, state.ReadInv start →
      reader ∈ state.readers → MemOk (state.memTable reader.memTable) := by
    intro start state inv isReader
    obtain ⟨_, index, _, _⟩ := inv.readers reader isReader
    refine inv.memTables _ ?_
    unfold WriteState.memTable
    rw [List.getElem?_eq_getElem (by rw [List.length_append, List.length_singleton]; omega)]
    exact List.getElem_mem _
  constructor
  · have seen : ∀ (state : WriteState α β) entry, state.Sees reader entry ↔
        entry ∈ state.visibleIn reader ∨ ((∃ imm ∈ reader.imm, entry ∈ imm) ∨
          ∃ level, entry ∈ reader.version.levelEntries level) ∧
            entry.sequence ≤ reader.sequence := by
      intro state entry
      unfold WriteState.Sees WriteState.visibleIn WriteState.content
      rw [List.mem_filter, decide_eq_true_iff, ← or_and_right]
      rfl
    intro entry
    rw [seen, seen, visible]
  · intro φ tableOptions userKey
    have answer : ∀ {start : Nat} {state : WriteState α β}, state.ReadInv start →
        reader ∈ state.readers →
          memTableGet (state.memTable reader.memTable) ⟨userKey, reader.sequence⟩ =
            ((state.visibleIn reader).find? fun entry => entry.userKey = userKey).map
              fun entry => statusOf (some entry) := by
      intro start state inv isReader
      rw [memTableGet_eq (memOk inv isReader).parses, seekAnswer_eq_find (memOk inv isReader)]
      rfl
    unfold WriteState.getFor Db.get
    simp only [Option.getD_some]
    rw [answer inv isReader, answer inv' isReader', visible]

end Invariant

/-! ### The theorem -/

variable [Inhabited β] [LinearOrder α]

/-- Batch atomicity for readers, over every run: a read at the sequence number a reader captured
sees all entries or none of every batch, and sees the same entries, with the same result of
`Get`, after any further steps. -/
theorem reads_atomic (options : Options α β) (opSize : WriteOp α β → Nat) (db : Db α β)
    (opened : db.Opened) (logNumber : Nat) (state : WriteState α β)
    (reachable : Lib.Reachable (WriteState.step options opSize)
      (fun _ action => action.wellFormed = true) (WriteState.start db logNumber) state)
    (reader : Reader α β) (isReader : reader ∈ state.readers) :
    (∀ group ∈ state.allGroups, ∀ pair ∈ carriedEntries group.updates.sequence group.writers,
      (∀ entry ∈ pair.2, state.Sees reader entry) ∨
        ∀ entry ∈ pair.2, ¬ state.Sees reader entry) ∧
    ∀ later : WriteState α β, Lib.Reachable (WriteState.step options opSize)
        (fun _ action => action.wellFormed = true) state later →
      (∀ entry, later.Sees reader entry ↔ state.Sees reader entry) ∧
        ∀ {φ : Type} (tableOptions : TableOptions α β φ) (userKey : α),
          later.getFor tableOptions reader userKey =
            state.getFor tableOptions reader userKey := by
  have kept : ∀ (state : WriteState α β) action state', state.ReadInv db.lastSequence →
      action.wellFormed = true → state.step options opSize action = some state' →
        state'.ReadInv db.lastSequence := fun _ _ _ inv isFormed taken => inv.step isFormed taken
  have inv : state.ReadInv db.lastSequence :=
    Lib.Reachable.invariant (WriteState.start_readInv opened logNumber) kept reachable
  constructor
  · intro group isGroup pair carried
    have inGroup : ∀ entry ∈ pair.2, entry ∈ group.updates.entries := by
      intro entry member
      rw [WriteBatch.entries, (inv.formed group isGroup).ops]
      exact mem_of_carriedEntries carried member
    exact (inv.all_or_none isReader isGroup).imp
      (fun all entry member => all entry (inGroup entry member))
      fun none entry member => none entry (inGroup entry member)
  · intro later continues
    have stays : ∀ (middle : WriteState α β) action next,
        (middle.ReadInv db.lastSequence ∧ reader ∈ middle.readers ∧
          middle.visibleIn reader = state.visibleIn reader) → action.wellFormed = true →
            middle.step options opSize action = some next →
              (next.ReadInv db.lastSequence ∧ reader ∈ next.readers ∧
                next.visibleIn reader = state.visibleIn reader) := by
      rintro middle action next ⟨middleInv, member, visible⟩ isFormed taken
      obtain ⟨nextMember, same⟩ := middleInv.step_visibleIn taken member
      exact ⟨middleInv.step isFormed taken, nextMember, same.trans visible⟩
    obtain ⟨laterInv, laterMember, visible⟩ :=
      Lib.Reachable.invariant ⟨inv, isReader, rfl⟩ stays continues
    exact WriteState.reads_eq inv laterInv isReader laterMember visible

omit [Inhabited β] in
theorem Db.empty_opened : (Db.empty : Db α β).Opened := by
  refine ⟨⟨List.Pairwise.nil, nofun⟩, ?_, nofun⟩
  rintro entry (inMem | ⟨_, isImm, _⟩ | ⟨level, file, inFiles, _⟩)
  · exact absurd inMem List.not_mem_nil
  · cases isImm
  · exact absurd inFiles List.not_mem_nil

/-- A reader captures between the two insertions of a batch. -/
theorem reads_atomic_between_inserts :
    ∃ (state : WriteState Nat Nat) (reader : Reader Nat Nat),
      Lib.Reachable (WriteState.step sizedOptions fun _ => 10)
        (fun _ action => action.wellFormed = true) (WriteState.start Db.empty 3) state ∧
      reader ∈ state.readers ∧ state.phase.insertedNow.length = 1 ∧
      ∀ group ∈ state.allGroups, ∀ pair ∈ carriedEntries group.updates.sequence group.writers,
        (∀ entry ∈ pair.2, state.Sees reader entry) ∨
          ∀ entry ∈ pair.2, ¬ state.Sees reader entry := by
  obtain ⟨state, reachable, outcome⟩ := Lib.exists_of_run
    (show (Lib.run (WriteState.step sizedOptions fun _ => 10)
      (fun _ action => action.wellFormed = true) (WriteState.start Db.empty 3)
        [.arrive (some ⟨0, 2, [.put 1 10, .put 2 20]⟩) false, .lead, .buildGroup, .append true,
          .insert, .read none]).any (fun state => state.readers.length == 1 &&
            state.phase.insertedNow.length == 1) = true by decide +kernel)
  simp only [Bool.and_eq_true, beq_iff_eq] at outcome
  obtain ⟨reader, isReader⟩ := List.exists_mem_of_length_pos (outcome.1.symm ▸ Nat.one_pos)
  exact ⟨state, reader, reachable, isReader, outcome.2,
    (reads_atomic sizedOptions (fun _ => 10) Db.empty Db.empty_opened 3 state reachable reader
      isReader).1⟩

end LevelDb
