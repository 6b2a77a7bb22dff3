/-
This file models write batches and the memtable (`db/write_batch.cc`, `db/memtable.cc`). A
batch is a sequence number and a list of operations; applying it to a memtable gives its
operations consecutive sequence numbers. The memtable keeps its entries in the order of their
internal keys, as the skip list does, and a lookup seeks to the first entry at or after the
lookup key.
-/

import LevelDb.Format

namespace LevelDb

variable {α β : Type}

/-! ### Write batches -/

/-- One record of a write batch. -/
inductive WriteOp (α β : Type)
  | put (userKey : α) (value : β)
  | delete (userKey : α)
  deriving DecidableEq, Repr

/-- The entry an operation becomes at a sequence number. A deletion is stored with the empty
value. -/
def WriteOp.entry [Inhabited β] (sequence : Nat) : WriteOp α β → Entry α β
  | .put userKey value => ⟨InternalKey.make userKey sequence .kTypeValue, value⟩
  | .delete userKey => ⟨InternalKey.make userKey sequence .kTypeDeletion, default⟩

/-- The entries `MemTableInserter` makes of the operations of a batch. -/
def batchEntries [Inhabited β] (sequence : Nat) : List (WriteOp α β) → List (Entry α β)
  | [] => []
  | op :: rest => op.entry sequence :: batchEntries (sequence + 1) rest

@[simp] theorem WriteOp.entry_sequence [Inhabited β] (sequence : Nat) (op : WriteOp α β) :
    (op.entry sequence).sequence = sequence := by
  cases op <;> exact InternalKey.make_sequence _ _ _

theorem WriteOp.entry_parses [Inhabited β] (sequence : Nat) (op : WriteOp α β) :
    (op.entry sequence).Parses := by
  cases op <;> simp [WriteOp.entry, Entry.Parses, ValueType.code]

/-- The entries of a batch carry consecutive sequence numbers. -/
theorem map_sequence_batchEntries [Inhabited β] (sequence : Nat) (ops : List (WriteOp α β)) :
    (batchEntries sequence ops).map Entry.sequence = List.range' sequence ops.length := by
  induction ops generalizing sequence with
  | nil => rfl
  | cons op rest inductionHypothesis =>
    rw [batchEntries, List.map_cons, inductionHypothesis, WriteOp.entry_sequence,
      List.length_cons, List.range'_succ]

theorem batchEntries_parses [Inhabited β] {sequence : Nat} {ops : List (WriteOp α β)}
    {entry : Entry α β} (member : entry ∈ batchEntries sequence ops) : entry.Parses := by
  induction ops generalizing sequence with
  | nil => exact absurd member List.not_mem_nil
  | cons op rest inductionHypothesis =>
    rcases List.mem_cons.mp member with rfl | tail
    · exact op.entry_parses sequence
    · exact inductionHypothesis tail

theorem batchEntries_sequence_bounds [Inhabited β] {sequence : Nat} {ops : List (WriteOp α β)}
    {entry : Entry α β} (member : entry ∈ batchEntries sequence ops) :
    sequence ≤ entry.sequence ∧ entry.sequence < sequence + ops.length := by
  have inRange : entry.sequence ∈ (batchEntries sequence ops).map Entry.sequence :=
    List.mem_map_of_mem member
  rw [map_sequence_batchEntries, List.mem_range'_1] at inRange
  exact inRange

/-! ### The memtable -/

variable [LinearOrder α]

/-- `MemTable::Add`: the skip list puts a new entry before the first one that is not less. -/
def memTableAdd (mem : List (Entry α β)) (entry : Entry α β) : List (Entry α β) :=
  mem.orderedInsert (fun first second => first.key ≤ second.key) entry

/-- `WriteBatchInternal::InsertInto`. -/
def insertInto (mem : List (Entry α β)) (entries : List (Entry α β)) : List (Entry α β) :=
  entries.foldl memTableAdd mem

theorem memTableAdd_perm (mem : List (Entry α β)) (entry : Entry α β) :
    (memTableAdd mem entry).Perm (entry :: mem) := List.perm_orderedInsert _ _ _

theorem insertInto_perm (mem entries : List (Entry α β)) :
    (insertInto mem entries).Perm (mem ++ entries) := by
  induction entries generalizing mem with
  | nil => rw [List.append_nil]; exact List.Perm.refl _
  | cons entry rest inductionHypothesis =>
    refine (inductionHypothesis (memTableAdd mem entry)).trans ?_
    refine ((memTableAdd_perm mem entry).append_right rest).trans ?_
    exact List.perm_middle.symm

theorem mem_insertInto {mem entries : List (Entry α β)} {entry : Entry α β} :
    entry ∈ insertInto mem entries ↔ entry ∈ mem ∨ entry ∈ entries := by
  rw [(insertInto_perm mem entries).mem_iff, List.mem_append]

theorem memTableAdd_sorted {mem : List (Entry α β)} (sorted : Sorted mem) {entry : Entry α β}
    (fresh : ∀ other ∈ mem, other.key ≠ entry.key) : Sorted (memTableAdd mem entry) := by
  induction mem with
  | nil => exact List.pairwise_singleton _ _
  | cons head rest inductionHypothesis =>
    obtain ⟨headLess, restSorted⟩ := List.pairwise_cons.mp sorted
    rw [memTableAdd, List.orderedInsert_cons]
    split
    · rename_i before
      have less : entry.key < head.key :=
        lt_of_le_of_ne before (fresh head List.mem_cons_self).symm
      refine List.pairwise_cons.mpr ⟨fun other member => ?_, sorted⟩
      rcases List.mem_cons.mp member with rfl | tail
      · exact less
      · exact less.trans (headLess other tail)
    · rename_i notBefore
      refine List.pairwise_cons.mpr ⟨fun other member => ?_,
        inductionHypothesis restSorted fun other tail => fresh other (List.mem_cons_of_mem _ tail)⟩
      rcases List.mem_cons.mp ((memTableAdd_perm rest entry).mem_iff.mp member) with rfl | tail
      · exact not_le.mp notBefore
      · exact headLess other tail

theorem insertInto_sorted {mem entries : List (Entry α β)} (sorted : Sorted mem)
    (fresh : ∀ other ∈ mem, ∀ entry ∈ entries, other.key ≠ entry.key)
    (distinct : entries.Pairwise fun first second => first.key ≠ second.key) :
    Sorted (insertInto mem entries) := by
  induction entries generalizing mem with
  | nil => exact sorted
  | cons entry rest inductionHypothesis =>
    obtain ⟨different, restDistinct⟩ := List.pairwise_cons.mp distinct
    refine inductionHypothesis (memTableAdd_sorted sorted fun other member =>
      fresh other member entry List.mem_cons_self) ?_ restDistinct
    intro other member later laterMember
    rcases List.mem_cons.mp ((memTableAdd_perm mem entry).mem_iff.mp member) with rfl | old
    · exact different later laterMember
    · exact fresh other old later (List.mem_cons_of_mem _ laterMember)

end LevelDb
