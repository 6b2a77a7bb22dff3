/-
This file proves what a compaction keeps readable. Dropping is decided entry by entry with a
few words of memory, and has to be right for every snapshot that can still be read: those at
or above the smallest snapshot the compaction started with.

The entries of one user key form one block of the merged input. The loop keeps the entries of
the block above the smallest snapshot and at most the first one at or below it; that one is
dropped only when it is a deletion and no file of a deeper level contains the user key.
-/

import LevelDb.CompactionWork
import LevelDb.Lib.Newest

namespace LevelDb

variable {α β : Type} [LinearOrder α]

/-! ### The deeper levels -/

/-- The positions kept by `IsBaseLevelForKey` are behind a user key: every file already
passed ends before it. -/
def PtrsBehind (version : Version α β) (userKey : α) (levelPtrs : Nat → Nat) : Prop :=
  ∀ level, ∀ file ∈ (version.files level).take (levelPtrs level), file.largest.userKey < userKey

theorem PtrsBehind.mono {version : Version α β} {userKey userKey' : α} {levelPtrs : Nat → Nat}
    (behind : PtrsBehind version userKey levelPtrs) (order : userKey ≤ userKey') :
    PtrsBehind version userKey' levelPtrs :=
  fun level file inFront => (behind level file inFront).trans_le order

/-- The files below the output level are valid, sorted and disjoint. -/
structure DeeperSorted (compaction : Compaction α β) : Prop where
  valid : ∀ level ∈ deeperLevels compaction,
    ∀ file ∈ compaction.inputVersion.files level, file.Valid
  disjoint : ∀ level ∈ deeperLevels compaction,
    DisjointSorted (compaction.inputVersion.files level)

variable {compaction : Compaction α β}

theorem DeeperSorted.ordered (deeper : DeeperSorted compaction) :
    ∀ level ∈ deeperLevels compaction,
      ∀ file ∈ compaction.inputVersion.files level, file.smallest ≤ file.largest :=
  fun level inDeeper file member => (deeper.valid level inDeeper file member).smallest_le_largest

theorem advanceLevel_spec (userKey : α) (files : List (FileMetaData α β)) (position : Nat) :
    ∃ passed, (advanceLevel userKey files position).1 = position + passed ∧
      (∀ file ∈ files.take passed, file.largest.userKey < userKey) ∧
      ((advanceLevel userKey files position).2 = false →
        ∀ file, (files.drop passed).head? = some file → userKey < file.smallest.userKey) ∧
      ((advanceLevel userKey files position).2 = true → ∃ file ∈ files, file.Covers userKey) := by
  induction files generalizing position with
  | nil => exact ⟨0, rfl, by simp, by simp, by simp [advanceLevel]⟩
  | cons file rest inductionHypothesis =>
    rw [advanceLevel]
    by_cases reached : userKey ≤ file.largest.userKey
    · rw [if_pos reached]
      refine ⟨0, rfl, by simp, fun outside other head => ?_, fun inside => ?_⟩
      · simp only [List.drop_zero, List.head?_cons, Option.some.injEq] at head
        subst head
        simpa using outside
      · exact ⟨file, List.mem_cons_self, by simpa using inside, reached⟩
    · rw [if_neg reached]
      obtain ⟨passed, position', front, next, hit⟩ := inductionHypothesis (position + 1)
      refine ⟨passed + 1, by rw [position']; omega, ?_, ?_, fun inside => ?_⟩
      · rw [List.take_succ_cons]
        intro other member
        rcases List.mem_cons.mp member with rfl | tail
        · exact not_le.mp reached
        · exact front other tail
      · rw [List.drop_succ_cons]
        exact next
      · obtain ⟨other, member, covers⟩ := hit inside
        exact ⟨other, List.mem_cons_of_mem _ member, covers⟩

variable {userKey : α}

/-- In a sorted level, when the first file that has not ended before the user key starts
after it, no file of the level contains the user key. -/
theorem not_covers_of_passed {files : List (FileMetaData α β)} (disjoint : DisjointSorted files)
    (ordered : ∀ file ∈ files, file.smallest ≤ file.largest) {passed : Nat}
    (front : ∀ file ∈ files.take passed, file.largest.userKey < userKey)
    (next : ∀ file, (files.drop passed).head? = some file → userKey < file.smallest.userKey) :
    ∀ file ∈ files, ¬ file.Covers userKey := by
  intro file member covers
  rw [← List.take_append_drop passed files] at member
  rcases List.mem_append.mp member with inFront | inBack
  · exact absurd covers.2 (not_le_of_gt (front file inFront))
  · cases back : files.drop passed with
    | nil => rw [back] at inBack; cases inBack
    | cons head rest =>
      have start := next head (by rw [back]; rfl)
      have sorted : DisjointSorted (files.drop passed) := disjoint.sublist (List.drop_sublist _ _)
      rw [back] at inBack sorted
      rcases List.mem_cons.mp inBack with rfl | tail
      · exact absurd covers.1 (not_le_of_gt start)
      · have headOrdered := ordered head
          (List.mem_of_mem_drop (by rw [back]; exact List.mem_cons_self))
        have order := InternalKey.userKey_le_of_lt ((List.pairwise_cons.mp sorted).1 file tail)
        have bounds := InternalKey.userKey_le_of_le headOrdered
        exact absurd covers.1 (not_le_of_gt (start.trans_le (bounds.trans order)))

theorem baseLevelLoop_spec {version : Version α β} {levels : List Nat}
    (ordered : ∀ level ∈ levels, ∀ file ∈ version.files level, file.smallest ≤ file.largest)
    (disjoint : ∀ level ∈ levels, DisjointSorted (version.files level)) {levelPtrs : Nat → Nat}
    (behind : PtrsBehind version userKey levelPtrs) :
    PtrsBehind version userKey (baseLevelLoop version userKey levels levelPtrs).1 ∧
      ((baseLevelLoop version userKey levels levelPtrs).2 = true ↔
        ∀ level ∈ levels, ∀ file ∈ version.files level, ¬ file.Covers userKey) := by
  induction levels generalizing levelPtrs with
  | nil => exact ⟨behind, fun _ level member => absurd member List.not_mem_nil, fun _ => rfl⟩
  | cons level rest inductionHypothesis =>
    obtain ⟨passed, position, front, next, inside⟩ := advanceLevel_spec userKey
      ((version.files level).drop (levelPtrs level)) (levelPtrs level)
    set advanced := advanceLevel userKey ((version.files level).drop (levelPtrs level))
      (levelPtrs level) with advancedEq
    have frontAll : ∀ file ∈ (version.files level).take (levelPtrs level + passed),
        file.largest.userKey < userKey := by
      intro file member
      rw [List.take_add] at member
      rcases List.mem_append.mp member with old | new
      · exact behind level file old
      · exact front file new
    have behind' : PtrsBehind version userKey (Function.update levelPtrs level advanced.1) := by
      intro other file member
      by_cases same : other = level
      · subst same
        rw [Function.update_self, position] at member
        exact frontAll file member
      · rw [Function.update_of_ne same] at member
        exact behind other file member
    rw [baseLevelLoop]
    simp only [← advancedEq]
    cases hit : advanced.2 with
    | true =>
      rw [if_pos rfl]
      obtain ⟨file, member, covers⟩ := inside hit
      refine ⟨behind', fun impossible => absurd impossible (by simp), fun clear => ?_⟩
      exact absurd covers (clear level List.mem_cons_self file (List.mem_of_mem_drop member))
    | false =>
      rw [if_neg (by simp)]
      obtain ⟨behindRest, baseRest⟩ := inductionHypothesis
        (fun other member => ordered other (List.mem_cons_of_mem _ member))
        (fun other member => disjoint other (List.mem_cons_of_mem _ member)) behind'
      refine ⟨behindRest, fun base other member => ?_, fun clear => baseRest.mpr
        fun other member => clear other (List.mem_cons_of_mem _ member)⟩
      rcases List.mem_cons.mp member with rfl | tail
      · refine not_covers_of_passed (disjoint _ List.mem_cons_self)
          (ordered _ List.mem_cons_self) frontAll ?_
        rw [← List.drop_drop]
        exact next hit
      · exact baseRest.mp base other tail

/-! ### One step of the drop decision -/

/-- No file below the output level contains the user key. -/
def NoDeeperFile (compaction : Compaction α β) (userKey : α) : Prop :=
  ∀ level ∈ deeperLevels compaction, ∀ file ∈ compaction.inputVersion.files level,
    ¬ file.Covers userKey

/-- Every decision leaves the positions behind the user key it was made for. -/
theorem dropDecision_behind (deeper : DeeperSorted compaction) (smallestSnapshot : Nat)
    (state : DropState α) (key : InternalKey α)
    (behind : PtrsBehind compaction.inputVersion key.userKey state.levelPtrs) :
    PtrsBehind compaction.inputVersion key.userKey
      (dropDecision compaction smallestSnapshot state key).1.levelPtrs := by
  unfold dropDecision
  cases parse : parseInternalKey key with
  | none => exact behind
  | some ikey =>
    have sameKey := parseInternalKey_userKey parse
    simp only
    generalize (if state.currentUserKey = some ikey.userKey then state.lastSequenceForKey
      else kMaxSequenceNumber) = last
    split
    · exact behind
    · split
      · rw [← sameKey] at behind ⊢
        exact (baseLevelLoop_spec deeper.ordered deeper.disjoint behind).1
      · exact behind

variable {entry : Entry α β}

/-- The state after a decision remembers the key it was made for, when that key parses. -/
theorem dropDecision_current (compaction : Compaction α β) (smallestSnapshot : Nat)
    (state : DropState α) (parses : entry.Parses) :
    (dropDecision compaction smallestSnapshot state entry.key).1.currentUserKey =
        some entry.userKey ∧
      (dropDecision compaction smallestSnapshot state entry.key).1.lastSequenceForKey =
        entry.sequence := by
  obtain ⟨ikey, parse⟩ := Option.isSome_iff_exists.mp ((parses_iff_parseInternalKey entry).mp parses)
  unfold dropDecision
  rw [parse, ← show ikey.userKey = entry.userKey from parseInternalKey_userKey parse,
    ← show ikey.sequence = entry.sequence from parseInternalKey_sequence parse]
  simp only
  generalize (if state.currentUserKey = some ikey.userKey then state.lastSequenceForKey
    else kMaxSequenceNumber) = last
  split
  · exact ⟨rfl, rfl⟩
  · split <;> exact ⟨rfl, rfl⟩

/-- The state hides nothing of a user key: it remembers another key, or an entry above the
smallest snapshot. -/
def DropState.Clear (state : DropState α) (smallestSnapshot : Nat) (userKey : α) : Prop :=
  state.currentUserKey = some userKey → smallestSnapshot < state.lastSequenceForKey

variable {smallestSnapshot : Nat} {state : DropState α}

/-- An entry hidden by a newer one at or below the smallest snapshot is dropped. -/
theorem dropDecision_hidden (parses : entry.Parses)
    (current : state.currentUserKey = some entry.userKey)
    (hidden : state.lastSequenceForKey ≤ smallestSnapshot) :
    (dropDecision compaction smallestSnapshot state entry.key).2 = true := by
  obtain ⟨ikey, parse⟩ := Option.isSome_iff_exists.mp ((parses_iff_parseInternalKey entry).mp parses)
  have sameKey : ikey.userKey = entry.userKey := parseInternalKey_userKey parse
  unfold dropDecision
  rw [parse]
  simp only [sameKey, current, if_true, hidden]

/-- An entry that nothing hides is kept, unless it is a deletion at or below the smallest
snapshot of a user key that no deeper file contains. -/
theorem dropDecision_clear (deeper : DeeperSorted compaction)
    (bounded : smallestSnapshot < kMaxSequenceNumber) (parses : entry.Parses)
    (clear : state.Clear smallestSnapshot entry.userKey)
    (behind : PtrsBehind compaction.inputVersion entry.userKey state.levelPtrs) :
    (dropDecision compaction smallestSnapshot state entry.key).2 = false ∨
      (dropDecision compaction smallestSnapshot state entry.key).2 = true ∧ ¬ entry.IsValue ∧
        entry.sequence ≤ smallestSnapshot ∧ NoDeeperFile compaction entry.userKey := by
  obtain ⟨ikey, parse⟩ := Option.isSome_iff_exists.mp ((parses_iff_parseInternalKey entry).mp parses)
  have sameKey : ikey.userKey = entry.userKey := parseInternalKey_userKey parse
  have sameSequence : ikey.sequence = entry.sequence := parseInternalKey_sequence parse
  have notHidden : ¬ (if state.currentUserKey = some ikey.userKey then state.lastSequenceForKey
      else kMaxSequenceNumber) ≤ smallestSnapshot := by
    rw [not_le]
    split
    · rename_i current
      exact clear (sameKey ▸ current)
    · exact bounded
  unfold dropDecision
  rw [parse]
  simp only [notHidden, if_false]
  split
  · rename_i deletion
    cases base : (isBaseLevelForKey compaction ikey.userKey state.levelPtrs).2 with
    | false => exact Or.inl rfl
    | true =>
      refine Or.inr ⟨rfl, ?_, sameSequence ▸ deletion.2, ?_⟩
      · have byte := parseInternalKey_type parse
        rw [deletion.1] at byte
        unfold Entry.IsValue
        rw [← byte]
        decide
      · rw [← sameKey] at behind ⊢
        exact (baseLevelLoop_spec deeper.ordered deeper.disjoint behind).2.mp base
  · exact Or.inl rfl

/-! ### The block of one user key -/

/-- Once an entry at or below the smallest snapshot was seen, the rest of its block is
dropped. -/
theorem keptEntries_hidden {block : List (Entry α β)}
    (inBlock : ∀ entry ∈ block, entry.Parses ∧ entry.userKey = userKey)
    (decreasing : block.Pairwise fun first second => second.sequence ≤ first.sequence)
    (current : state.currentUserKey = some userKey)
    (hidden : state.lastSequenceForKey ≤ smallestSnapshot)
    (below : ∀ entry ∈ block, entry.sequence ≤ smallestSnapshot) :
    keptEntries compaction smallestSnapshot state block = [] := by
  induction block generalizing state with
  | nil => rfl
  | cons entry rest inductionHypothesis =>
    obtain ⟨parses, sameKey⟩ := inBlock entry List.mem_cons_self
    rw [keptEntries, if_pos (dropDecision_hidden parses (by rw [sameKey]; exact current) hidden)]
    obtain ⟨nextCurrent, nextLast⟩ :=
      dropDecision_current compaction smallestSnapshot state parses
    refine inductionHypothesis (fun other member => inBlock other (List.mem_cons_of_mem _ member))
      (List.pairwise_cons.mp decreasing).2 (by rw [nextCurrent, sameKey]) ?_
      (fun other member => below other (List.mem_cons_of_mem _ member))
    rw [nextLast]
    exact below entry List.mem_cons_self

/-- What the loop keeps of the block of one user key: the entries above the smallest
snapshot, and the next one unless it is a deletion with nothing below. -/
theorem keptEntries_block (deeper : DeeperSorted compaction)
    (bounded : smallestSnapshot < kMaxSequenceNumber) {block : List (Entry α β)}
    (inBlock : ∀ entry ∈ block, entry.Parses ∧ entry.userKey = userKey)
    (decreasing : block.Pairwise fun first second => second.sequence ≤ first.sequence)
    (clear : state.Clear smallestSnapshot userKey)
    (behind : PtrsBehind compaction.inputVersion userKey state.levelPtrs) :
    ∃ high low, block = high ++ low ∧ (∀ entry ∈ high, smallestSnapshot < entry.sequence) ∧
      ((low = [] ∧ keptEntries compaction smallestSnapshot state block = high) ∨
        ∃ entry rest, low = entry :: rest ∧ entry.sequence ≤ smallestSnapshot ∧
          (keptEntries compaction smallestSnapshot state block = high ++ [entry] ∨
            keptEntries compaction smallestSnapshot state block = high ∧ ¬ entry.IsValue ∧
              NoDeeperFile compaction userKey)) := by
  induction block generalizing state with
  | nil => exact ⟨[], [], rfl, by simp, Or.inl ⟨rfl, rfl⟩⟩
  | cons entry rest inductionHypothesis =>
    obtain ⟨parses, sameKey⟩ := inBlock entry List.mem_cons_self
    obtain ⟨older, restDecreasing⟩ := List.pairwise_cons.mp decreasing
    have inRest : ∀ other ∈ rest, other.Parses ∧ other.userKey = userKey := fun other member =>
      inBlock other (List.mem_cons_of_mem _ member)
    obtain ⟨current, last⟩ := dropDecision_current compaction smallestSnapshot state parses
    rw [sameKey] at current
    have decided := dropDecision_clear deeper bounded parses (sameKey ▸ clear) (sameKey ▸ behind)
    rw [keptEntries]
    by_cases visible : entry.sequence ≤ smallestSnapshot
    · refine ⟨[], entry :: rest, rfl, by simp, Or.inr ⟨entry, rest, rfl, visible, ?_⟩⟩
      have hidden : keptEntries compaction smallestSnapshot
          (dropDecision compaction smallestSnapshot state entry.key).1 rest = [] :=
        keptEntries_hidden inRest restDecreasing current (last.trans_le visible)
          fun other member => (older other member).trans visible
      rcases decided with kept | ⟨dropped, notValue, _, noDeeper⟩
      · rw [kept, hidden]
        exact Or.inl rfl
      · rw [dropped, hidden]
        exact Or.inr ⟨rfl, notValue, sameKey ▸ noDeeper⟩
    · have kept : (dropDecision compaction smallestSnapshot state entry.key).2 = false := by
        rcases decided with kept | ⟨_, _, visible', _⟩
        · exact kept
        · exact absurd visible' visible
      have behindNext := dropDecision_behind deeper smallestSnapshot state entry.key
        (show PtrsBehind _ entry.userKey _ from sameKey ▸ behind)
      obtain ⟨high, low, split, above, outcome⟩ := inductionHypothesis inRest restDecreasing
        (fun _ => last ▸ not_le.mp visible)
        (show PtrsBehind _ userKey _ from sameKey ▸ behindNext)
      refine ⟨entry :: high, low, by rw [split, List.cons_append], ?_, ?_⟩
      · intro other member
        rcases List.mem_cons.mp member with rfl | tail
        · exact not_le.mp visible
        · exact above other tail
      · rw [kept, if_neg (by simp)]
        rcases outcome with ⟨low_eq, equal⟩ | ⟨entry', rest', low_eq, visible', equal | rest⟩
        · exact Or.inl ⟨low_eq, by rw [equal]⟩
        · exact Or.inr ⟨entry', rest', low_eq, visible', Or.inl (by rw [equal]; rfl)⟩
        · exact Or.inr ⟨entry', rest', low_eq, visible', Or.inr ⟨by rw [rest.1], rest.2⟩⟩

/-! ### The entries before the block -/

/-- The state of the drop decision after a list of entries. -/
def dropRun (compaction : Compaction α β) (smallestSnapshot : Nat) (state : DropState α)
    (entries : List (Entry α β)) : DropState α :=
  entries.foldl
    (fun state entry => (dropDecision compaction smallestSnapshot state entry.key).1) state

theorem keptEntries_append (compaction : Compaction α β) (smallestSnapshot : Nat)
    (state : DropState α) (front back : List (Entry α β)) :
    keptEntries compaction smallestSnapshot state (front ++ back) =
      keptEntries compaction smallestSnapshot state front ++
        keptEntries compaction smallestSnapshot
          (dropRun compaction smallestSnapshot state front) back := by
  induction front generalizing state with
  | nil => rfl
  | cons entry rest inductionHypothesis =>
    rw [List.cons_append, keptEntries, keptEntries, inductionHypothesis]
    simp only [dropRun, List.foldl_cons]
    split
    · rfl
    · rw [List.cons_append]

theorem dropDecision_currentUserKey (compaction : Compaction α β) (smallestSnapshot : Nat)
    (state : DropState α) (entry : Entry α β)
    (current : (dropDecision compaction smallestSnapshot state entry.key).1.currentUserKey =
      some userKey) : userKey = entry.userKey := by
  by_cases parses : entry.Parses
  · rw [(dropDecision_current compaction smallestSnapshot state parses).1] at current
    exact (Option.some.inj current).symm
  · have parse : parseInternalKey entry.key = none := by
      rw [parses_iff_parseInternalKey, Bool.not_eq_true] at parses
      exact Option.isNone_iff_eq_none.mp (by simpa using parses)
    unfold dropDecision at current
    rw [parse] at current
    cases current

/-- After entries of smaller user keys, nothing of the user key is hidden and the positions
are still behind it. -/
theorem dropRun_before (deeper : DeeperSorted compaction)
    (smallestSnapshot : Nat) {front : List (Entry α β)}
    (sorted : front.Pairwise fun first second => first.userKey ≤ second.userKey)
    (before : ∀ entry ∈ front, entry.userKey < userKey)
    (current : state.currentUserKey ≠ some userKey)
    (behindFront : ∀ entry ∈ front, PtrsBehind compaction.inputVersion entry.userKey state.levelPtrs)
    (behind : PtrsBehind compaction.inputVersion userKey state.levelPtrs) :
    (dropRun compaction smallestSnapshot state front).currentUserKey ≠ some userKey ∧
      PtrsBehind compaction.inputVersion userKey
        (dropRun compaction smallestSnapshot state front).levelPtrs := by
  induction front generalizing state with
  | nil => exact ⟨current, behind⟩
  | cons entry rest inductionHypothesis =>
    obtain ⟨after, restSorted⟩ := List.pairwise_cons.mp sorted
    have less := before entry List.mem_cons_self
    have behindEntry := dropDecision_behind deeper smallestSnapshot state entry.key
      (behindFront entry List.mem_cons_self)
    refine inductionHypothesis restSorted
      (fun other member => before other (List.mem_cons_of_mem _ member)) ?_
      (fun other member => behindEntry.mono (after other member)) (behindEntry.mono less.le)
    intro remembered
    exact absurd (dropDecision_currentUserKey compaction smallestSnapshot state entry remembered)
      (ne_of_gt less)

/-! ### What the dropped entries are hidden by -/

variable {input : List (Entry α β)}

/-- A list sorted by user key is the entries before a user key, its own, and those after. -/
theorem sorted_split (sorted : input.Pairwise fun first second => first.userKey ≤ second.userKey)
    (userKey : α) :
    ∃ front block back, input = front ++ (block ++ back) ∧
      (∀ entry ∈ front, entry.userKey < userKey) ∧ (∀ entry ∈ block, entry.userKey = userKey) ∧
      ∀ entry ∈ back, userKey < entry.userKey := by
  induction input with
  | nil => exact ⟨[], [], [], rfl, by simp, by simp, by simp⟩
  | cons entry rest inductionHypothesis =>
    obtain ⟨after, restSorted⟩ := List.pairwise_cons.mp sorted
    obtain ⟨front, block, back, split, before, same, above⟩ := inductionHypothesis restSorted
    have noFront : userKey ≤ entry.userKey → front = [] := by
      intro order
      refine List.eq_nil_iff_forall_not_mem.mpr fun other member => ?_
      have inRest : other ∈ rest := split ▸ List.mem_append_left _ member
      exact absurd (before other member) (not_lt_of_ge (order.trans (after other inRest)))
    rcases lt_trichotomy entry.userKey userKey with less | equal | greater
    · refine ⟨entry :: front, block, back, by rw [split, List.cons_append], ?_, same, above⟩
      intro other member
      rcases List.mem_cons.mp member with rfl | tail
      · exact less
      · exact before other tail
    · refine ⟨[], entry :: block, back, ?_, by simp, ?_, above⟩
      · rw [split, noFront equal.ge]
        rfl
      · intro other member
        rcases List.mem_cons.mp member with rfl | tail
        · exact equal
        · exact same other tail
    · have noBlock : block = [] := by
        refine List.eq_nil_iff_forall_not_mem.mpr fun other member => ?_
        have inRest : other ∈ rest := by
          rw [split]
          exact List.mem_append_right _ (List.mem_append_left _ member)
        exact absurd (same other member) (ne_of_gt (greater.trans_le (after other inRest)))
      refine ⟨[], [], entry :: back, ?_, by simp, by simp, ?_⟩
      · rw [split, noFront greater.le, noBlock]
        rfl
      · intro other member
        rcases List.mem_cons.mp member with rfl | tail
        · exact greater
        · exact above other tail

/-- Of two parsable entries of one user key, the value that sorts later is strictly older. -/
theorem sequence_lt_of_key_lt {first second : Entry α β} (order : first.key < second.key)
    (same : first.userKey = second.userKey) (parses : first.Parses) (isValue : second.IsValue) :
    second.sequence < first.sequence := by
  rcases order with less | ⟨_, tag⟩
  · exact absurd same (ne_of_lt less)
  · simp only [Entry.Parses, Entry.IsValue, InternalKey.typeByte, ValueType.code]
      at parses isValue
    simp only [Entry.sequence, InternalKey.sequence]
    omega

/-- The entries of one user key are one block of the input, and the loop decides on them from
a state that hides none of them. -/
theorem keptEntries_ofUserKey (deeper : DeeperSorted compaction) (smallestSnapshot : Nat)
    (sorted : Sorted input) (userKey : α) :
    ∃ (state : DropState α) (block : List (Entry α β)),
      state.Clear smallestSnapshot userKey ∧
      PtrsBehind compaction.inputVersion userKey state.levelPtrs ∧ block.Sublist input ∧
      (∀ entry, entry ∈ block ↔ entry ∈ input ∧ entry.userKey = userKey) ∧
      ∀ entry, entry ∈ keptEntries compaction smallestSnapshot state block ↔
        entry ∈ keptEntries compaction smallestSnapshot DropState.initial input ∧
          entry.userKey = userKey := by
  have byUserKey : input.Pairwise fun first second => first.userKey ≤ second.userKey :=
    sorted.imp fun less => InternalKey.userKey_le_of_lt less
  obtain ⟨front, block, back, split, before, inBlock, after⟩ := sorted_split byUserKey userKey
  have frontSorted := byUserKey.sublist (split ▸ List.sublist_append_left front (block ++ back))
  have noPtrs : ∀ other, PtrsBehind compaction.inputVersion other
      (DropState.initial : DropState α).levelPtrs := by
    intro other level file passed
    simp [DropState.initial] at passed
  have start : (DropState.initial : DropState α).currentUserKey ≠ some userKey := by
    simp [DropState.initial]
  obtain ⟨current, behind⟩ := dropRun_before deeper smallestSnapshot frontSorted before start
    (fun other _ => noPtrs _) (noPtrs _)
  have ofBlock : ∀ (first second third : List (Entry α β)), first ⊆ front → second ⊆ block →
      third ⊆ back → ∀ entry, entry ∈ second ↔
        entry ∈ first ++ (second ++ third) ∧ entry.userKey = userKey := by
    intro first second third firstSub secondSub thirdSub entry
    constructor
    · intro inside
      exact ⟨List.mem_append_right _ (List.mem_append_left _ inside), inBlock entry (secondSub inside)⟩
    · rintro ⟨inside, same⟩
      rcases List.mem_append.mp inside with inFront | inRest
      · exact absurd same (ne_of_lt (before entry (firstSub inFront)))
      · rcases List.mem_append.mp inRest with found | inBack
        · exact found
        · exact absurd same (ne_of_gt (after entry (thirdSub inBack)))
  refine ⟨dropRun compaction smallestSnapshot DropState.initial front, block,
    fun equal => absurd equal current, behind, ?_, ?_, ?_⟩
  · rw [split]
    exact (List.sublist_append_left block back).trans (List.sublist_append_right front _)
  · rw [split]
    exact ofBlock front block back (List.Subset.refl _) (List.Subset.refl _) (List.Subset.refl _)
  · rw [split, keptEntries_append, keptEntries_append]
    exact ofBlock _ _ _ (keptEntries_sublist _ _ _ _).subset (keptEntries_sublist _ _ _ _).subset
      (keptEntries_sublist _ _ _ _).subset

/-- Every dropped entry of a user key is at or below an entry of the input that is at or
below the smallest snapshot. That one is kept, or it is a deletion with nothing below and
every kept entry of the user key is above the smallest snapshot. -/
theorem keptEntries_shadows (deeper : DeeperSorted compaction)
    (bounded : smallestSnapshot < kMaxSequenceNumber) (sorted : Sorted input)
    (parses : ∀ entry ∈ input, entry.userKey = userKey → entry.Parses) (member : entry ∈ input)
    (same : entry.userKey = userKey)
    (dropped : entry ∉ keptEntries compaction smallestSnapshot DropState.initial input) :
    ∃ shadow ∈ input, shadow.userKey = userKey ∧ shadow.sequence ≤ smallestSnapshot ∧
      entry.sequence ≤ shadow.sequence ∧ (entry.IsValue → entry.sequence < shadow.sequence) ∧
      (shadow ∈ keptEntries compaction smallestSnapshot DropState.initial input ∨
        NoDeeperFile compaction userKey ∧
          ∀ kept ∈ keptEntries compaction smallestSnapshot DropState.initial input,
            kept.userKey = userKey → smallestSnapshot < kept.sequence) := by
  obtain ⟨state, block, clear, behind, blockSublist, memBlock, memKept⟩ :=
    keptEntries_ofUserKey deeper smallestSnapshot sorted userKey
  have blockSorted : Sorted block := sorted.sublist blockSublist
  have blockParses : ∀ other ∈ block, other.Parses ∧ other.userKey = userKey := by
    intro other inside
    obtain ⟨inInput, sameKey⟩ := (memBlock other).mp inside
    exact ⟨parses other inInput sameKey, sameKey⟩
  have decreasing : block.Pairwise fun first second => second.sequence ≤ first.sequence :=
    blockSorted.imp_of_mem fun firstMember secondMember less =>
      InternalKey.sequence_le_of_le less.le
        ((blockParses _ firstMember).2.trans (blockParses _ secondMember).2.symm)
  have droppedBlock : entry ∉ keptEntries compaction smallestSnapshot state block :=
    fun kept => dropped ((memKept entry).mp kept).1
  obtain ⟨high, low, rfl, above, outcome⟩ :=
    keptEntries_block deeper bounded blockParses decreasing clear behind
  have entryLow : entry ∈ low := by
    rcases List.mem_append.mp ((memBlock entry).mpr ⟨member, same⟩) with inHigh | inLow
    · refine absurd ?_ droppedBlock
      rcases outcome with ⟨_, equal⟩ | ⟨_, _, _, _, equal | ⟨equal, _⟩⟩ <;> rw [equal]
      · exact inHigh
      · exact List.mem_append_left _ inHigh
      · exact inHigh
    · exact inLow
  rcases outcome with ⟨rfl, _⟩ | ⟨shadow, rest, rfl, visible, outcome⟩
  · exact absurd entryLow List.not_mem_nil
  · have shadowInBlock : shadow ∈ high ++ shadow :: rest :=
      List.mem_append_right _ List.mem_cons_self
    obtain ⟨shadowInput, shadowKey⟩ := (memBlock shadow).mp shadowInBlock
    refine ⟨shadow, shadowInput, shadowKey, visible, ?_⟩
    have older : entry ≠ shadow → entry.sequence ≤ shadow.sequence ∧
        (entry.IsValue → entry.sequence < shadow.sequence) := by
      intro different
      have order := (List.pairwise_cons.mp (List.pairwise_append.mp blockSorted).2.1).1 entry
        ((List.mem_cons.mp entryLow).resolve_left different)
      have sameKeys : shadow.userKey = entry.userKey := shadowKey.trans same.symm
      exact ⟨InternalKey.sequence_le_of_le order.le sameKeys,
        sequence_lt_of_key_lt order sameKeys (blockParses shadow shadowInBlock).1⟩
    rcases outcome with equal | ⟨equal, notValue, noDeeper⟩
    · have shadowKept : shadow ∈ keptEntries compaction smallestSnapshot state
          (high ++ shadow :: rest) := by
        rw [equal]
        exact List.mem_append_right _ (List.mem_singleton.mpr rfl)
      have different : entry ≠ shadow := by
        rintro rfl
        exact droppedBlock shadowKept
      exact ⟨(older different).1, (older different).2, Or.inl ((memKept shadow).mp shadowKept).1⟩
    · have bounds : entry.sequence ≤ shadow.sequence ∧
          (entry.IsValue → entry.sequence < shadow.sequence) := by
        by_cases isShadow : entry = shadow
        · subst isShadow
          exact ⟨le_rfl, fun isValue => absurd isValue notValue⟩
        · exact older isShadow
      refine ⟨bounds.1, bounds.2, Or.inr ⟨noDeeper, fun kept inside sameKey => above kept ?_⟩⟩
      rw [← equal]
      exact (memKept kept).mpr ⟨inside, sameKey⟩

/-! ### Reads before and after the compaction -/

/-- A read of `userKey` at `snapshot` in `store` finds `entry`: it is the newest visible entry
and not a deletion. -/
def Finds (store : Set (Entry α β)) (userKey : α) (snapshot : Nat) (entry : Entry α β) : Prop :=
  Lib.IsNewest Entry.userKey Entry.sequence store userKey snapshot entry ∧ ¬ entry.IsDeletion

/-- The entries of the levels below the output level. -/
def deeperEntries (compaction : Compaction α β) : Set (Entry α β) :=
  {entry | ∃ level ∈ deeperLevels compaction, entry ∈ fileEntries
    (compaction.inputVersion.files level)}

theorem finds_kept_iff (deeper : DeeperSorted compaction)
    (bounded : smallestSnapshot < kMaxSequenceNumber) (sorted : Sorted input)
    (parses : ∀ entry ∈ input, entry.userKey = userKey → entry.Parses) {snapshot : Nat}
    (live : smallestSnapshot ≤ snapshot) (entry : Entry α β) :
    Finds ({kept | kept ∈ keptEntries compaction smallestSnapshot DropState.initial input} ∪
        deeperEntries compaction) userKey snapshot entry ↔
      Finds ({kept | kept ∈ input} ∪ deeperEntries compaction) userKey snapshot entry := by
  have subset : ∀ kept ∈ keptEntries compaction smallestSnapshot DropState.initial input,
      kept ∈ input := fun kept inside => (keptEntries_sublist _ _ _ _).subset inside
  constructor
  · rintro ⟨⟨member, same, visible, greatest⟩, notDeletion⟩
    refine ⟨⟨member.imp (subset entry) id, same, visible, ?_⟩, notDeletion⟩
    intro other otherMember otherSame otherVisible
    by_cases stays : other ∈ keptEntries compaction smallestSnapshot DropState.initial input
    · exact greatest other (Or.inl stays) otherSame otherVisible
    · rcases otherMember with inInput | inDeeper
      · obtain ⟨shadow, _, shadowKey, shadowVisible, older, _, outcome⟩ :=
          keptEntries_shadows deeper bounded sorted parses inInput otherSame stays
        rcases outcome with shadowKept | ⟨noDeeper, above⟩
        · exact older.trans (greatest shadow (Or.inl shadowKept) shadowKey
            (shadowVisible.trans live))
        · rcases member with kept | ⟨level, levelMember, file, fileMember, inFile⟩
          · exact (older.trans shadowVisible).trans (above entry kept same).le
          · have fileValid := deeper.valid level levelMember file fileMember
            exact absurd (same ▸ fileValid.covers inFile) (noDeeper level levelMember file fileMember)
      · exact greatest other (Or.inr inDeeper) otherSame otherVisible
  · rintro ⟨⟨member, same, visible, greatest⟩, notDeletion⟩
    refine ⟨⟨?_, same, visible, fun other otherMember => greatest other
      (otherMember.imp (subset other) id)⟩, notDeletion⟩
    rcases member with inInput | inDeeper
    · by_contra notKept
      have dropped : entry ∉ keptEntries compaction smallestSnapshot DropState.initial input :=
        fun kept => notKept (Or.inl kept)
      obtain ⟨shadow, shadowInput, shadowKey, shadowVisible, _, newer, _⟩ :=
        keptEntries_shadows deeper bounded sorted parses inInput same dropped
      exact absurd (greatest shadow (Or.inl shadowInput) shadowKey (shadowVisible.trans live))
        (not_le_of_gt (newer ((parses entry inInput same).isValue notDeletion)))
    · exact Or.inr inDeeper

/-- A compaction preserves what can be read at its smallest snapshot or later, for every user
key whose input entries all parse, and its outputs hold nothing but input entries. -/
theorem doCompactionWork_preserves_reads (options : Options α β) (compaction : Compaction α β)
    (snapshots : List Nat) (lastSequence nextFileNumber : Nat) (deeper : DeeperSorted compaction)
    (sorted : Sorted (makeInputIterator compaction))
    (bounded : oldestSnapshot snapshots lastSequence < kMaxSequenceNumber) :
    let inputs := compaction.inputs0 ++ compaction.inputs1
    let outputs := (doCompactionWork options compaction (oldestSnapshot snapshots lastSequence)
      nextFileNumber).1
    (∀ userKey, (∀ entry ∈ fileEntries inputs, entry.userKey = userKey → entry.Parses) →
      ∀ snapshot, oldestSnapshot snapshots lastSequence ≤ snapshot → ∀ entry,
        Finds (fileEntries outputs ∪ deeperEntries compaction) userKey snapshot entry ↔
          Finds (fileEntries inputs ∪ deeperEntries compaction) userKey snapshot entry) ∧
      (outputs.flatMap FileMetaData.entries).Subperm (inputs.flatMap FileMetaData.entries) := by
  intro inputs outputs
  have outputEntries := doCompactionWork_entries options compaction
    (oldestSnapshot snapshots lastSequence) nextFileNumber
  have inputPerm := makeInputIterator_perm compaction
  constructor
  · intro userKey parses snapshot live entry
    have inputSet : fileEntries inputs = {entry | entry ∈ makeInputIterator compaction} :=
      Set.ext fun other => mem_fileEntries.trans inputPerm.mem_iff.symm
    have outputSet : fileEntries outputs = {entry | entry ∈ keptEntries compaction
        (oldestSnapshot snapshots lastSequence) DropState.initial
        (makeInputIterator compaction)} :=
      Set.ext fun other => by rw [mem_fileEntries, outputEntries]; exact Iff.rfl
    rw [inputSet] at parses ⊢
    rw [outputSet]
    exact finds_kept_iff deeper bounded sorted parses live entry
  · rw [outputEntries]
    exact (keptEntries_sublist _ _ _ _).subperm.trans inputPerm.subperm

/-- A version whose level 1 holds one file with the given entries. -/
def oneFileVersion (first last : Entry Nat Nat) (entries : List (Entry Nat Nat)) :
    Version Nat Nat :=
  { files := fun level =>
      if level = 1 then
        [{ number := 5, fileSize := 100, allowedSeeks := 100, smallest := first.key,
           largest := last.key, entries := entries }]
      else []
    fileToCompact := none
    compactionScore := 0
    compactionLevel := 0 }

/-- The compaction of that file with nothing at the next level. -/
def oneFileCompaction (first last : Entry Nat Nat) (entries : List (Entry Nat Nat)) :
    Compaction Nat Nat :=
  { level := 1
    inputs0 := (oneFileVersion first last entries).files 1
    inputs1 := []
    grandparents := []
    inputVersion := oneFileVersion first last entries
    compactPointer := last.key }

theorem oneFileCompaction_deeper (first last : Entry Nat Nat) (entries : List (Entry Nat Nat)) :
    ∀ level ∈ deeperLevels (oneFileCompaction first last entries),
      (oneFileCompaction first last entries).inputVersion.files level = [] := by
  intro level member
  rw [deeperLevels, List.mem_range'_1] at member
  have deep : 1 + 2 ≤ level := member.1
  show (if level = 1 then _ else []) = []
  rw [if_neg (by omega)]

theorem oneFileCompaction_deeperSorted (first last : Entry Nat Nat)
    (entries : List (Entry Nat Nat)) : DeeperSorted (oneFileCompaction first last entries) := by
  constructor
  · intro level member file inFiles
    rw [oneFileCompaction_deeper first last entries level member] at inFiles
    exact absurd inFiles List.not_mem_nil
  · intro level member
    rw [oneFileCompaction_deeper first last entries level member]
    exact List.Pairwise.nil

theorem oneFileCompaction_input (first last : Entry Nat Nat) (entries : List (Entry Nat Nat)) :
    makeInputIterator (oneFileCompaction first last entries) = entries := by
  simp [makeInputIterator, mergingIterator, concatenatingIterator, oneFileCompaction,
    oneFileVersion, Lib.mergeTwo_eq]

/-- Options under which every output of a test fits one file. -/
def smallOptions : Options Nat Nat :=
  { maxFileSize := 2 ^ 20, builderFileSize := List.length, finishedFileSize := List.length }

/-- A value below a deletion of the same user key. -/
def deletedEntries : List (Entry Nat Nat) :=
  [⟨InternalKey.make 1 5 .kTypeDeletion, 0⟩, ⟨InternalKey.make 1 3 .kTypeValue, 7⟩]

def deletedCompaction : Compaction Nat Nat :=
  oneFileCompaction ⟨InternalKey.make 1 5 .kTypeDeletion, 0⟩ ⟨InternalKey.make 1 3 .kTypeValue, 7⟩
    deletedEntries

theorem doCompactionWork_preserves_reads_deleted :
    let outputs := (doCompactionWork smallOptions deletedCompaction (oldestSnapshot [4] 10) 6).1
    ∀ entry, Finds (fileEntries outputs ∪ deeperEntries deletedCompaction) 1 4 entry ↔
      Finds (fileEntries (deletedCompaction.inputs0 ++ deletedCompaction.inputs1) ∪
        deeperEntries deletedCompaction) 1 4 entry := by
  have sorted : Sorted (makeInputIterator deletedCompaction) := by
    rw [deletedCompaction, oneFileCompaction_input]
    decide
  refine (doCompactionWork_preserves_reads smallOptions deletedCompaction [4] 10 6
    (oneFileCompaction_deeperSorted _ _ _) sorted (by decide)).1 1 ?_ 4 (by decide)
  rintro entry ⟨file, member, inFile⟩ _
  have isFile : file.entries = deletedEntries := by
    have one : file ∈ [_] := member
    rw [List.mem_singleton.mp one]
  rw [isFile] at inFile
  revert inFile
  exact (show ∀ entry ∈ deletedEntries, entry.Parses by decide) entry

/-- A deletion, then an entry whose type byte is not a value type, then a value. -/
def errorEntries : List (Entry Nat Nat) :=
  [⟨InternalKey.make 1 5 .kTypeDeletion, 0⟩, ⟨⟨1, 4 * 256 + 2⟩, 0⟩,
    ⟨InternalKey.make 1 3 .kTypeValue, 7⟩]

def errorCompaction : Compaction Nat Nat :=
  oneFileCompaction ⟨InternalKey.make 1 5 .kTypeDeletion, 0⟩ ⟨InternalKey.make 1 3 .kTypeValue, 7⟩
    errorEntries

/-- An entry that does not parse is never dropped and hides nothing: with the deletion above
it gone, the newest entry of the user key is no longer a deletion. -/
theorem doCompactionWork_uncovers_error_key :
    DeeperSorted errorCompaction ∧ Sorted (makeInputIterator errorCompaction) ∧
      oldestSnapshot [] 10 < kMaxSequenceNumber ∧
      ¬ ∀ entry, Finds (fileEntries (doCompactionWork smallOptions errorCompaction
            (oldestSnapshot [] 10) 6).1 ∪ deeperEntries errorCompaction) 1 10 entry ↔
        Finds (fileEntries (errorCompaction.inputs0 ++ errorCompaction.inputs1) ∪
          deeperEntries errorCompaction) 1 10 entry := by
  have input : makeInputIterator errorCompaction = errorEntries := oneFileCompaction_input _ _ _
  have kept : ∀ entry, entry ∈ fileEntries (doCompactionWork smallOptions errorCompaction
      (oldestSnapshot [] 10) 6).1 ↔ entry ∈ errorEntries.tail := by
    intro entry
    rw [mem_fileEntries, doCompactionWork_entries, input]
    exact iff_of_eq (congrArg (entry ∈ ·) (by decide))
  have noDeeper : ∀ entry, entry ∉ deeperEntries errorCompaction := by
    rintro entry ⟨level, deep, file, member, _⟩
    rw [errorCompaction, oneFileCompaction_deeper _ _ _ level deep] at member
    exact absurd member List.not_mem_nil
  refine ⟨oneFileCompaction_deeperSorted _ _ _, by rw [input]; decide, by decide, fun same => ?_⟩
  have found : Finds (fileEntries (doCompactionWork smallOptions errorCompaction
      (oldestSnapshot [] 10) 6).1 ∪ deeperEntries errorCompaction) 1 10 ⟨⟨1, 4 * 256 + 2⟩, 0⟩ := by
    refine ⟨⟨Or.inl ((kept _).mpr (by decide)), rfl, by decide, ?_⟩, by decide⟩
    rintro other (member | member) _ _
    · exact (show ∀ entry ∈ errorEntries.tail, entry.sequence ≤ 4 by decide) other
        ((kept other).mp member)
    · exact absurd member (noDeeper other)
  have newest := ((same _).mp found).1.2.2.2 ⟨InternalKey.make 1 5 .kTypeDeletion, 0⟩
    (Or.inl ⟨_, List.mem_cons_self, List.mem_cons_self⟩) rfl (by decide)
  exact absurd newest (by decide)

end LevelDb
