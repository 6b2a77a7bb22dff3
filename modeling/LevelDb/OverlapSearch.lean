/-
This file compares the searches for overlapping files with what they are for
(`db/version_set.cc`). The binary overlap test agrees with the linear scan. The positions that
`IsBaseLevelForKey` keeps between its calls never change an answer. The restarts of
`GetOverlappingInputs` at level 0 end at the least set of files that is closed under overlap
with the range it spans.
-/

import LevelDb.CompactionReads

namespace LevelDb

variable {α β : Type} [LinearOrder α]

/-! ### The binary search -/

/-- The binary overlap test answers like the linear one, and `FindFile` returns the least
index whose largest key is at or after the target, or the number of files. -/
theorem someFileOverlapsRange_binary {files : List (FileMetaData α β)}
    (sorted : DisjointSorted files) (bounded : ∀ file ∈ files, file.Bounded) :
    (∀ smallestUserKey largestUserKey : Option α,
      someFileOverlapsRange true files smallestUserKey largestUserKey =
        someFileOverlapsRange false files smallestUserKey largestUserKey) ∧
    ∀ target : InternalKey α,
      IsLeast {index | index = files.length ∨ ∃ file, files[index]? = some file ∧
        target ≤ file.largest} (findFile files target) := by
  have ordered := fun file member => (bounded file member).smallest_le_largest
  refine ⟨fun smallestUserKey largestUserKey => ?_, fun target => ⟨?_, ?_⟩⟩
  · rw [someFileOverlapsRange_eq_any sorted bounded, someFileOverlapsRange_eq_any sorted bounded]
  · rcases Nat.lt_or_ge (findFile files target) files.length with inside | outside
    · exact Or.inr ⟨_, List.getElem?_eq_getElem inside,
        le_largest_of_findFile_le sorted ordered le_rfl inside⟩
    · exact Or.inl (le_antisymm (findFile_le sorted ordered target) outside)
  · rintro index (rfl | ⟨file, position, reached⟩)
    · exact findFile_le sorted ordered target
    · by_contra early
      obtain ⟨bound, equal⟩ := List.getElem?_eq_some_iff.mp position
      have below := largest_lt_of_lt_findFile sorted ordered (not_le.mp early) bound
      rw [equal] at below
      exact absurd reached (not_le_of_gt below)

/-- Two files that share the user key 5, and a range inside the gap after them. -/
theorem someFileOverlapsRange_binary_shared :
    let first : FileMetaData Nat Nat := ⟨1, 10, 0, .make 1 9 .kTypeValue, .make 5 8 .kTypeValue, []⟩
    let second : FileMetaData Nat Nat :=
      ⟨2, 10, 0, .make 5 7 .kTypeValue, .make 6 3 .kTypeDeletion, []⟩
    someFileOverlapsRange true [first, second] (some 7) (some 8) =
      someFileOverlapsRange false [first, second] (some 7) (some 8) := by
  intro first second
  refine (someFileOverlapsRange_binary ?_ ?_).1 (some 7) (some 8)
  · decide
  · intro file member
    rcases List.mem_pair.mp member with rfl | rfl <;> exact ⟨by decide, by decide⟩

/-! ### `IsBaseLevelForKey` over a run -/

/-- The answers of a run of calls of `IsBaseLevelForKey`, each call with the positions the
calls before it left. -/
def baseLevelAnswers (compaction : Compaction α β) : List α → (Nat → Nat) → List Bool
  | [], _ => []
  | userKey :: rest, levelPtrs =>
    let answer := isBaseLevelForKey compaction userKey levelPtrs
    answer.2 :: baseLevelAnswers compaction rest answer.1

/-- The test without positions: no file below the output level has the user key between its
bounds. -/
def noDeeperFile (compaction : Compaction α β) (userKey : α) : Bool :=
  (deeperLevels compaction).all fun level => (compaction.inputVersion.files level).all fun file =>
    !(file.smallest.userKey ≤ userKey && userKey ≤ file.largest.userKey)

theorem noDeeperFile_iff {compaction : Compaction α β} {userKey : α} :
    noDeeperFile compaction userKey = true ↔ NoDeeperFile compaction userKey := by
  simp [noDeeperFile, NoDeeperFile, FileMetaData.Covers, imp_iff_not_or]

theorem baseLevelAnswers_of_behind {compaction : Compaction α β}
    (ordered : ∀ level ∈ deeperLevels compaction,
      ∀ file ∈ compaction.inputVersion.files level, file.smallest ≤ file.largest)
    (disjoint : ∀ level ∈ deeperLevels compaction,
      DisjointSorted (compaction.inputVersion.files level))
    {userKeys : List α} (increasing : userKeys.Pairwise (· ≤ ·)) {levelPtrs : Nat → Nat}
    (behind : ∀ userKey ∈ userKeys, PtrsBehind compaction.inputVersion userKey levelPtrs) :
    baseLevelAnswers compaction userKeys levelPtrs = userKeys.map (noDeeperFile compaction) := by
  induction userKeys generalizing levelPtrs with
  | nil => rfl
  | cons userKey rest inductionHypothesis =>
    obtain ⟨least, restIncreasing⟩ := List.pairwise_cons.mp increasing
    obtain ⟨behindNext, answer⟩ :=
      baseLevelLoop_spec ordered disjoint (behind userKey List.mem_cons_self)
    have head : (isBaseLevelForKey compaction userKey levelPtrs).2 =
        noDeeperFile compaction userKey := by
      rw [Bool.eq_iff_iff, noDeeperFile_iff]
      exact answer
    rw [baseLevelAnswers, List.map_cons, head, inductionHypothesis restIncreasing]
    exact fun other member => PtrsBehind.mono behindNext (least other member)

/-- Over calls with user keys that never decrease, starting from the positions of a new
compaction, every answer is the one of the test without positions. -/
theorem baseLevelAnswers_eq {compaction : Compaction α β}
    (ordered : ∀ level ∈ deeperLevels compaction,
      ∀ file ∈ compaction.inputVersion.files level, file.smallest ≤ file.largest)
    (disjoint : ∀ level ∈ deeperLevels compaction,
      DisjointSorted (compaction.inputVersion.files level))
    {userKeys : List α} (increasing : userKeys.Pairwise (· ≤ ·)) :
    baseLevelAnswers compaction userKeys (fun _ => 0) =
      userKeys.map (noDeeperFile compaction) :=
  baseLevelAnswers_of_behind ordered disjoint increasing
    fun userKey _ level file inFront => absurd inFront (by simp)

/-- A compaction of level 0 and one file at level 2: the deletion of the user key 4 is not at
its base level, the one of 9 is. -/
theorem baseLevelAnswers_eq_two :
    let file : FileMetaData Nat Nat := ⟨1, 10, 0, .make 3 9 .kTypeValue, .make 5 8 .kTypeValue, []⟩
    let version : Version Nat Nat := ⟨fun level => if level = 2 then [file] else [], none, -1, 0⟩
    let compaction : Compaction Nat Nat := ⟨0, [], [], [], version, .make 0 0 .kTypeValue⟩
    baseLevelAnswers compaction [4, 9] (fun _ => 0) =
      [4, 9].map (noDeeperFile compaction) := by
  intro file version compaction
  refine baseLevelAnswers_eq (fun level _ other member => ?_) (fun level _ => ?_) (by decide)
  · by_cases two : level = 2
    · subst two
      obtain rfl : other = file := List.mem_singleton.mp member
      decide
    · simp [compaction, version, two] at member
  · by_cases two : level = 2
    · subst two
      exact List.pairwise_singleton _ _
    · simp [compaction, version, two]

/-! ### `GetOverlappingInputs` at level 0 -/

/-- The user key range of the file meets the hull of `[first, last]` and the ranges of a set
of files, widened on the bounded sides only. -/
def FileMetaData.MeetsHull (first last : Option α) (set : Set (FileMetaData α β))
    (file : FileMetaData α β) : Prop :=
  (∀ limit ∈ first, limit ≤ file.largest.userKey ∨
      ∃ other ∈ set, other.smallest.userKey ≤ file.largest.userKey) ∧
    ∀ limit ∈ last, file.smallest.userKey ≤ limit ∨
      ∃ other ∈ set, file.smallest.userKey ≤ other.largest.userKey

/-- The set holds every file that meets the range, and every file that meets the hull of the
set with the range. -/
structure OverlapClosed (files : List (FileMetaData α β)) (first last : Option α)
    (set : Set (FileMetaData α β)) : Prop where
  meets : ∀ file ∈ files, file.meets first last = true → file ∈ set
  meetsHull : ∀ file ∈ files, file.MeetsHull first last set → file ∈ set

/-- The passes of `GetOverlappingInputs` over the files of level 0 end with these inputs. -/
inductive OverlapEnds (files : List (FileMetaData α β)) :
    Option α → Option α → List (FileMetaData α β) → Prop
  | completed {first last inputs} (scan : overlapScan true first last files = .ok inputs) :
      OverlapEnds files first last inputs
  | restarted {first last first' last' inputs}
      (scan : overlapScan true first last files = .error (first', last'))
      (rest : OverlapEnds files first' last' inputs) : OverlapEnds files first last inputs

theorem overlapLoop_ends (files : List (FileMetaData α β)) (fuel : Nat) (first last : Option α)
    (enough : sticksOut files first last < fuel) :
    OverlapEnds files first last (overlapLoop true files fuel first last) := by
  induction fuel generalizing first last with
  | zero => omega
  | succ fuel inductionHypothesis =>
    rw [overlapLoop]
    cases scan : overlapScan true first last files with
    | ok inputs => exact OverlapEnds.completed scan
    | error range =>
      have less := sticksOut_lt_of_restart scan
      exact OverlapEnds.restarted scan (inductionHypothesis range.1 range.2 (by omega))

/-- A range the passes reach lies in the hull of the set: each bound is the requested one or
the bound of a file of the set. -/
structure RangeInHull (first last first' last' : Option α) (set : Set (FileMetaData α β)) :
    Prop where
  lower : ∀ limit ∈ first, ∃ limit', first' = some limit' ∧
    (limit' = limit ∨ ∃ other ∈ set, limit' = other.smallest.userKey)
  upper : ∀ limit ∈ last, ∃ limit', last' = some limit' ∧
    (limit' = limit ∨ ∃ other ∈ set, limit' = other.largest.userKey)

theorem RangeInHull.meetsHull {first last first' last' : Option α}
    {set : Set (FileMetaData α β)} (inHull : RangeInHull first last first' last' set)
    {file : FileMetaData α β} (meets : file.meets first' last' = true) :
    file.MeetsHull first last set := by
  obtain ⟨lower, upper⟩ := FileMetaData.meets_iff.mp meets
  constructor
  · intro limit bounded
    obtain ⟨limit', rfl, same | ⟨other, member, same⟩⟩ := inHull.lower limit bounded
    · exact Or.inl (same ▸ lower limit' rfl)
    · exact Or.inr ⟨other, member, same ▸ lower limit' rfl⟩
  · intro limit bounded
    obtain ⟨limit', rfl, same | ⟨other, member, same⟩⟩ := inHull.upper limit bounded
    · exact Or.inl (same ▸ upper limit' rfl)
    · exact Or.inr ⟨other, member, same ▸ upper limit' rfl⟩

/-- A restart stays in the hull of every closed set. -/
theorem RangeInHull.restart {files : List (FileMetaData α β)}
    {first last first' last' first'' last'' : Option α} {set : Set (FileMetaData α β)}
    (closed : OverlapClosed files first last set)
    (inHull : RangeInHull first last first' last' set)
    (scan : overlapScan true first' last' files = .error (first'', last'')) :
    RangeInHull first last first'' last'' set := by
  obtain ⟨file, member, meets, ⟨limit, rfl, _, rfl, rfl⟩ | ⟨limit, rfl, _, rfl, rfl⟩⟩ :=
    overlapScan_true_error scan
  · have inSet := closed.meetsHull file member (inHull.meetsHull meets)
    exact ⟨fun _ _ => ⟨_, rfl, Or.inr ⟨file, inSet, rfl⟩⟩, inHull.upper⟩
  · have inSet := closed.meetsHull file member (inHull.meetsHull meets)
    exact ⟨inHull.lower, fun _ _ => ⟨_, rfl, Or.inr ⟨file, inSet, rfl⟩⟩⟩

/-- The inputs the passes end with lie in every closed set. -/
theorem OverlapEnds.subset {files inputs : List (FileMetaData α β)}
    {first last first' last' : Option α} {set : Set (FileMetaData α β)}
    (closed : OverlapClosed files first last set) (ends : OverlapEnds files first' last' inputs)
    (inHull : RangeInHull first last first' last' set) : ∀ file ∈ inputs, file ∈ set := by
  induction ends with
  | completed scan =>
    intro file member
    rw [(overlapScan_true_ok scan).1, List.mem_filter] at member
    exact closed.meetsHull file member.1 (inHull.meetsHull member.2)
  | restarted scan rest inductionHypothesis =>
    exact inductionHypothesis (inHull.restart closed scan)

/-- The passes end with the files that meet a range around the requested one, all of them
inside that range on its bounded sides. -/
theorem OverlapEnds.range {files inputs : List (FileMetaData α β)} {first last : Option α}
    (ends : OverlapEnds files first last inputs) :
    ∃ first' last', inputs = files.filter (fun file => file.meets first' last') ∧
      (∀ file ∈ inputs, file.Within first' last') ∧
      (∀ limit' ∈ first', ∃ limit ∈ first, limit' ≤ limit) ∧
      ∀ limit' ∈ last', ∃ limit ∈ last, limit ≤ limit' := by
  induction ends with
  | @completed first last inputs scan =>
    obtain ⟨equal, within⟩ := overlapScan_true_ok scan
    exact ⟨first, last, equal, within, fun limit bounded => ⟨limit, bounded, le_rfl⟩,
      fun limit bounded => ⟨limit, bounded, le_rfl⟩⟩
  | restarted scan rest inductionHypothesis =>
    obtain ⟨lower', upper', equal, within, below, above⟩ := inductionHypothesis
    refine ⟨lower', upper', equal, within, ?_, ?_⟩
    · intro limit' bounded
      obtain ⟨limit, isLimit, order⟩ := below limit' bounded
      obtain ⟨file, _, _, ⟨limit₀, rfl, sticks, rfl, rfl⟩ | ⟨limit₀, rfl, _, rfl, rfl⟩⟩ :=
        overlapScan_true_error scan
      · cases isLimit
        exact ⟨limit₀, rfl, order.trans sticks.le⟩
      · exact ⟨limit, isLimit, order⟩
    · intro limit' bounded
      obtain ⟨limit, isLimit, order⟩ := above limit' bounded
      obtain ⟨file, _, _, ⟨limit₀, rfl, _, rfl, rfl⟩ | ⟨limit₀, rfl, sticks, rfl, rfl⟩⟩ :=
        overlapScan_true_error scan
      · exact ⟨limit, isLimit, order⟩
      · cases isLimit
        exact ⟨limit₀, rfl, sticks.le.trans order⟩

/-- The files the passes end with are closed. -/
theorem OverlapEnds.closed {files inputs : List (FileMetaData α β)} {first last : Option α}
    (ends : OverlapEnds files first last inputs) :
    OverlapClosed files first last {file | file ∈ inputs} := by
  obtain ⟨lower, upper, equal, within, below, above⟩ := ends.range
  have inside : ∀ file ∈ files, file.MeetsHull first last {file | file ∈ inputs} →
      file ∈ inputs := by
    intro file member ⟨fromBelow, fromAbove⟩
    rw [equal]
    refine List.mem_filter.mpr ⟨member, FileMetaData.meets_iff.mpr ⟨?_, ?_⟩⟩
    · intro limit' bounded
      obtain ⟨limit, isLimit, order⟩ := below limit' bounded
      rcases fromBelow limit isLimit with reached | ⟨other, inInputs, reached⟩
      · exact order.trans reached
      · exact ((within other inInputs).1 limit' bounded).trans reached
    · intro limit' bounded
      obtain ⟨limit, isLimit, order⟩ := above limit' bounded
      rcases fromAbove limit isLimit with reached | ⟨other, inInputs, reached⟩
      · exact reached.trans order
      · exact reached.trans ((within other inInputs).2 limit' bounded)
  refine ⟨fun file member meets => inside file member ?_, inside⟩
  obtain ⟨fromBelow, fromAbove⟩ := FileMetaData.meets_iff.mp meets
  exact ⟨fun limit bounded => Or.inl (fromBelow limit bounded),
    fun limit bounded => Or.inl (fromAbove limit bounded)⟩

/-- At level 0 the passes end, and they return, in the order of the level, the files of the
least set that is closed under overlap with the hull of the set and the requested range. -/
theorem getOverlappingInputs_isLeast (version : Version α β) (first last : Option (InternalKey α)) :
    OverlapEnds (version.files 0) (first.map InternalKey.userKey) (last.map InternalKey.userKey)
        (version.getOverlappingInputs 0 first last) ∧
      ∃ chosen : FileMetaData α β → Bool,
        version.getOverlappingInputs 0 first last = (version.files 0).filter chosen ∧
        IsLeast {set | OverlapClosed (version.files 0) (first.map InternalKey.userKey)
            (last.map InternalKey.userKey) set}
          {file | file ∈ version.files 0 ∧ chosen file = true} := by
  have ends : OverlapEnds (version.files 0) (first.map InternalKey.userKey)
      (last.map InternalKey.userKey) (version.getOverlappingInputs 0 first last) :=
    overlapLoop_ends (version.files 0) _ _ _
      (Nat.lt_succ_of_le (sticksOut_le (version.files 0) _ _))
  obtain ⟨lower, upper, equal, _⟩ := ends.range
  have members : {file | file ∈ version.files 0 ∧ file.meets lower upper = true} =
      {file | file ∈ version.getOverlappingInputs 0 first last} := by
    ext file
    rw [Set.mem_ofPred_eq, Set.mem_ofPred_eq, equal, List.mem_filter]
  refine ⟨ends, fun file => file.meets lower upper, equal, ?_⟩
  rw [members]
  refine ⟨ends.closed, fun set closed => ends.subset closed ⟨?_, ?_⟩⟩
  · exact fun limit bounded => ⟨limit, bounded, Or.inl rfl⟩
  · exact fun limit bounded => ⟨limit, bounded, Or.inl rfl⟩

end LevelDb
