/-
This file models the file lists of a version (`db/version_set.cc`, class `Version`): the
metadata of a table file, the binary search for the file that may hold a key, the overlap
tests, the collection of overlapping inputs with its restart rule at level 0, and the choice
of the level a flushed memtable is placed at.

A table file is immutable and is named by one metadata record, so the record carries the
entries of the file it describes.
-/

import LevelDb.Format
import LevelDb.Lib.Search

namespace LevelDb

variable {α β : Type}

/-- The options the level structure depends on. `builderFileSize entries` is
`TableBuilder::FileSize()` once `entries` have been added and `finishedFileSize entries` is
its value after `Finish()`; both depend on the block size and the compressor. -/
structure Options (α β : Type) where
  maxFileSize : Nat
  builderFileSize : List (Entry α β) → Nat
  finishedFileSize : List (Entry α β) → Nat

def targetFileSize (options : Options α β) : Nat := options.maxFileSize

def maxGrandParentOverlapBytes (options : Options α β) : Nat := 10 * targetFileSize options

def expandedCompactionByteSizeLimit (options : Options α β) : Nat := 25 * targetFileSize options

def maxFileSizeForLevel (options : Options α β) (_level : Nat) : Nat := targetFileSize options

/-- `FileMetaData`, with the entries of the table file it describes. -/
structure FileMetaData (α β : Type) where
  number : Nat
  fileSize : Nat
  allowedSeeks : Int
  smallest : InternalKey α
  largest : InternalKey α
  entries : List (Entry α β)

/-- The entries of a list of files. -/
def fileEntries (files : List (FileMetaData α β)) : Set (Entry α β) :=
  {entry | ∃ file ∈ files, entry ∈ file.entries}

theorem mem_fileEntries {files : List (FileMetaData α β)} {entry : Entry α β} :
    entry ∈ fileEntries files ↔ entry ∈ files.flatMap FileMetaData.entries :=
  List.mem_flatMap.symm

def totalFileSize (files : List (FileMetaData α β)) : Nat :=
  (files.map FileMetaData.fileSize).sum

/-- The metadata describes its table: the entries are sorted, the bounds are the keys of the
first and the last one, and the sequence numbers fit in their 56 bits. -/
structure FileMetaData.Valid [LinearOrder α] (file : FileMetaData α β) : Prop where
  sorted : Sorted file.entries
  tag_le : ∀ entry ∈ file.entries,
    entry.key.tag ≤ packSequenceAndType kMaxSequenceNumber kValueTypeForSeek
  smallest_eq : ∃ first ∈ file.entries, first.key = file.smallest
  largest_eq : ∃ last ∈ file.entries, last.key = file.largest
  smallest_le : ∀ entry ∈ file.entries, file.smallest ≤ entry.key
  le_largest : ∀ entry ∈ file.entries, entry.key ≤ file.largest

/-- A version: the files of every level, the file the seek statistics want compacted, and
the level with the best compaction score. -/
structure Version (α β : Type) where
  files : Nat → List (FileMetaData α β)
  fileToCompact : Option (FileMetaData α β × Nat)
  compactionScore : ℚ
  compactionLevel : Nat

/-- A version as its constructor leaves it. -/
def Version.empty : Version α β := ⟨fun _ => [], none, -1, 0⟩

variable [LinearOrder α]

theorem FileMetaData.Valid.smallest_le_largest {file : FileMetaData α β} (valid : file.Valid) :
    file.smallest ≤ file.largest := by
  obtain ⟨first, member, equal⟩ := valid.smallest_eq
  rw [← equal]
  exact valid.le_largest first member

theorem FileMetaData.Valid.userKey_smallest_le {file : FileMetaData α β} (valid : file.Valid)
    {entry : Entry α β} (member : entry ∈ file.entries) :
    file.smallest.userKey ≤ entry.userKey :=
  InternalKey.userKey_le_of_le (valid.smallest_le entry member)

theorem FileMetaData.Valid.userKey_le_largest {file : FileMetaData α β} (valid : file.Valid)
    {entry : Entry α β} (member : entry ∈ file.entries) :
    entry.userKey ≤ file.largest.userKey :=
  InternalKey.userKey_le_of_le (valid.le_largest entry member)

/-! ### `FindFile` -/

/-- The index of the first file whose largest key is at or after `key`. -/
def findFile (files : List (FileMetaData α β)) (key : InternalKey α) : Nat :=
  Lib.lowerBound (fun index => (files[index]?).any fun file => file.largest < key) files.length

/-- The files of a level are sorted and disjoint in internal key order. -/
abbrev DisjointSorted (files : List (FileMetaData α β)) : Prop :=
  files.Pairwise fun first second => first.largest < second.smallest

theorem DisjointSorted.largest_lt {files : List (FileMetaData α β)} (sorted : DisjointSorted files)
    (valid : ∀ file ∈ files, file.smallest ≤ file.largest) {first second : Nat}
    (order : first < second) (bound : second < files.length) :
    files[first].largest < files[second].largest :=
  lt_of_lt_of_le (List.pairwise_iff_getElem.mp sorted first second (order.trans bound) bound order)
    (valid _ (List.getElem_mem bound))

theorem findFile_initial {files : List (FileMetaData α β)} (sorted : DisjointSorted files)
    (valid : ∀ file ∈ files, file.smallest ≤ file.largest) (key : InternalKey α)
    (first second : Nat) (order : first ≤ second) (bound : second < files.length)
    (below : ((files[second]?).any fun file => file.largest < key) = true) :
    ((files[first]?).any fun file => file.largest < key) = true := by
  rcases Nat.lt_or_eq_of_le order with less | same
  · rw [List.getElem?_eq_getElem bound] at below
    rw [List.getElem?_eq_getElem (less.trans bound)]
    simp only [Option.any_some, decide_eq_true_eq] at below ⊢
    exact (sorted.largest_lt valid less bound).trans below
  · exact same ▸ below

theorem findFile_le {files : List (FileMetaData α β)} (sorted : DisjointSorted files)
    (valid : ∀ file ∈ files, file.smallest ≤ file.largest) (key : InternalKey α) :
    findFile files key ≤ files.length :=
  Lib.lowerBound_le _ _ (findFile_initial sorted valid key)

theorem largest_lt_of_lt_findFile {files : List (FileMetaData α β)} (sorted : DisjointSorted files)
    (valid : ∀ file ∈ files, file.smallest ≤ file.largest) {key : InternalKey α} {index : Nat}
    (early : index < findFile files key) (bound : index < files.length) :
    files[index].largest < key := by
  have below := Lib.below_of_lt_lowerBound _ _ (findFile_initial sorted valid key) index early
  simpa [List.getElem?_eq_getElem bound] using below

theorem le_largest_of_findFile_le {files : List (FileMetaData α β)} (sorted : DisjointSorted files)
    (valid : ∀ file ∈ files, file.smallest ≤ file.largest) {key : InternalKey α} {index : Nat}
    (late : findFile files key ≤ index) (bound : index < files.length) :
    key ≤ files[index].largest := by
  have below := Lib.not_below_of_lowerBound_le _ _ (findFile_initial sorted valid key) index late
    bound
  simpa [List.getElem?_eq_getElem bound] using below

/-! ### Overlap tests -/

/-- `userKey` lies strictly before `bound`; a NULL bound has nothing before it. -/
def beforeBound (userKey : α) (bound : Option α) : Bool :=
  bound.any fun limit => userKey < limit

/-- `userKey` lies strictly after `bound`; a NULL bound has nothing after it. -/
def afterBound (userKey : α) (bound : Option α) : Bool :=
  bound.any fun limit => limit < userKey

/-- `AfterFile`: the user key is after every key of the file. -/
def afterFile (userKey : Option α) (file : FileMetaData α β) : Bool :=
  beforeBound file.largest.userKey userKey

/-- `BeforeFile`: the user key is before every key of the file. -/
def beforeFile (userKey : Option α) (file : FileMetaData α β) : Bool :=
  afterBound file.smallest.userKey userKey

/-- The user key range of the file meets `[begin, end]`. -/
def FileMetaData.meets (first last : Option α) (file : FileMetaData α β) : Bool :=
  !(afterFile first file || beforeFile last file)

theorem FileMetaData.meets_iff {first last : Option α} {file : FileMetaData α β} :
    file.meets first last = true ↔
      (∀ limit ∈ first, limit ≤ file.largest.userKey) ∧
        (∀ limit ∈ last, file.smallest.userKey ≤ limit) := by
  unfold FileMetaData.meets afterFile beforeFile beforeBound afterBound
  cases first <;> cases last <;> simp

theorem FileMetaData.meets_some_iff {first last : α} {file : FileMetaData α β} :
    file.meets (some first) (some last) = true ↔
      first ≤ file.largest.userKey ∧ file.smallest.userKey ≤ last := by
  rw [FileMetaData.meets_iff]
  simp

def someFileOverlapsRange (disjointSortedFiles : Bool) (files : List (FileMetaData α β))
    (smallestUserKey largestUserKey : Option α) : Bool :=
  if !disjointSortedFiles then
    files.any fun file => file.meets smallestUserKey largestUserKey
  else
    let index := match smallestUserKey with
      | none => 0
      | some userKey => findFile files (InternalKey.make userKey kMaxSequenceNumber kValueTypeForSeek)
    match files[index]? with
    | none => false
    | some file => !beforeFile largestUserKey file

def Version.overlapInLevel (version : Version α β) (level : Nat)
    (smallestUserKey largestUserKey : Option α) : Bool :=
  someFileOverlapsRange (0 < level) (version.files level) smallestUserKey largestUserKey

/-- The bounds of the file are in order, and its largest key has a tag that a sequence number
and a value type pack to. -/
structure FileMetaData.Bounded (file : FileMetaData α β) : Prop where
  smallest_le_largest : file.smallest ≤ file.largest
  tag_le : file.largest.tag ≤ packSequenceAndType kMaxSequenceNumber kValueTypeForSeek

theorem FileMetaData.Valid.bounded {file : FileMetaData α β} (valid : file.Valid) :
    file.Bounded where
  smallest_le_largest := valid.smallest_le_largest
  tag_le := by
    obtain ⟨last, member, equal⟩ := valid.largest_eq
    exact equal ▸ valid.tag_le last member

theorem findFile_seek_userKey {files : List (FileMetaData α β)} (sorted : DisjointSorted files)
    (bounded : ∀ file ∈ files, file.Bounded) (userKey : α) {index : Nat}
    (bound : index < files.length) :
    findFile files (InternalKey.make userKey kMaxSequenceNumber kValueTypeForSeek) ≤ index ↔
      userKey ≤ files[index].largest.userKey := by
  have ordered := fun file member => (bounded file member).smallest_le_largest
  constructor
  · intro late
    exact InternalKey.userKey_le_of_le (le_largest_of_findFile_le sorted ordered late bound)
  · intro order
    by_contra early
    have below := largest_lt_of_lt_findFile sorted ordered (lt_of_not_ge early) bound
    have tag := (bounded _ (List.getElem_mem bound)).tag_le
    rcases InternalKey.lt_def.mp below with less | ⟨_, above⟩
    · exact absurd order (not_le_of_gt less)
    · exact absurd tag (not_le_of_gt above)

/-- On sorted disjoint files the binary search finds an overlap exactly when the linear scan
does. -/
theorem someFileOverlapsRange_eq_any {files : List (FileMetaData α β)}
    (sorted : DisjointSorted files) (bounded : ∀ file ∈ files, file.Bounded)
    (disjointSortedFiles : Bool) (smallestUserKey largestUserKey : Option α) :
    someFileOverlapsRange disjointSortedFiles files smallestUserKey largestUserKey =
      files.any fun file => file.meets smallestUserKey largestUserKey := by
  cases disjointSortedFiles with
  | false => rfl
  | true =>
    have ordered := fun file member => (bounded file member).smallest_le_largest
    have smallestOrder : ∀ first second, (firstBound : first < files.length) →
        (bound : second < files.length) → first ≤ second →
        files[first].smallest.userKey ≤ files[second].smallest.userKey := by
      intro first second firstBound bound order
      rcases Nat.lt_or_eq_of_le order with less | same
      · have step := List.pairwise_iff_getElem.mp sorted first second firstBound bound less
        exact (InternalKey.userKey_le_of_le (ordered _ (List.getElem_mem _))).trans
          (InternalKey.userKey_le_of_lt step)
      · subst same
        exact le_rfl
    have reach : ∀ index, (bound : index < files.length) →
        ((match smallestUserKey with
          | none => 0
          | some userKey =>
            findFile files (InternalKey.make userKey kMaxSequenceNumber kValueTypeForSeek)) ≤ index ↔
          ∀ limit ∈ smallestUserKey, limit ≤ files[index].largest.userKey) := by
      intro index bound
      cases smallestUserKey with
      | none => simp
      | some userKey =>
        rw [findFile_seek_userKey sorted bounded userKey bound]
        simp
    simp only [someFileOverlapsRange, Bool.not_true, Bool.false_eq_true, if_false]
    generalize hstart : (match smallestUserKey with
      | none => 0
      | some userKey =>
        findFile files (InternalKey.make userKey kMaxSequenceNumber kValueTypeForSeek)) = start
    rw [hstart] at reach
    rw [Bool.eq_iff_iff, List.any_eq_true]
    by_cases bound : start < files.length
    · rw [List.getElem?_eq_getElem bound]
      constructor
      · intro overlap
        refine ⟨files[start], List.getElem_mem bound, FileMetaData.meets_iff.mpr
          ⟨(reach start bound).mp le_rfl, ?_⟩⟩
        cases largestUserKey <;> simp [beforeFile, afterBound] at overlap ⊢
        exact overlap
      · rintro ⟨file, member, meets⟩
        obtain ⟨index, indexBound, equal⟩ := List.getElem_of_mem member
        subst equal
        obtain ⟨lower, upper⟩ := FileMetaData.meets_iff.mp meets
        have order := smallestOrder start index bound indexBound
          ((reach index indexBound).mpr lower)
        cases largestUserKey with
        | none => simp [beforeFile, afterBound]
        | some limit =>
          simp only [beforeFile, afterBound, Option.any_some, Bool.not_eq_true',
            decide_eq_false_iff_not, not_lt]
          exact order.trans (upper limit rfl)
    · rw [List.getElem?_eq_none (not_lt.mp bound)]
      simp only [Bool.false_eq_true, false_iff, not_exists, not_and]
      intro file member meets
      obtain ⟨index, indexBound, equal⟩ := List.getElem_of_mem member
      subst equal
      have late := (reach index indexBound).mpr (FileMetaData.meets_iff.mp meets).1
      omega

/-! ### `GetOverlappingInputs` -/

/-- One pass over the files of a level. Outside level 0 it collects the files that meet the
range. At level 0 a collected file that sticks out of the range on a bounded side discards
the inputs and asks for a restart with the range it widens. -/
def overlapScan (levelZero : Bool) (userBegin userEnd : Option α) :
    List (FileMetaData α β) → Except (Option α × Option α) (List (FileMetaData α β))
  | [] => .ok []
  | file :: rest =>
    if afterFile userBegin file then overlapScan levelZero userBegin userEnd rest
    else if beforeFile userEnd file then overlapScan levelZero userBegin userEnd rest
    else if levelZero && beforeBound file.smallest.userKey userBegin then
      .error (some file.smallest.userKey, userEnd)
    else if levelZero && afterBound file.largest.userKey userEnd then
      .error (userBegin, some file.largest.userKey)
    else (overlapScan levelZero userBegin userEnd rest).map (file :: ·)

/-- The passes of `GetOverlappingInputs`: every restart widens the range to a bound of
another file, so twice the number of files bounds the restarts. -/
def overlapLoop (levelZero : Bool) (files : List (FileMetaData α β)) :
    Nat → Option α → Option α → List (FileMetaData α β)
  | 0, _, _ => []
  | fuel + 1, userBegin, userEnd =>
    match overlapScan levelZero userBegin userEnd files with
    | .ok inputs => inputs
    | .error (userBegin', userEnd') => overlapLoop levelZero files fuel userBegin' userEnd'

/-- The files of `level` that overlap `[begin, end]`; at level 0 also those that overlap the
range the result itself widens to. -/
def Version.getOverlappingInputs (version : Version α β) (level : Nat)
    (first last : Option (InternalKey α)) : List (FileMetaData α β) :=
  overlapLoop (level == 0) (version.files level) (2 * (version.files level).length + 1)
    (first.map InternalKey.userKey) (last.map InternalKey.userKey)

theorem overlapScan_false (userBegin userEnd : Option α) (files : List (FileMetaData α β)) :
    overlapScan false userBegin userEnd files =
      .ok (files.filter fun file => file.meets userBegin userEnd) := by
  induction files with
  | nil => rfl
  | cons file rest inductionHypothesis =>
    rw [overlapScan, inductionHypothesis, List.filter_cons]
    cases after : afterFile userBegin file with
    | true => simp [FileMetaData.meets, after]
    | false =>
      cases before : beforeFile userEnd file with
      | true => simp [FileMetaData.meets, after, before]
      | false => simp [FileMetaData.meets, after, before, Except.map]

/-- Outside level 0 the inputs are the files of the level that meet the range. -/
theorem getOverlappingInputs_of_pos (version : Version α β) {level : Nat} (positive : 0 < level)
    (first last : Option (InternalKey α)) :
    version.getOverlappingInputs level first last =
      (version.files level).filter fun file =>
        file.meets (first.map InternalKey.userKey) (last.map InternalKey.userKey) := by
  have nonzero : (level == 0) = false := by simpa using positive.ne'
  unfold Version.getOverlappingInputs
  rw [nonzero, overlapLoop, overlapScan_false]

/-- A file lies inside the range on its bounded sides. -/
def FileMetaData.Within (first last : Option α) (file : FileMetaData α β) : Prop :=
  (∀ limit ∈ first, limit ≤ file.smallest.userKey) ∧ ∀ limit ∈ last, file.largest.userKey ≤ limit

/-- A level-0 pass that completes has collected exactly the files that meet the range, and
all of them lie inside it. -/
theorem overlapScan_true_ok {userBegin userEnd : Option α} {files inputs : List (FileMetaData α β)}
    (scan : overlapScan true userBegin userEnd files = .ok inputs) :
    inputs = files.filter (fun file => file.meets userBegin userEnd) ∧
      ∀ file ∈ inputs, file.Within userBegin userEnd := by
  induction files generalizing inputs with
  | nil =>
    cases scan
    exact ⟨rfl, fun file member => absurd member List.not_mem_nil⟩
  | cons file rest inductionHypothesis =>
    rw [overlapScan] at scan
    rw [List.filter_cons]
    cases after : afterFile userBegin file with
    | true =>
      simp only [after, if_true] at scan
      simpa [FileMetaData.meets, after] using inductionHypothesis scan
    | false =>
      cases before : beforeFile userEnd file with
      | true =>
        simp only [after, before, if_true, Bool.false_eq_true, if_false] at scan
        simpa [FileMetaData.meets, after, before] using inductionHypothesis scan
      | false =>
        simp only [after, before, Bool.false_eq_true, if_false, Bool.true_and] at scan
        cases sticksBefore : beforeBound file.smallest.userKey userBegin with
        | true => simp [sticksBefore] at scan
        | false =>
          cases sticksAfter : afterBound file.largest.userKey userEnd with
          | true => simp [sticksBefore, sticksAfter] at scan
          | false =>
            simp only [sticksBefore, sticksAfter, Bool.false_eq_true, if_false] at scan
            cases restScan : overlapScan true userBegin userEnd rest with
            | error range => simp [restScan, Except.map] at scan
            | ok restInputs =>
              simp only [restScan, Except.map, Except.ok.injEq] at scan
              obtain ⟨equal, within⟩ := inductionHypothesis restScan
              subst scan
              refine ⟨by simp [FileMetaData.meets, after, before, equal], ?_⟩
              intro input member
              rcases List.mem_cons.mp member with rfl | tail
              · constructor
                · intro limit bound
                  cases bound
                  simpa [beforeBound] using sticksBefore
                · intro limit bound
                  cases bound
                  simpa [afterBound] using sticksAfter
              · exact within input tail

/-- A level-0 pass that restarts has met a file that sticks out of the range on a bounded
side, and the new range is the old one widened to that file on that side. -/
theorem overlapScan_true_error {userBegin userEnd userBegin' userEnd' : Option α}
    {files : List (FileMetaData α β)}
    (scan : overlapScan true userBegin userEnd files = .error (userBegin', userEnd')) :
    ∃ file ∈ files, file.meets userBegin userEnd = true ∧
      ((∃ limit, userBegin = some limit ∧ file.smallest.userKey < limit ∧
          userBegin' = some file.smallest.userKey ∧ userEnd' = userEnd) ∨
        (∃ limit, userEnd = some limit ∧ limit < file.largest.userKey ∧
          userBegin' = userBegin ∧ userEnd' = some file.largest.userKey)) := by
  induction files with
  | nil => cases scan
  | cons file rest inductionHypothesis =>
    have tail : overlapScan true userBegin userEnd rest = .error (userBegin', userEnd') →
        ∃ file' ∈ file :: rest, file'.meets userBegin userEnd = true ∧
          ((∃ limit, userBegin = some limit ∧ file'.smallest.userKey < limit ∧
              userBegin' = some file'.smallest.userKey ∧ userEnd' = userEnd) ∨
            (∃ limit, userEnd = some limit ∧ limit < file'.largest.userKey ∧
              userBegin' = userBegin ∧ userEnd' = some file'.largest.userKey)) := by
      intro restScan
      obtain ⟨file', member, rest⟩ := inductionHypothesis restScan
      exact ⟨file', List.mem_cons_of_mem _ member, rest⟩
    rw [overlapScan] at scan
    cases after : afterFile userBegin file with
    | true =>
      simp only [after, if_true] at scan
      exact tail scan
    | false =>
      cases before : beforeFile userEnd file with
      | true =>
        simp only [after, before, if_true, Bool.false_eq_true, if_false] at scan
        exact tail scan
      | false =>
        have meets : file.meets userBegin userEnd = true := by
          simp [FileMetaData.meets, after, before]
        simp only [after, before, Bool.false_eq_true, if_false, Bool.true_and] at scan
        cases sticksBefore : beforeBound file.smallest.userKey userBegin with
        | true =>
          simp only [sticksBefore, if_true, Except.error.injEq, Prod.mk.injEq] at scan
          refine ⟨file, List.mem_cons_self, meets, Or.inl ?_⟩
          cases userBegin with
          | none => simp [beforeBound] at sticksBefore
          | some limit =>
            exact ⟨limit, rfl, by simpa [beforeBound] using sticksBefore, scan.1.symm,
              scan.2.symm⟩
        | false =>
          cases sticksAfter : afterBound file.largest.userKey userEnd with
          | true =>
            simp only [sticksBefore, sticksAfter, if_true, Bool.false_eq_true, if_false,
              Except.error.injEq, Prod.mk.injEq] at scan
            refine ⟨file, List.mem_cons_self, meets, Or.inr ?_⟩
            cases userEnd with
            | none => simp [afterBound] at sticksAfter
            | some limit =>
              exact ⟨limit, rfl, by simpa [afterBound] using sticksAfter, scan.1.symm,
                scan.2.symm⟩
          | false =>
            simp only [sticksBefore, sticksAfter, Bool.false_eq_true, if_false] at scan
            cases restScan : overlapScan true userBegin userEnd rest with
            | error range =>
              simp only [restScan, Except.map, Except.error.injEq] at scan
              subst scan
              exact tail restScan
            | ok restInputs => simp [restScan, Except.map] at scan

/-- A user key lies in the range `[first, last]`. -/
def InRange (first last : Option α) (userKey : α) : Prop :=
  (∀ limit ∈ first, limit ≤ userKey) ∧ ∀ limit ∈ last, userKey ≤ limit

/-- A user key lies between the bounds of the file. -/
def FileMetaData.Covers (file : FileMetaData α β) (userKey : α) : Prop :=
  file.smallest.userKey ≤ userKey ∧ userKey ≤ file.largest.userKey

theorem FileMetaData.Valid.covers {file : FileMetaData α β} (valid : file.Valid)
    {entry : Entry α β} (member : entry ∈ file.entries) : file.Covers entry.userKey :=
  ⟨InternalKey.userKey_le_of_le (valid.smallest_le entry member),
    InternalKey.userKey_le_of_le (valid.le_largest entry member)⟩

/-- How often files stick out of a range: the measure that every restart decreases. -/
def sticksOut (files : List (FileMetaData α β)) (first last : Option α) : Nat :=
  files.countP (fun file => beforeBound file.smallest.userKey first) +
    files.countP (fun file => afterBound file.largest.userKey last)

/-- Restricting a count to a smaller predicate that fails at a counted element lowers it. -/
theorem countP_lt_of_imp {γ : Type} {elements : List γ} {first second : γ → Bool}
    (imp : ∀ element ∈ elements, first element = true → second element = true)
    {strict : γ} (member : strict ∈ elements) (fails : first strict = false)
    (holds : second strict = true) : elements.countP first < elements.countP second := by
  induction elements with
  | nil => cases member
  | cons head rest inductionHypothesis =>
    have restImp : ∀ element ∈ rest, first element = true → second element = true :=
      fun element inRest => imp element (List.mem_cons_of_mem _ inRest)
    rw [List.countP_cons, List.countP_cons]
    rcases List.mem_cons.mp member with rfl | inRest
    · have weak := List.countP_mono_left restImp
      simp only [fails, holds, Bool.false_eq_true, if_false, if_true]
      omega
    · have strictRest := inductionHypothesis restImp inRest
      cases headFirst : first head with
      | false =>
        simp only [Bool.false_eq_true, if_false, Nat.add_zero]
        exact lt_of_lt_of_le strictRest (Nat.le_add_right _ _)
      | true =>
        rw [imp head List.mem_cons_self headFirst]
        simp only [if_true]
        omega

theorem sticksOut_lt_of_restart {userBegin userEnd userBegin' userEnd' : Option α}
    {files : List (FileMetaData α β)}
    (scan : overlapScan true userBegin userEnd files = .error (userBegin', userEnd')) :
    sticksOut files userBegin' userEnd' < sticksOut files userBegin userEnd := by
  obtain ⟨file, member, _, ⟨limit, rfl, sticks, rfl, rfl⟩ | ⟨limit, rfl, sticks, rfl, rfl⟩⟩ :=
    overlapScan_true_error scan
  · refine Nat.add_lt_add_right (countP_lt_of_imp (fun other _ before => ?_) member ?_ ?_) _
    · simp only [beforeBound, Option.any_some, decide_eq_true_eq] at before ⊢
      exact before.trans sticks
    · simp [beforeBound]
    · simpa [beforeBound] using sticks
  · refine Nat.add_lt_add_left (countP_lt_of_imp (fun other _ after => ?_) member ?_ ?_) _
    · simp only [afterBound, Option.any_some, decide_eq_true_eq] at after ⊢
      exact sticks.trans after
    · simp [afterBound]
    · simpa [afterBound] using sticks

/-- The passes at level 0 reach a range that contains the requested one, whose inputs are
exactly the files that meet it, all of them inside it, and in which every user key outside
the requested range is covered by a file of the level. -/
theorem overlapLoop_true_spec (files : List (FileMetaData α β)) (fuel : Nat)
    (userBegin userEnd : Option α) (enough : sticksOut files userBegin userEnd < fuel) :
    ∃ first last,
      overlapLoop true files fuel userBegin userEnd =
          files.filter (fun file => file.meets first last) ∧
        (∀ file ∈ files, file.meets first last = true → file.Within first last) ∧
        (∀ file : FileMetaData α β, file.meets userBegin userEnd = true →
          file.meets first last = true) ∧
        (∀ userKey, InRange first last userKey →
          InRange userBegin userEnd userKey ∨ ∃ file ∈ files, file.Covers userKey) := by
  induction fuel generalizing userBegin userEnd with
  | zero => omega
  | succ fuel inductionHypothesis =>
    rw [overlapLoop]
    cases scan : overlapScan true userBegin userEnd files with
    | ok inputs =>
      obtain ⟨equal, within⟩ := overlapScan_true_ok scan
      refine ⟨userBegin, userEnd, equal, fun file member meets => within file ?_,
        fun file meets => meets, fun userKey inRange => Or.inl inRange⟩
      rw [equal]
      exact List.mem_filter.mpr ⟨member, meets⟩
    | error range =>
      obtain ⟨userBegin', userEnd'⟩ := range
      have less := sticksOut_lt_of_restart scan
      obtain ⟨first, last, equal, within, widens, covered⟩ :=
        inductionHypothesis userBegin' userEnd' (by omega)
      obtain ⟨file, member, meets, ⟨limit, rfl, sticks, rfl, rfl⟩ | ⟨limit, rfl, sticks, rfl, rfl⟩⟩ :=
        overlapScan_true_error scan
      · refine ⟨first, last, equal, within, fun other otherMeets => widens other ?_,
          fun userKey inRange => ?_⟩
        · obtain ⟨lower, upper⟩ := FileMetaData.meets_iff.mp otherMeets
          refine FileMetaData.meets_iff.mpr ⟨fun bound equal => ?_, upper⟩
          cases equal
          exact (le_of_lt sticks).trans (lower limit rfl)
        · rcases covered userKey inRange with ⟨lower, upper⟩ | cover
          · by_cases order : limit ≤ userKey
            · exact Or.inl ⟨fun bound equal => by cases equal; exact order, upper⟩
            · refine Or.inr ⟨file, member, lower _ rfl, ?_⟩
              exact (le_of_lt (not_le.mp order)).trans ((FileMetaData.meets_iff.mp meets).1 limit rfl)
          · exact Or.inr cover
      · refine ⟨first, last, equal, within, fun other otherMeets => widens other ?_,
          fun userKey inRange => ?_⟩
        · obtain ⟨lower, upper⟩ := FileMetaData.meets_iff.mp otherMeets
          refine FileMetaData.meets_iff.mpr ⟨lower, fun bound equal => ?_⟩
          cases equal
          exact (upper limit rfl).trans (le_of_lt sticks)
        · rcases covered userKey inRange with ⟨lower, upper⟩ | cover
          · by_cases order : userKey ≤ limit
            · exact Or.inl ⟨lower, fun bound equal => by cases equal; exact order⟩
            · refine Or.inr ⟨file, member, ?_, upper _ rfl⟩
              exact ((FileMetaData.meets_iff.mp meets).2 limit rfl).trans (le_of_lt (not_le.mp order))
          · exact Or.inr cover

theorem sticksOut_le (files : List (FileMetaData α β)) (first last : Option α) :
    sticksOut files first last ≤ 2 * files.length := by
  have lower := List.countP_le_length
    (l := files) (p := fun file => beforeBound file.smallest.userKey first)
  have upper := List.countP_le_length
    (l := files) (p := fun file => afterBound file.largest.userKey last)
  unfold sticksOut
  omega

theorem getOverlappingInputs_zero (version : Version α β) (first last : Option (InternalKey α)) :
    ∃ lower upper,
      version.getOverlappingInputs 0 first last =
          (version.files 0).filter (fun file => file.meets lower upper) ∧
        (∀ file ∈ version.files 0, file.meets lower upper = true → file.Within lower upper) ∧
        (∀ file : FileMetaData α β,
          file.meets (first.map InternalKey.userKey) (last.map InternalKey.userKey) = true →
            file.meets lower upper = true) ∧
        (∀ userKey, InRange lower upper userKey →
          InRange (first.map InternalKey.userKey) (last.map InternalKey.userKey) userKey ∨
            ∃ file ∈ version.files 0, file.Covers userKey) :=
  overlapLoop_true_spec (version.files 0) _ _ _
    (Nat.lt_succ_of_le (sticksOut_le (version.files 0) _ _))

/-- At every level the inputs are files of the level, in its order. -/
theorem getOverlappingInputs_sublist (version : Version α β) (level : Nat)
    (first last : Option (InternalKey α)) :
    (version.getOverlappingInputs level first last).Sublist (version.files level) := by
  rcases Nat.eq_zero_or_pos level with zero | positive
  · subst zero
    obtain ⟨lower, upper, equal, _⟩ := getOverlappingInputs_zero version first last
    rw [equal]
    exact List.filter_sublist
  · rw [getOverlappingInputs_of_pos version positive]
    exact List.filter_sublist

/-- At every level the inputs contain every file that meets the requested range. -/
theorem mem_getOverlappingInputs_of_meets (version : Version α β) (level : Nat)
    (first last : Option (InternalKey α)) {file : FileMetaData α β}
    (member : file ∈ version.files level)
    (meets : file.meets (first.map InternalKey.userKey) (last.map InternalKey.userKey) = true) :
    file ∈ version.getOverlappingInputs level first last := by
  rcases Nat.eq_zero_or_pos level with zero | positive
  · subst zero
    obtain ⟨lower, upper, equal, _, widens, _⟩ := getOverlappingInputs_zero version first last
    rw [equal]
    exact List.mem_filter.mpr ⟨member, widens file meets⟩
  · rw [getOverlappingInputs_of_pos version positive]
    exact List.mem_filter.mpr ⟨member, meets⟩

/-! ### `PickLevelForMemTableOutput` -/

/-- The loop that pushes a flushed table down while nothing overlaps it in the next level
and few bytes overlap it in the level after that. -/
def pickLevelLoop (options : Options α β) (version : Version α β)
    (smallestUserKey largestUserKey : α) : Nat → Nat → Nat
  | 0, level => level
  | fuel + 1, level =>
    if level < Config.kMaxMemCompactLevel then
      if version.overlapInLevel (level + 1) (some smallestUserKey) (some largestUserKey) then level
      else if level + 2 < Config.kNumLevels ∧
          totalFileSize (version.getOverlappingInputs (level + 2)
            (some (InternalKey.make smallestUserKey kMaxSequenceNumber kValueTypeForSeek))
            (some (InternalKey.make largestUserKey 0 .kTypeDeletion))) >
            maxGrandParentOverlapBytes options then level
      else pickLevelLoop options version smallestUserKey largestUserKey fuel (level + 1)
    else level

def Version.pickLevelForMemTableOutput (options : Options α β) (version : Version α β)
    (smallestUserKey largestUserKey : α) : Nat :=
  if version.overlapInLevel 0 (some smallestUserKey) (some largestUserKey) then 0
  else pickLevelLoop options version smallestUserKey largestUserKey Config.kMaxMemCompactLevel 0

/-- Every file of the version describes its table, and from level 1 on the files of a level
are sorted and disjoint. -/
structure Version.Sorted (version : Version α β) : Prop where
  valid : ∀ level, ∀ file ∈ version.files level, file.Valid
  disjoint : ∀ level, 0 < level → DisjointSorted (version.files level)

theorem Version.Sorted.overlapInLevel_eq {version : Version α β} (sorted : version.Sorted)
    (level : Nat) (smallestUserKey largestUserKey : Option α) :
    version.overlapInLevel level smallestUserKey largestUserKey =
      (version.files level).any fun file => file.meets smallestUserKey largestUserKey := by
  rcases Nat.eq_zero_or_pos level with zero | positive
  · subst zero
    rfl
  · exact someFileOverlapsRange_eq_any (sorted.disjoint level positive)
      (fun file member => (sorted.valid level file member).bounded) _ _ _

theorem pickLevelLoop_spec {version : Version α β} (sorted : version.Sorted)
    (options : Options α β) (smallestUserKey largestUserKey : α) (fuel level : Nat)
    (clear : ∀ lower ≤ level, ∀ file ∈ version.files lower,
      file.meets (some smallestUserKey) (some largestUserKey) = false) :
    ∀ lower ≤ pickLevelLoop options version smallestUserKey largestUserKey fuel level,
      ∀ file ∈ version.files lower,
        file.meets (some smallestUserKey) (some largestUserKey) = false := by
  induction fuel generalizing level with
  | zero => exact clear
  | succ fuel inductionHypothesis =>
    rw [pickLevelLoop]
    split
    · split
      · exact clear
      · rename_i noOverlap
        split
        · exact clear
        · refine inductionHypothesis (level + 1) fun lower order file member => ?_
          rcases Nat.lt_or_eq_of_le order with less | same
          · exact clear lower (Nat.le_of_lt_succ less) file member
          · subst same
            rw [sorted.overlapInLevel_eq, List.any_eq_true] at noOverlap
            simp only [not_exists, not_and, Bool.not_eq_true] at noOverlap
            exact noOverlap file member
    · exact clear

/-- A flushed table placed below level 0 meets no file of its own level or of a level above
it. -/
theorem pickLevelForMemTableOutput_spec {version : Version α β} (sorted : version.Sorted)
    (options : Options α β) (smallestUserKey largestUserKey : α)
    (positive : 0 < version.pickLevelForMemTableOutput options smallestUserKey largestUserKey) :
    ∀ lower ≤ version.pickLevelForMemTableOutput options smallestUserKey largestUserKey,
      ∀ file ∈ version.files lower,
        file.meets (some smallestUserKey) (some largestUserKey) = false := by
  unfold Version.pickLevelForMemTableOutput at positive ⊢
  split at positive
  · exact absurd positive (lt_irrefl 0)
  · rename_i noOverlap
    rw [if_neg noOverlap]
    refine pickLevelLoop_spec sorted options smallestUserKey largestUserKey _ 0 ?_
    intro lower order file member
    have zero : lower = 0 := Nat.le_zero.mp order
    subst zero
    rw [sorted.overlapInLevel_eq, List.any_eq_true] at noOverlap
    simp only [not_exists, not_and, Bool.not_eq_true] at noOverlap
    exact noOverlap file member

theorem pickLevelLoop_le (options : Options α β) (version : Version α β)
    (smallestUserKey largestUserKey : α) (fuel level : Nat)
    (bound : level ≤ Config.kMaxMemCompactLevel) :
    pickLevelLoop options version smallestUserKey largestUserKey fuel level ≤
      Config.kMaxMemCompactLevel := by
  induction fuel generalizing level with
  | zero => exact bound
  | succ fuel inductionHypothesis =>
    rw [pickLevelLoop]
    split
    · rename_i below
      split
      · exact bound
      · split
        · exact bound
        · exact inductionHypothesis (level + 1) below
    · exact bound

theorem pickLevelForMemTableOutput_le (options : Options α β) (version : Version α β)
    (smallestUserKey largestUserKey : α) :
    version.pickLevelForMemTableOutput options smallestUserKey largestUserKey ≤
      Config.kMaxMemCompactLevel := by
  unfold Version.pickLevelForMemTableOutput
  split
  · exact Nat.zero_le _
  · exact pickLevelLoop_le options version smallestUserKey largestUserKey _ 0 (Nat.zero_le _)

end LevelDb
