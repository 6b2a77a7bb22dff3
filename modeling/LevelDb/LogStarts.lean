/-
This file proves which records a log reader returns that starts at an initial offset, and when it
reports something although the log is whole. The start of a block cuts what was written into the
fragments before it, the rest of a record, and the records behind that.
-/

import LevelDb.LogOffsets

namespace LevelDb.Log

/-! ### The cut at the start of a block -/

section Cut

variable {offset position boundary : Nat}

/-- The zeros before a fragment do not reach past the start of a block. -/
theorem start_le_boundary (bound : offset ≤ kBlockSize)
    (here : position % kBlockSize = offset % kBlockSize) (isBlock : boundary % kBlockSize = 0)
    (le : position ≤ boundary) : position + (trailer offset).length ≤ boundary := by
  rw [length_trailer]
  split
  · simp only [kBlockSize, kHeaderSize] at *
    omega
  · exact le

/-- A fragment lies in one block: it starts with its header in front of a block and ends there. -/
theorem Fragment.before_boundary {fragment : Fragment} (bound : offset ≤ kBlockSize)
    (fits : fragment.endOffset offset ≤ kBlockSize)
    (here : position % kBlockSize = offset % kBlockSize) (isBlock : boundary % kBlockSize = 0)
    (before : position + (trailer offset).length < boundary) :
    position + (trailer offset).length + fragment.bytes.length ≤ boundary ∧
      (position + (trailer offset ++ fragment.bytes).length) % kBlockSize =
        fragment.endOffset offset % kBlockSize := by
  rw [List.length_append, Fragment.length_bytes]
  rw [Fragment.endOffset, blockStart] at *
  rw [length_trailer] at *
  by_cases small : kBlockSize - offset < kHeaderSize
  · simp only [if_pos small] at *
    simp only [kBlockSize, kHeaderSize] at *
    omega
  · simp only [if_neg small] at *
    simp only [kBlockSize, kHeaderSize] at *
    omega

/-- Fragments end before the start of a block up to one that starts there. -/
theorem exists_front {list : List Fragment} (fit : Fit offset list) (bound : offset ≤ kBlockSize)
    (here : position % kBlockSize = offset % kBlockSize) (isBlock : boundary % kBlockSize = 0)
    (le : position ≤ boundary) :
    ∃ front back, list = front ++ back ∧
      (∀ entry ∈ fragmentOffsets offset position front,
        entry.2 + entry.1.bytes.length ≤ boundary) ∧
      (back = [] ∧ position + (layout offset front).length ≤ boundary ∨
        back ≠ [] ∧ position + (layout offset front).length +
          (trailer (endOffset offset front)).length = boundary) := by
  induction list generalizing offset position with
  | nil => exact ⟨[], [], rfl, nofun, .inl ⟨rfl, le⟩⟩
  | cons fragment rest inductionHypothesis =>
    have startLe := start_le_boundary bound here isBlock le
    rcases Nat.lt_or_eq_of_le startLe with before | isStart
    · obtain ⟨ends, next⟩ := Fragment.before_boundary bound fit.1 here isBlock before
      have endsLe : position + (trailer offset ++ fragment.bytes).length ≤ boundary := by
        rw [List.length_append, ← Nat.add_assoc]
        exact ends
      obtain ⟨front, back, rfl, frontEnds, outcome⟩ := inductionHypothesis fit.2 fit.1 next endsLe
      have length : position + (layout offset (fragment :: front)).length =
          position + (trailer offset ++ fragment.bytes).length +
            (layout (fragment.endOffset offset) front).length := by
        rw [layout, List.length_append, Nat.add_assoc]
      refine ⟨fragment :: front, back, rfl, ?_, ?_⟩
      · rw [fragmentOffsets, List.forall_mem_cons]
        exact ⟨ends, frontEnds⟩
      · rw [length]
        exact outcome
    · exact ⟨[], fragment :: rest, rfl, nofun, .inr ⟨List.cons_ne_nil _ _, isStart⟩⟩

end Cut

theorem Continues.of_append {payload : Bytes} {front back : List Fragment}
    (continues : Continues payload (front ++ back)) :
    back = [] ∨ ∃ payload, Continues payload back := by
  induction front generalizing payload with
  | nil => exact .inr ⟨payload, continues⟩
  | cons fragment front inductionHypothesis =>
    rw [List.cons_append] at continues
    generalize isRest : front ++ back = rest at continues
    cases continues with
    | last => exact .inl (List.append_eq_nil_iff.mp isRest).2
    | middle payload more =>
      subst isRest
      exact inductionHypothesis more

/-- What is cut off from the fragments of a record goes on with it. -/
theorem Carries.of_append {record : Bytes} {front back : List Fragment}
    (carries : Carries record (front ++ back)) (notFirst : front ≠ []) :
    back = [] ∨ ∃ payload, Continues payload back := by
  obtain ⟨fragment, front, rfl⟩ := List.exists_cons_of_ne_nil notFirst
  rw [List.cons_append] at carries
  generalize isRest : front ++ back = rest at carries
  cases carries with
  | full => exact .inl (List.append_eq_nil_iff.mp isRest).2
  | first payload more =>
    subst isRest
    exact more.of_append

theorem Filled.of_append {offset : Nat} {front back : List Fragment}
    (filled : Filled offset (front ++ back)) : Filled (endOffset offset front) back := by
  induction front generalizing offset with
  | nil => exact filled
  | cons fragment front inductionHypothesis => exact inductionHypothesis filled.2

/-! ### The same fragments from the start of a block -/

section Congr

variable {offset other position position' : Nat}

theorem endOffset_congr (start : blockStart offset = blockStart other) {list : List Fragment}
    (notNone : list ≠ []) : endOffset offset list = endOffset other list := by
  obtain ⟨fragment, rest, rfl⟩ := List.exists_cons_of_ne_nil notNone
  rw [endOffset, endOffset, List.foldl_cons, List.foldl_cons, Fragment.endOffset,
    Fragment.endOffset, start]

theorem fit_congr (start : blockStart offset = blockStart other) {list : List Fragment}
    (fit : Fit offset list) : Fit other list := by
  cases list with
  | nil => trivial
  | cons fragment rest =>
    rw [Fit, Fragment.endOffset, ← start]
    exact fit

theorem filled_congr (start : blockStart offset = blockStart other) {list : List Fragment}
    (filled : Filled offset list) : Filled other list := by
  cases list with
  | nil => trivial
  | cons fragment rest =>
    rw [Filled, Fragment.endOffset, ← start]
    exact filled

theorem fragmentOffsets_congr (start : blockStart offset = blockStart other)
    (here : position + (trailer offset).length = position' + (trailer other).length)
    (list : List Fragment) :
    fragmentOffsets offset position list = fragmentOffsets other position' list := by
  cases list with
  | nil => rfl
  | cons fragment rest =>
    rw [fragmentOffsets, fragmentOffsets, List.length_append, List.length_append, ← Nat.add_assoc,
      ← Nat.add_assoc, here, Fragment.endOffset, Fragment.endOffset, start]

theorem length_layout_congr (start : blockStart offset = blockStart other)
    (here : position + (trailer offset).length = position' + (trailer other).length)
    {list : List Fragment} (notNone : list ≠ []) :
    position + (layout offset list).length = position' + (layout other list).length := by
  obtain ⟨fragment, rest, rfl⟩ := List.exists_cons_of_ne_nil notNone
  rw [layout, layout, Fragment.endOffset, Fragment.endOffset, start]
  simp only [List.length_append]
  omega

theorem recordOffsets_congr (start : blockStart offset = blockStart other)
    (here : position + (trailer offset).length = position' + (trailer other).length)
    (records : List Bytes) :
    recordOffsets offset position records = recordOffsets other position' records := by
  cases records with
  | nil => rfl
  | cons record rest =>
    have same : fragments record offset = fragments record other := by
      have both := recordFragments_congr start [record]
      rw [recordFragments, recordFragments, recordFragments, recordFragments, List.append_nil,
        List.append_nil] at both
      exact both
    have notNone : fragments record other ≠ [] :=
      List.ne_nil_of_length_pos (fragments_carry record other).length_pos
    rw [recordOffsets, recordOffsets, here, same, endOffset_congr start notNone,
      length_layout_congr start here notNone]

end Congr

/-! ### Records cut at the start of a block -/

/-- The start of a block cuts written records into fragments that end before it, the rest of the
last record that starts before it, and the records behind that. -/
structure BlockCut (boundary offset position : Nat) (records : List Bytes)
    (front continued : List Fragment) (later : List Bytes) : Prop where
  whole : recordFragments offset records =
    front ++ (continued ++ recordFragments (endOffset 0 continued) later)
  ends : ∀ entry ∈ fragmentOffsets offset position front,
    entry.2 + entry.1.bytes.length ≤ boundary
  goesOn : continued = [] ∨
    (∃ payload, Continues payload continued) ∧ Fit 0 continued ∧ Filled 0 continued
  starts : ∃ earlier, recordOffsets offset position records = earlier ++
      recordOffsets (endOffset 0 continued) (boundary + (layout 0 continued).length) later ∧
    ∀ entry ∈ earlier, entry.2 + kHeaderSize ≤ boundary
  place : continued = [] ∧ later = [] ∧ position + (layout offset front).length ≤ boundary ∨
    continued ++ recordFragments (endOffset 0 continued) later ≠ [] ∧
      blockStart (endOffset offset front) = blockStart 0 ∧ position + (layout offset front).length +
        (trailer (endOffset offset front)).length = boundary
  fewer : later.length ≤ records.length

section Records

variable {offset position boundary : Nat}

theorem blockStart_of_boundary (bound : offset ≤ kBlockSize)
    (here : position % kBlockSize = offset % kBlockSize) (isBlock : boundary % kBlockSize = 0)
    (isStart : position + (trailer offset).length = boundary) :
    blockStart offset = blockStart 0 := by
  rw [length_trailer] at isStart
  rw [blockStart, blockStart, if_neg (by decide : ¬ kBlockSize - 0 < kHeaderSize)]
  split at isStart
  · next small => rw [if_pos small]
  · next large =>
    rw [if_neg large]
    simp only [kBlockSize, kHeaderSize] at *
    omega

theorem exists_blockCut (records : List Bytes) (bound : offset ≤ kBlockSize)
    (here : position % kBlockSize = offset % kBlockSize) (isBlock : boundary % kBlockSize = 0)
    (le : position ≤ boundary) :
    ∃ front continued later, BlockCut boundary offset position records front continued later := by
  induction records generalizing offset position with
  | nil =>
    exact ⟨[], [], [], rfl, nofun, .inl rfl, ⟨[], rfl, nofun⟩, .inl ⟨rfl, rfl, le⟩, le_refl _⟩
  | cons record rest inductionHypothesis =>
    have carries := fragments_carry record offset
    have fit := fragments_fit record offset
    have filled := fragmentsLoop_filled (record.length + 2) true record offset
    rcases Nat.lt_or_eq_of_le (start_le_boundary bound here isBlock le) with before | isStart
    · have headerFits : position + (trailer offset).length + kHeaderSize ≤ boundary := by
        obtain ⟨fragment, others, isList⟩ := List.exists_cons_of_length_pos carries.length_pos
        rw [isList] at fit
        have ends := (Fragment.before_boundary bound fit.1 here isBlock before).1
        rw [Fragment.length_bytes] at ends
        omega
      obtain ⟨front, back, isList, frontEnds, ⟨rfl, endsLe⟩ | ⟨notNone, endsAt⟩⟩ :=
        exists_front fit bound here isBlock le
      · rw [List.append_nil] at isList
        have next : (position + (layout offset (fragments record offset)).length) % kBlockSize =
            endOffset offset (fragments record offset) % kBlockSize := by
          rw [← length_layout_mod bound fit, Nat.add_mod, here, ← Nat.add_mod]
        rw [← isList] at endsLe frontEnds
        obtain ⟨front', continued, later, cut⟩ :=
          inductionHypothesis (endOffset_le bound fit) next endsLe
        obtain ⟨earlier, isStarts, earlierBefore⟩ := cut.starts
        refine ⟨fragments record offset ++ front', continued, later, ?_, ?_, cut.goesOn,
          ⟨(record, position + (trailer offset).length) :: earlier, ?_, ?_⟩, ?_,
          Nat.le_succ_of_le cut.fewer⟩
        · rw [recordFragments, cut.whole, List.append_assoc]
        · rw [fragmentOffsets_append]
          exact List.forall_mem_append.mpr ⟨frontEnds, cut.ends⟩
        · rw [recordOffsets, isStarts, List.cons_append]
        · exact List.forall_mem_cons.mpr ⟨headerFits, earlierBefore⟩
        · rw [layout_append, List.length_append, ← Nat.add_assoc, endOffset_append]
          exact cut.place
      · have notFirst : front ≠ [] := by
          rintro rfl
          exact absurd endsAt before.ne
        rw [isList] at carries
        have isRest : fragmentsLoop (record.length + 2) true record offset = front ++ back := isList
        rw [isList, fit_append] at fit
        rw [isRest] at filled
        have next : (position + (layout offset front).length) % kBlockSize =
            endOffset offset front % kBlockSize := by
          rw [← length_layout_mod bound fit.1, Nat.add_mod, here, ← Nat.add_mod]
        have start := blockStart_of_boundary (endOffset_le bound fit.1) next isBlock endsAt
        have endSame : endOffset offset (front ++ back) = endOffset 0 back := by
          rw [endOffset_append]
          exact endOffset_congr start notNone
        have lengthSame : position + (layout offset (front ++ back)).length =
            boundary + (layout 0 back).length := by
          rw [layout_append, List.length_append, ← Nat.add_assoc]
          exact length_layout_congr start endsAt notNone
        refine ⟨front, back, rest, ?_, frontEnds, ?_,
          ⟨[(record, position + (trailer offset).length)], ?_, ?_⟩,
          .inr ⟨List.append_ne_nil_of_left_ne_nil notNone _, start, endsAt⟩, Nat.le_succ _⟩
        · rw [recordFragments, isList, endSame, List.append_assoc]
        · exact (carries.of_append notFirst).imp_right fun continues =>
            ⟨continues, fit_congr start fit.2, filled_congr start filled.of_append⟩
        · rw [recordOffsets, isList, endSame, lengthSame]
          rfl
        · exact List.forall_mem_singleton.mpr headerFits
    · have start := blockStart_of_boundary bound here isBlock isStart
      have notNone : recordFragments 0 (record :: rest) ≠ [] :=
        List.append_ne_nil_of_left_ne_nil
          (List.ne_nil_of_length_pos (fragments_carry record 0).length_pos) _
      exact ⟨[], [], record :: rest, recordFragments_congr start _, nofun, .inl rfl,
        ⟨[], recordOffsets_congr start isStart _, nofun⟩, .inr ⟨notNone, start, isStart⟩, le_refl _⟩

variable {records later : List Bytes} {front continued : List Fragment}

/-- From the block on the file holds the rest of the cut record and the records behind it. -/
theorem BlockCut.drop_layout
    (cut : BlockCut boundary offset position records front continued later) :
    (layout offset (recordFragments offset records)).drop (boundary - position) =
      layout 0 continued ++ layout (endOffset 0 continued)
        (recordFragments (endOffset 0 continued) later) := by
  rw [cut.whole, ← layout_append, layout_append]
  rcases cut.place with ⟨rfl, rfl, endsLe⟩ | ⟨notNone, start, endsAt⟩
  · rw [List.drop_eq_nil_of_le]
    · rfl
    · rw [List.length_append]
      exact Nat.le_sub_of_add_le' endsLe
  · have isCount : boundary - position = (layout offset front).length +
        (trailer (endOffset offset front)).length := by omega
    obtain ⟨fragment, rest, isBack⟩ := List.exists_cons_of_ne_nil notNone
    rw [isBack, layout, layout, Fragment.endOffset, Fragment.endOffset, start, List.append_assoc,
      ← List.append_assoc, isCount, ← List.length_append, List.drop_left]
    rfl

theorem BlockCut.offsets
    (cut : BlockCut boundary offset position records front continued later) :
    fragmentOffsets offset position (recordFragments offset records) =
      fragmentOffsets offset position front ++ fragmentOffsets 0 boundary
        (continued ++ recordFragments (endOffset 0 continued) later) := by
  rw [cut.whole, fragmentOffsets_append]
  rcases cut.place with ⟨rfl, rfl, -⟩ | ⟨-, start, endsAt⟩
  · rfl
  · rw [fragmentOffsets_congr start endsAt]

/-- Behind the end of the file no record is left. -/
theorem BlockCut.later_eq_nil
    (cut : BlockCut boundary offset position records front continued later)
    (past : position + (layout offset (recordFragments offset records)).length < boundary) :
    continued = [] ∧ later = [] := by
  rcases cut.place with ⟨none', noneLater, -⟩ | ⟨notNone, start, endsAt⟩
  · exact ⟨none', noneLater⟩
  · obtain ⟨fragment, rest, isBack⟩ := List.exists_cons_of_ne_nil notNone
    rw [cut.whole, isBack, layout_append, layout] at past
    simp only [List.length_append] at past
    omega

theorem end_le_of_mem_fragmentOffsets {list : List Fragment} {entry : Fragment × Nat}
    (member : entry ∈ fragmentOffsets offset position list) :
    entry.2 + entry.1.bytes.length ≤ position + (layout offset list).length := by
  induction list generalizing offset position with
  | nil => cases member
  | cons fragment rest inductionHypothesis =>
    rw [layout, List.length_append, ← Nat.add_assoc]
    rcases List.mem_cons.mp member with rfl | later
    · rw [List.length_append, ← Nat.add_assoc]
      exact Nat.le_add_right _ _
    · exact inductionHypothesis later

end Records

/-! ### The block of an initial offset -/

/-- Where a reader starts that is to read from an initial offset: at the block that holds it, or at
the next one when no physical record starts so close to the end of a block. -/
def startBlock (initial : Nat) : Nat :=
  (initial - initial % kBlockSize +
    if kBlockSize - 6 < initial % kBlockSize then kBlockSize else 0) % 2 ^ 64

/-- An offset lies in a fragment that its record goes on behind, and not in the last five bytes of
its block. -/
def FalseAlarm (initial : Nat) (records : List Bytes) : Prop :=
  0 < initial % kBlockSize ∧ initial % kBlockSize ≤ kBlockSize - 6 ∧
    Straddles initial (fragmentOffsets 0 0 (recordFragments 0 records))

theorem startBlock_mod (initial : Nat) : startBlock initial % kBlockSize = 0 := by
  rw [startBlock, Nat.mod_mod_of_dvd _ (by decide : kBlockSize ∣ 2 ^ 64)]
  have isStart := Nat.mod_eq_zero_of_dvd (Nat.dvd_sub_mod (n := kBlockSize) initial)
  split
  · rw [Nat.add_mod_right]
    exact isStart
  · exact isStart

/-- The block of an offset starts before it, or its last bytes hold the offset, or the next block
would lie behind the last number of 64 bits. -/
theorem startBlock_cases {initial : Nat} (isOffset : initial < 2 ^ 64) :
    initial % kBlockSize ≤ kBlockSize - 6 ∧ startBlock initial = initial - initial % kBlockSize ∨
      kBlockSize - 6 < initial % kBlockSize ∧ initial < startBlock initial ∧
        startBlock initial ≤ initial + 5 ∨
      kBlockSize - 6 < initial % kBlockSize ∧ startBlock initial = 0 ∧ 2 ^ 63 ≤ initial := by
  rw [startBlock]
  by_cases last : kBlockSize - 6 < initial % kBlockSize
  · rw [if_pos last]
    simp only [kBlockSize] at *
    omega
  · rw [if_neg last, Nat.add_zero]
    exact .inl ⟨not_lt.mp last, Nat.mod_eq_of_lt (lt_of_le_of_lt (Nat.sub_le _ _) isOffset)⟩

theorem Reader.skipToInitialBlock_none {reader : Reader}
    (fails : reader.file.skip (startBlock reader.initialOffset) = none) :
    reader.skipToInitialBlock =
      (false, { reader with endOfBufferOffset := startBlock reader.initialOffset }.reportDrop
        (startBlock reader.initialOffset) .skipError) := by
  have positive : 0 < startBlock reader.initialOffset := by
    rw [SequentialFile.skip] at fails
    split at fails
    · next short => exact Nat.zero_lt_of_lt short.1
    · cases fails
  refine (if_pos positive).trans ?_
  split
  · rfl
  · next isSome => cases fails.symm.trans isSome

theorem Reader.skipToInitialBlock_some {reader : Reader} {file : SequentialFile}
    (skips : reader.file.skip (startBlock reader.initialOffset) = some file) :
    reader.skipToInitialBlock =
      (true, { reader with endOfBufferOffset := startBlock reader.initialOffset, file }) := by
  by_cases positive : 0 < startBlock reader.initialOffset
  · refine (if_pos positive).trans ?_
    split
    · next isNone => cases skips.symm.trans isNone
    · next isSome =>
      rw [← Option.some.inj (skips.symm.trans isSome)]
      rfl
  · rw [Nat.eq_zero_of_not_pos positive, SequentialFile.skip,
      if_neg fun short => Nat.not_lt_zero _ short.1, List.drop_zero] at skips
    cases skips
    exact if_neg positive

/-- Skipping to the block fails without a report, or leaves the reader at the block. -/
theorem Reader.new_skip (contents : Bytes) (skipPastEndFails checksum : Bool) {initial : Nat}
    (fits : contents.length < 2 ^ 63) (positive : 0 < initial) :
    ∃ reader : Reader, reader.reports = [] ∧
      ((Reader.new { remaining := contents, skipPastEndFails } checksum initial).readRecord =
          (none, reader) ∧ contents.length < startBlock initial ∨
        reader.From initial (contents.drop (startBlock initial)) 0 (startBlock initial) ∧
          reader.resyncing = true ∧
          (Reader.new { remaining := contents, skipPastEndFails } checksum initial).readRecord =
            reader.readRecordLoop ((contents.drop (startBlock initial)).length + 1) {}) := by
  have small : startBlock initial < 2 ^ 64 := Nat.mod_lt _ (by decide)
  have within : startBlock initial + (contents.drop (startBlock initial)).length < 2 ^ 64 := by
    rw [List.length_drop]
    omega
  set first := Reader.new { remaining := contents, skipPastEndFails } checksum initial with isFirst
  have notBefore : first.lastRecordOffset < first.initialOffset := positive
  cases skips : first.file.skip (startBlock initial) with
  | none =>
    refine ⟨{ first with endOfBufferOffset := startBlock initial }, rfl, .inl ⟨?_, ?_⟩⟩
    · have quiet : ¬ initial ≤ sub64 (sub64 (startBlock initial) 0) (startBlock initial) := by
        rw [sub64_eq (Nat.zero_le _) small, Nat.sub_zero, sub64_eq (le_refl _) small, Nat.sub_self]
        exact not_le.mpr positive
      rw [readRecord, if_pos notBefore, skipToInitialBlock_none skips]
      exact congrArg (Prod.mk none) (if_neg quiet)
    · rw [SequentialFile.skip] at skips
      split at skips
      · next short => exact short.1
      · cases skips
  | some file =>
    have isFile : file = { remaining := contents.drop (startBlock initial), skipPastEndFails } := by
      rw [SequentialFile.skip] at skips
      split at skips
      · cases skips
      · exact (Option.some.inj skips).symm
    refine ⟨{ first with endOfBufferOffset := startBlock initial, file }, rfl,
      .inr ⟨⟨⟨?_, .inl ⟨rfl, .inr ⟨rfl, rfl⟩⟩, ?_⟩, rfl, rfl, ?_⟩, decide_eq_true positive, ?_⟩⟩
    · rw [isFile]
      rfl
    · rw [isFile]
    · rw [isFile]
      exact within
    · rw [readRecord, if_pos notBefore, skipToInitialBlock_some skips, if_pos rfl, isFile]
      exact congrArg (fun turns => Reader.readRecordLoop (turns + 1) _ _) (Nat.zero_add _)

/-! ### Reading from an initial offset -/

theorem filter_not_before {initial : Nat} {earlier later : List (Bytes × Nat)}
    (before : ∀ entry ∈ earlier, entry.2 < initial) :
    (earlier ++ later).filter (fun entry => initial ≤ entry.2) =
      later.filter (fun entry => initial ≤ entry.2) := by
  rw [List.filter_append, List.filter_eq_nil_iff.mpr fun entry member => ?_, List.nil_append]
  simpa using before entry member

/-- Records of which the header ends before the block of an offset start before the offset. -/
theorem lt_of_before_startBlock {initial start : Nat} (isOffset : initial < 2 ^ 64)
    (before : start + kHeaderSize ≤ startBlock initial) : start < initial := by
  have isSize : kHeaderSize = 7 := rfl
  rcases startBlock_cases isOffset with ⟨_, isBlock⟩ | ⟨_, _, le⟩ | ⟨_, isBlock, _⟩ <;> omega

/-- From the block of the offset on an offset lies in a fragment that its record goes on behind only
when that raises a false alarm. -/
theorem BlockCut.straddles_iff {initial : Nat} {records later : List Bytes}
    {front continued : List Fragment} (isOffset : initial < 2 ^ 64)
    (cut : BlockCut (startBlock initial) 0 0 records front continued later)
    (fits : (layout 0 (recordFragments 0 records)).length < 2 ^ 63) :
    Straddles initial (fragmentOffsets 0 (startBlock initial)
        (continued ++ recordFragments (endOffset 0 continued) later)) ↔
      FalseAlarm initial records := by
  have whole := cut.offsets
  have length := congrArg List.length cut.drop_layout
  rw [FalseAlarm, whole, straddles_append]
  rw [← layout_append, List.length_drop, Nat.sub_zero] at length
  rcases startBlock_cases isOffset with ⟨inside, isBlock⟩ | ⟨last, behind, _⟩ |
    ⟨last, isBlock, large⟩
  · rcases Nat.eq_zero_or_pos (initial % kBlockSize) with atStart | positive
    · refine iff_of_false (not_straddles_of_le (Nat.le_add_right_of_le ?_)) ?_
      · rw [isBlock, atStart, Nat.sub_zero]
      · rintro ⟨positive, _⟩
        exact absurd atStart positive.ne'
    · have noFront : ¬ Straddles initial (fragmentOffsets 0 0 front) := by
        rintro ⟨entry, member, _, _, le⟩
        have ends := cut.ends entry member
        have notMore := Nat.mod_le initial kBlockSize
        omega
      rw [or_iff_right noFront]
      exact ⟨fun straddles => ⟨positive, inside, straddles⟩, fun alarm => alarm.2.2⟩
  · refine iff_of_false (not_straddles_of_le (Nat.le_add_right_of_le behind.le)) ?_
    rintro ⟨_, inside, _⟩
    exact absurd last (not_lt.mpr inside)
  · refine iff_of_false ?_ ?_
    · rintro ⟨entry, member, _, _, le⟩
      have ends := end_le_of_mem_fragmentOffsets member
      omega
    · rintro ⟨_, inside, _⟩
      exact absurd last (not_lt.mpr inside)

/-- What a reader returns and reports that reads a log from an initial offset to the end. -/
theorem Reader.new_readOffsets (records : List Bytes) (checksum skipPastEndFails : Bool)
    {initial calls : Nat} (isOffset : initial < 2 ^ 64)
    (fits : (written records).length < 2 ^ 63) (enough : records.length < calls) :
    ∃ last : Reader,
      (Reader.new { remaining := written records, skipPastEndFails } checksum initial).readOffsets
          calls =
        ((recordOffsets 0 0 records).filter (fun entry => initial ≤ entry.2), true, last) ∧
      (last.reports = [] ↔ ¬ FalseAlarm initial records) := by
  rw [written_eq] at fits ⊢
  rcases Nat.eq_zero_or_pos initial with rfl | positive
  · have place : (Reader.new { remaining := layout 0 (recordFragments 0 records), skipPastEndFails }
        checksum 0).From 0 (layout 0 (recordFragments 0 records)) 0 0 :=
      ⟨⟨rfl, .inl ⟨rfl, .inr ⟨rfl, rfl⟩⟩, rfl⟩, rfl, rfl, by
        rw [Nat.zero_add]
        exact fits.trans (by decide)⟩
    obtain ⟨last, reads, quiet⟩ := place.readOffsets_behind (le_refl 0) (le_refl 0) enough
    refine ⟨last, ?_, iff_of_true quiet fun alarm => absurd alarm.1 (by decide)⟩
    rw [reads, List.filter_eq_self.mpr fun entry _ => decide_eq_true (Nat.zero_le _)]
  · obtain ⟨front, continued, later, cut⟩ := exists_blockCut records (Nat.zero_le kBlockSize)
      (rfl : 0 % kBlockSize = 0 % kBlockSize) (startBlock_mod initial) (Nat.zero_le _)
    obtain ⟨earlier, isStarts, before⟩ := cut.starts
    rw [isStarts, filter_not_before fun entry member =>
      lt_of_before_startBlock isOffset (before entry member), ← cut.straddles_iff isOffset fits]
    obtain ⟨reader, quiet, ⟨fails, past⟩ | ⟨place, resyncing, isFirst⟩⟩ :=
      Reader.new_skip (layout 0 (recordFragments 0 records)) skipPastEndFails checksum fits positive
    · obtain ⟨rfl, rfl⟩ := cut.later_eq_nil (by rw [Nat.zero_add]; exact past)
      obtain ⟨calls, rfl⟩ := Nat.exists_eq_add_of_le' (Nat.succ_le_of_lt (Nat.zero_lt_of_lt enough))
      refine ⟨reader, ?_, iff_of_true quiet (straddles_nil initial)⟩
      rw [readOffsets, fails]
      rfl
    · have isRest := cut.drop_layout
      rw [Nat.sub_zero] at isRest
      rw [isRest] at place isFirst
      obtain ⟨last, reads, reports⟩ := place.readOffsets_resyncing cut.goesOn resyncing isFirst
        (lt_of_le_of_lt cut.fewer enough)
      rw [quiet] at reports
      exact ⟨last, reads, reports⟩

/-- A log of any records, read from any initial offset, gives the records whose first fragment
starts at or behind the offset, and after each of them its offset. -/
theorem readOffsets_written (records : List Bytes) (checksum skipPastEndFails : Bool)
    {initial calls : Nat} (isOffset : initial < 2 ^ 64)
    (fits : (written records).length < 2 ^ 63) (enough : records.length < calls) :
    ∃ last : Reader,
      (Reader.new { remaining := written records, skipPastEndFails } checksum initial).readOffsets
          calls =
        ((recordOffsets 0 0 records).filter (fun entry => initial ≤ entry.2), true, last) := by
  obtain ⟨last, reads, -⟩ :=
    Reader.new_readOffsets records checksum skipPastEndFails isOffset fits enough
  exact ⟨last, reads⟩

theorem readOffsets_second :
    ∃ last : Reader,
      (Reader.new { remaining := written [[1], [2]] } true 3).readOffsets 3 =
        ((recordOffsets 0 0 [[1], [2]]).filter (fun entry => 3 ≤ entry.2), true, last) :=
  readOffsets_written [[1], [2]] true true (by decide) (by decide) (by decide)

/-- Nothing is reported of a whole log read from an initial offset, unless the offset lies in a
fragment that its record goes on behind. -/
theorem reports_eq_nil_iff (records : List Bytes) (checksum skipPastEndFails : Bool)
    {initial calls : Nat} (isOffset : initial < 2 ^ 64)
    (fits : (written records).length < 2 ^ 63) (enough : records.length < calls) :
    ((Reader.new { remaining := written records, skipPastEndFails } checksum initial).readOffsets
        calls).2.2.reports = [] ↔ ¬ FalseAlarm initial records := by
  obtain ⟨last, reads, quiet⟩ :=
    Reader.new_readOffsets records checksum skipPastEndFails isOffset fits enough
  rw [reads]
  exact quiet

theorem reports_second :
    ((Reader.new { remaining := written [[1], [2]] } true 3).readOffsets 3).2.2.reports = [] ↔
      ¬ FalseAlarm 3 [[1], [2]] :=
  reports_eq_nil_iff [[1], [2]] true true (by decide) (by decide) (by decide)

/-- A record that is longer than its block by less than another one is written in two fragments. -/
theorem fragments_two {record : Bytes} (long : kBlockSize - kHeaderSize < record.length)
    (short : record.length ≤ 2 * (kBlockSize - kHeaderSize)) :
    fragments record 0 = [⟨.kFirstType, record.take (kBlockSize - kHeaderSize)⟩,
      ⟨.kLastType, record.drop (kBlockSize - kHeaderSize)⟩] := by
  have room : avail 0 = kBlockSize - kHeaderSize := by decide
  have isFilled : (⟨.kFirstType, record.take (avail 0)⟩ : Fragment).endOffset 0 = kBlockSize :=
    endOffset_of_filled (List.length_take_of_le (by rw [room]; exact long.le))
  have rest : (record.drop (kBlockSize - kHeaderSize)).length ≤ avail kBlockSize := by
    rw [List.length_drop, avail_of_full (le_refl _)]
    omega
  rw [fragments, fragmentsLoop, if_neg (by rw [room]; exact not_le.mpr long)]
  simp only [show fragmentType true false = .kFirstType from rfl]
  rw [isFilled, fragmentsLoop, room, if_pos rest]
  rfl

/-- Reading behind the first byte of a record of two fragments reports its second fragment. -/
theorem false_alarm_at_one :
    ¬ ∀ (records : List Bytes) (checksum skipPastEndFails : Bool) (initial calls : Nat),
      initial < (written records).length → records.length < calls →
      ((Reader.new { remaining := written records, skipPastEndFails } checksum initial).readOffsets
        calls).2.2.reports = [] := by
  obtain ⟨record, isLong⟩ : ∃ record : Bytes, record.length = 40000 :=
    ⟨List.replicate 40000 0, List.length_replicate⟩
  have isFragments : recordFragments 0 [record] = _ :=
    (List.append_nil _).trans (fragments_two (by rw [isLong]; decide) (by rw [isLong]; decide))
  have length : (written [record]).length = 40014 := by
    rw [written_eq, isFragments, layout, layout, layout]
    simp only [List.length_append, Fragment.length_bytes, List.length_take, List.length_drop,
      isLong, length_trailer, Fragment.endOffset, blockStart]
    decide
  have alarm : FalseAlarm 1 [record] := by
    refine ⟨by decide, by decide, ?_⟩
    rw [isFragments, fragmentOffsets, straddles_cons, Fragment.length_bytes]
    refine .inl ⟨.inl rfl, by decide, Nat.le_add_left_of_le ?_⟩
    exact Nat.le_add_right_of_le (by decide)
  intro silent
  obtain ⟨last, reads, quiet⟩ := Reader.new_readOffsets [record] true true
    (by decide : 1 < 2 ^ 64) (length.trans_lt (by decide)) (Nat.lt_succ_self [record].length)
  have none' := silent [record] true true 1 _
    (lt_of_lt_of_eq (by decide) length.symm) (Nat.lt_succ_self [record].length)
  rw [reads] at none'
  exact quiet.mp none' alarm

end LevelDb.Log
