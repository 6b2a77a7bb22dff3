/-
This file proves what a log reader does that starts at an offset. It passes over the physical
records before the offset, and returns the records whose first fragment starts at or behind it. A
physical record before the offset counts as a bad one and ends the resynchronisation, so that the
fragments behind it are reported when they go on with its record.
-/

import LevelDb.LogRoundTrip

namespace LevelDb.Log

/-! ### Offsets in the file -/

/-- The fragments that are laid out from a position in the file, with the offset of each. -/
def fragmentOffsets : (offset position : Nat) → List Fragment → List (Fragment × Nat)
  | _, _, [] => []
  | offset, position, fragment :: rest =>
    (fragment, position + (trailer offset).length) :: fragmentOffsets (fragment.endOffset offset)
      (position + (trailer offset ++ fragment.bytes).length) rest

/-- The records that are written from a position in the file, with the offset of the first fragment
of each. -/
def recordOffsets : (offset position : Nat) → List Bytes → List (Bytes × Nat)
  | _, _, [] => []
  | offset, position, record :: rest =>
    (record, position + (trailer offset).length) ::
      recordOffsets (endOffset offset (fragments record offset))
        (position + (layout offset (fragments record offset)).length) rest

/-- Calls of `ReadRecord`: the records with `LastRecordOffset` after each, whether the end of the
input was reported, and the reader behind them. -/
def Reader.readOffsets : Nat → Reader → List (Bytes × Nat) × Bool × Reader
  | 0, reader => ([], false, reader)
  | calls + 1, reader =>
    match reader.readRecord with
    | (none, reader) => ([], true, reader)
    | (some record, reader) =>
      let rest := Reader.readOffsets calls reader
      ((record, reader.lastRecordOffset) :: rest.1, rest.2)

theorem fragmentOffsets_append (offset position : Nat) (first second : List Fragment) :
    fragmentOffsets offset position (first ++ second) =
      fragmentOffsets offset position first ++
        fragmentOffsets (endOffset offset first) (position + (layout offset first).length)
          second := by
  induction first generalizing offset position with
  | nil => rfl
  | cons fragment rest inductionHypothesis =>
    have length : position + (layout offset (fragment :: rest)).length =
        position + (trailer offset ++ fragment.bytes).length +
          (layout (fragment.endOffset offset) rest).length := by
      rw [layout, List.length_append, Nat.add_assoc]
    rw [List.cons_append, fragmentOffsets, fragmentOffsets, inductionHypothesis, List.cons_append,
      length]
    rfl

theorem le_of_mem_fragmentOffsets {offset position : Nat} {list : List Fragment}
    {entry : Fragment × Nat} (member : entry ∈ fragmentOffsets offset position list) :
    position + (trailer offset).length ≤ entry.2 := by
  induction list generalizing offset position with
  | nil => cases member
  | cons fragment rest inductionHypothesis =>
    rcases List.mem_cons.mp member with rfl | later
    · exact le_refl _
    · have next := inductionHypothesis later
      rw [List.length_append] at next
      omega

theorem le_of_mem_recordOffsets {offset position : Nat} {records : List Bytes}
    {entry : Bytes × Nat} (member : entry ∈ recordOffsets offset position records) :
    position ≤ entry.2 := by
  induction records generalizing offset position with
  | nil => cases member
  | cons record rest inductionHypothesis =>
    rcases List.mem_cons.mp member with rfl | later
    · exact Nat.le_add_right _ _
    · exact le_trans (Nat.le_add_right _ _) (inductionHypothesis later)

/-! ### Reading at a position -/

theorem sub64_eq {first second : Nat} (le : second ≤ first) (fits : first < 2 ^ 64) :
    sub64 first second = first - second := by
  rw [sub64, Nat.mod_eq_of_lt (lt_of_le_of_lt le fits)]
  omega

theorem sub64_add {first second : Nat} (fits : first + second < 2 ^ 64) :
    sub64 (first + second) second = first := by
  rw [sub64_eq (Nat.le_add_left _ _) fits, Nat.add_sub_cancel]

/-- A reader with some initial offset has yet to consume `stream`, which starts at `position` in the
file. -/
structure Reader.From (reader : Reader) (initial : Nat) (stream : Bytes) (offset position : Nat) :
    Prop extends reader.Holds stream offset where
  initial : reader.initialOffset = initial
  here : reader.endOfBufferOffset = position + reader.buffer.length
  within : position + (reader.buffer ++ reader.file.remaining).length < 2 ^ 64

section From

variable {reader after : Reader} {initial offset position : Nat} {stream : Bytes}

/-- Resynchronisation and reports do not move a reader. -/
theorem Reader.From.moved (place : reader.From initial stream offset position) (resyncing : Bool)
    (lastRecordOffset : Nat) (reports : List (Nat × DropReason)) :
    ({ reader with resyncing, lastRecordOffset, reports } : Reader).From initial stream offset
      position :=
  ⟨⟨place.stream, place.block, place.reliable⟩, place.initial, place.here, place.within⟩

/-- A physical record that is laid out at the position is returned with its offset, or passed over
when it starts before the initial offset. -/
theorem Reader.From.readPhysicalRecord {fragment : Fragment} {rest : Bytes}
    (place : reader.From initial (trailer offset ++ fragment.bytes ++ rest) offset position)
    (fits : fragment.endOffset offset ≤ kBlockSize) (typed : fragment.type ≠ .kZeroType) :
    ∃ after : Reader,
      after.From initial rest (fragment.endOffset offset)
        (position + (trailer offset ++ fragment.bytes).length) ∧ reader.Kept after ∧
      sub64 (sub64 (sub64 after.endOfBufferOffset after.buffer.length) kHeaderSize)
        fragment.payload.length = position + (trailer offset).length ∧
      reader.readPhysicalRecord =
        if position + (trailer offset).length < initial then (kBadRecord, [], after)
        else (fragment.type.code, fragment.payload, after) := by
  obtain ⟨after, holds, kept, moved, reads⟩ := place.toHolds.readPhysicalRecord_fragment fits typed
  have within := place.within
  have here := place.here
  rw [place.stream, List.length_append] at within
  have isHere : after.endOfBufferOffset =
      position + (trailer offset ++ fragment.bytes).length + after.buffer.length := by omega
  have isLeft : after.buffer.length ≤ rest.length := by
    rw [← holds.stream, List.length_append]
    exact Nat.le_add_right _ _
  have isOffset : sub64 (sub64 (sub64 after.endOfBufferOffset after.buffer.length) kHeaderSize)
      fragment.payload.length = position + (trailer offset).length := by
    rw [List.length_append, Fragment.length_bytes] at isHere within
    have isSum : after.endOfBufferOffset = position + (trailer offset).length +
        fragment.payload.length + kHeaderSize + after.buffer.length := by omega
    rw [isSum, sub64_add (by omega), sub64_add (by omega), sub64_add (by omega)]
  rw [isOffset, place.initial] at reads
  refine ⟨after, ⟨holds, kept.initialOffset.trans place.initial, isHere, ?_⟩, kept, isOffset, reads⟩
  rw [holds.stream]
  omega

/-- Without a header the input ends. -/
theorem Reader.From.readPhysicalRecord_nil (place : reader.From initial [] offset position) :
    ∃ after, reader.readPhysicalRecord = (kEof, [], after) ∧ reader.Kept after := by
  rcases place.toHolds.readPhysicalRecord_cases with ⟨_, ends⟩ | ⟨long, _⟩
  · exact ends
  · rw [List.drop_nil] at long
    exact absurd long (by decide)

/-! ### Turns of the loop -/

variable {payload : Bytes} (turns : Nat)

theorem Reader.readRecordLoop_bad (reads : reader.readPhysicalRecord = (kBadRecord, [], after)) :
    reader.readRecordLoop (turns + 1) {} =
      Reader.readRecordLoop turns {} { after with resyncing := false } := by
  rw [Reader.readRecordLoop, reads]
  simp only [show kBadRecord ≠ RecordType.kFullType.code by decide,
    show kBadRecord ≠ RecordType.kFirstType.code by decide,
    show kBadRecord ≠ RecordType.kMiddleType.code by decide,
    show kBadRecord ≠ RecordType.kLastType.code by decide, show kBadRecord ≠ kEof by decide,
    and_false, if_false, if_true, Bool.false_eq_true]

theorem Reader.readRecordLoop_end (reads : reader.readPhysicalRecord = (kEof, [], after)) :
    reader.readRecordLoop (turns + 1) {} = (none, { after with resyncing := false }) := by
  rw [Reader.readRecordLoop, reads]
  simp only [show kEof ≠ RecordType.kFullType.code by decide,
    show kEof ≠ RecordType.kFirstType.code by decide,
    show kEof ≠ RecordType.kMiddleType.code by decide,
    show kEof ≠ RecordType.kLastType.code by decide, and_false, if_false, if_true]

theorem Reader.readRecordLoop_resyncing_middle (resyncing : after.resyncing = true)
    (reads : reader.readPhysicalRecord = (RecordType.kMiddleType.code, payload, after)) :
    reader.readRecordLoop (turns + 1) {} = Reader.readRecordLoop turns {} after := by
  rw [Reader.readRecordLoop, reads]
  simp only [resyncing, and_self, if_true]

theorem Reader.readRecordLoop_resyncing_last (resyncing : after.resyncing = true)
    (reads : reader.readPhysicalRecord = (RecordType.kLastType.code, payload, after)) :
    reader.readRecordLoop (turns + 1) {} =
      Reader.readRecordLoop turns {} { after with resyncing := false } := by
  rw [Reader.readRecordLoop, reads]
  simp only [resyncing, show RecordType.kLastType.code ≠ RecordType.kMiddleType.code by decide,
    and_false, and_self, if_false, if_true]

/-- A fragment that goes on with a record whose start was not read is reported. -/
theorem Reader.readRecordLoop_stray {type : RecordType} (synced : after.resyncing = false)
    (goesOn : type = .kMiddleType ∨ type = .kLastType)
    (reads : reader.readPhysicalRecord = (type.code, payload, after)) :
    ∃ message, reader.readRecordLoop (turns + 1) {} = Reader.readRecordLoop turns {}
      (({ after with resyncing := false } : Reader).reportCorruption payload.length message) := by
  rcases goesOn with rfl | rfl
  · refine ⟨"missing start of fragmented record(1)", ?_⟩
    rw [Reader.readRecordLoop, reads]
    simp only [synced, Bool.false_eq_true, false_and, if_false, if_true,
      show RecordType.kMiddleType.code ≠ RecordType.kFullType.code by decide,
      show RecordType.kMiddleType.code ≠ RecordType.kFirstType.code by decide]
  · refine ⟨"missing start of fragmented record(2)", ?_⟩
    rw [Reader.readRecordLoop, reads]
    simp only [synced, Bool.false_eq_true, false_and, if_false, if_true,
      show RecordType.kLastType.code ≠ RecordType.kFullType.code by decide,
      show RecordType.kLastType.code ≠ RecordType.kFirstType.code by decide,
      show RecordType.kLastType.code ≠ RecordType.kMiddleType.code by decide]

variable {start : Nat}

theorem Reader.readRecordLoop_whole
    (reads : reader.readPhysicalRecord = (RecordType.kFullType.code, payload, after))
    (isStart : sub64 (sub64 (sub64 after.endOfBufferOffset after.buffer.length) kHeaderSize)
      payload.length = start) :
    reader.readRecordLoop (turns + 1) {} =
      (some payload, { after with resyncing := false, lastRecordOffset := start }) := by
  rw [Reader.readRecordLoop, reads]
  simp only [isStart, show RecordType.kFullType.code ≠ RecordType.kMiddleType.code by decide,
    show RecordType.kFullType.code ≠ RecordType.kLastType.code by decide, and_false, if_false,
    if_true, Reader.reportPartial, Bool.false_eq_true, false_and]

theorem Reader.readRecordLoop_begin
    (reads : reader.readPhysicalRecord = (RecordType.kFirstType.code, payload, after))
    (isStart : sub64 (sub64 (sub64 after.endOfBufferOffset after.buffer.length) kHeaderSize)
      payload.length = start) :
    reader.readRecordLoop (turns + 1) {} =
      Reader.readRecordLoop turns ⟨true, start, payload⟩ { after with resyncing := false } := by
  rw [Reader.readRecordLoop, reads]
  simp only [isStart, show RecordType.kFirstType.code ≠ RecordType.kMiddleType.code by decide,
    show RecordType.kFirstType.code ≠ RecordType.kLastType.code by decide,
    show RecordType.kFirstType.code ≠ RecordType.kFullType.code by decide, and_false, if_false,
    if_true, Reader.reportPartial, Bool.false_eq_true, false_and]

theorem Reader.readRecordLoop_more {scratch : Bytes} (synced : after.resyncing = false)
    (reads : reader.readPhysicalRecord = (RecordType.kMiddleType.code, payload, after)) :
    reader.readRecordLoop (turns + 1) ⟨true, start, scratch⟩ =
      Reader.readRecordLoop turns ⟨true, start, scratch ++ payload⟩
        { after with resyncing := false } := by
  rw [Reader.readRecordLoop, reads]
  simp only [synced, Bool.false_eq_true, false_and, if_false, if_true,
    show RecordType.kMiddleType.code ≠ RecordType.kFullType.code by decide,
    show RecordType.kMiddleType.code ≠ RecordType.kFirstType.code by decide]

theorem Reader.readRecordLoop_complete {scratch : Bytes} (synced : after.resyncing = false)
    (reads : reader.readPhysicalRecord = (RecordType.kLastType.code, payload, after)) :
    reader.readRecordLoop (turns + 1) ⟨true, start, scratch⟩ =
      (some (scratch ++ payload),
        { after with resyncing := false, lastRecordOffset := start }) := by
  rw [Reader.readRecordLoop, reads]
  simp only [synced, Bool.false_eq_true, false_and, if_false, if_true,
    show RecordType.kLastType.code ≠ RecordType.kFullType.code by decide,
    show RecordType.kLastType.code ≠ RecordType.kFirstType.code by decide,
    show RecordType.kLastType.code ≠ RecordType.kMiddleType.code by decide]

end From

/-! ### Records that go on behind an offset -/

/-- Every fragment but the last one of a record ends its block. -/
def Filled : Nat → List Fragment → Prop
  | _, [] => True
  | offset, fragment :: rest =>
    (rest ≠ [] → fragment.endOffset offset = kBlockSize) ∧ Filled (fragment.endOffset offset) rest

theorem fragmentsLoop_filled (turns : Nat) (begins : Bool) (left : Bytes) (offset : Nat) :
    Filled offset (fragmentsLoop turns begins left offset) := by
  induction turns generalizing begins left offset with
  | zero => trivial
  | succ turns inductionHypothesis =>
    rw [fragmentsLoop]
    split
    · exact ⟨fun notLast => absurd rfl notLast, trivial⟩
    · next long =>
      refine ⟨fun _ => endOffset_of_filled ?_, inductionHypothesis false _ _⟩
      exact List.length_take_of_le (Nat.le_of_not_le long)

/-- An offset lies behind the start of a fragment that does not end its record, up to its end. -/
def Straddles (initial : Nat) (list : List (Fragment × Nat)) : Prop :=
  ∃ entry ∈ list, (entry.1.type = .kFirstType ∨ entry.1.type = .kMiddleType) ∧
    entry.2 < initial ∧ initial ≤ entry.2 + entry.1.bytes.length

theorem straddles_nil (initial : Nat) : ¬ Straddles initial [] := nofun

theorem straddles_append {initial : Nat} {first second : List (Fragment × Nat)} :
    Straddles initial (first ++ second) ↔ Straddles initial first ∨ Straddles initial second := by
  simp only [Straddles, List.mem_append, or_and_right, exists_or]

theorem straddles_cons {initial start : Nat} {fragment : Fragment} {rest : List (Fragment × Nat)} :
    Straddles initial ((fragment, start) :: rest) ↔
      ((fragment.type = .kFirstType ∨ fragment.type = .kMiddleType) ∧ start < initial ∧
        initial ≤ start + fragment.bytes.length) ∨ Straddles initial rest := by
  simp only [Straddles, List.mem_cons, or_and_right, exists_or, exists_eq_left]

theorem not_straddles_singleton {initial start : Nat} {fragment : Fragment}
    (ends : fragment.type = .kFullType ∨ fragment.type = .kLastType) :
    ¬ Straddles initial [(fragment, start)] := by
  rw [straddles_cons]
  rintro (⟨goesOn, _⟩ | impossible)
  · rcases ends with isType | isType <;> rw [isType] at goesOn <;>
      rcases goesOn with wrong | wrong <;> cases wrong
  · exact straddles_nil initial impossible

theorem not_straddles_of_le {initial offset position : Nat} {list : List Fragment}
    (le : initial ≤ position + (trailer offset).length) :
    ¬ Straddles initial (fragmentOffsets offset position list) := by
  rintro ⟨entry, member, _, before, _⟩
  exact absurd (le_trans le (le_of_mem_fragmentOffsets member)) (not_le.mpr before)

theorem Continues.ne_nil {payload : Bytes} {list : List Fragment}
    (continues : Continues payload list) : list ≠ [] := by
  cases continues <;> exact List.cons_ne_nil _ _

/-- The fragment behind one that fills its block starts where that one ends. -/
theorem fragmentOffsets_of_filled {fragment : Fragment} {rest : List Fragment}
    {offset : Nat} (filled : fragment.endOffset offset = kBlockSize) (position : Nat)
    (notLast : rest ≠ []) :
    ∃ other later, fragmentOffsets (fragment.endOffset offset)
      (position + (trailer offset ++ fragment.bytes).length) rest =
        (other, position + (trailer offset).length + fragment.bytes.length) :: later := by
  obtain ⟨other, later, rfl⟩ := List.exists_cons_of_ne_nil notLast
  rw [filled, fragmentOffsets, List.length_append, ← Nat.add_assoc]
  exact ⟨other, _, rfl⟩

/-- The rest of a record starts before an offset as a whole, when its start does and the offset is
not in one of the fragments that it goes on behind. -/
theorem Continues.before_iff {initial offset position : Nat} {payload : Bytes}
    {list : List Fragment} (continues : Continues payload list) (filled : Filled offset list)
    (before : position + (trailer offset).length < initial) :
    (∀ entry ∈ fragmentOffsets offset position list, entry.2 < initial) ↔
      ¬ Straddles initial (fragmentOffsets offset position list) := by
  induction continues generalizing offset position with
  | last payload =>
    refine iff_of_true (fun entry member => ?_) (not_straddles_singleton (.inr rfl))
    rw [List.mem_singleton.mp member]
    exact before
  | middle payload more inductionHypothesis =>
    obtain ⟨other, later, isRest⟩ :=
      fragmentOffsets_of_filled (filled.1 more.ne_nil) position more.ne_nil
    rw [fragmentOffsets, straddles_cons, List.forall_mem_cons]
    by_cases inside : initial ≤ position + (trailer offset).length +
        (⟨.kMiddleType, payload⟩ : Fragment).bytes.length
    · refine iff_of_false (fun all => ?_) (not_not.mpr (.inl ⟨.inr rfl, before, inside⟩))
      have next := all.2 (other, _) (isRest ▸ List.mem_cons_self)
      exact absurd next (not_lt.mpr inside)
    · have restBefore : position + (trailer offset ++
          (⟨.kMiddleType, payload⟩ : Fragment).bytes).length +
            (trailer ((⟨.kMiddleType, payload⟩ : Fragment).endOffset offset)).length < initial := by
        rw [filled.1 more.ne_nil, List.length_append, ← Nat.add_assoc]
        exact not_le.mp inside
      rw [inductionHypothesis filled.2 restBefore]
      constructor
      · rintro ⟨_, none'⟩ (⟨_, _, wrong⟩ | later')
        · exact inside wrong
        · exact none' later'
      · exact fun none' => ⟨before, fun later' => none' (.inr later')⟩

/-! ### Passing over fragments -/

/-- The loop of `ReadRecord` passes over fragments and goes on without them. -/
structure Passes (initial turns : Nat) (reader : Reader) (turns' : Nat) (after : Reader)
    (tail : Bytes) (offset position : Nat) : Prop where
  goesOn : reader.readRecordLoop turns {} = after.readRecordLoop turns' {}
  place : after.From initial tail offset position
  enough : tail.length < turns'
  synced : after.resyncing = false
  lastRecordOffset : after.lastRecordOffset = reader.lastRecordOffset

/-- A turn before a pass. -/
theorem Passes.cons {initial turns turns' offset position : Nat} {reader next after : Reader}
    {tail : Bytes} (passes : Passes initial turns next turns' after tail offset position)
    (turn : reader.readRecordLoop (turns + 1) {} = next.readRecordLoop turns {})
    (same : next.lastRecordOffset = reader.lastRecordOffset) :
    Passes initial (turns + 1) reader turns' after tail offset position :=
  ⟨turn.trans passes.goesOn, passes.place, passes.enough, passes.synced,
    passes.lastRecordOffset.trans same⟩

section Passing

variable {reader : Reader} {initial turns offset position : Nat} {tail : Bytes}

theorem Reader.reportCorruption_eq {after : Reader} {bytes start : Nat} {message : String}
    (place : after.From initial tail offset position)
    (isStart : start + kHeaderSize + bytes = position)
    (notBefore : initial ≤ start) :
    after.reportCorruption bytes message =
      { after with reports := after.reports ++ [(bytes, .corruption message)] } := by
  have within := place.within
  rw [List.length_append] at within
  have here := place.here
  have isSum : after.endOfBufferOffset = start + kHeaderSize + bytes + after.buffer.length := by
    rw [here, isStart]
  rw [reportCorruption, reportDrop, isSum, sub64_add (by omega), sub64_add (by omega),
    place.initial, if_pos (le_trans notBefore (Nat.le_add_right _ _))]

/-- The rest of a record is passed over. While the reader resynchronises nothing is reported of what
lies behind the initial offset; otherwise all of that is. -/
theorem Reader.From.passes_continues {payload : Bytes} {list : List Fragment}
    (continues : Continues payload list) (fit : Fit offset list) (filled : Filled offset list)
    (place : reader.From initial (layout offset list ++ tail) offset position)
    (enough : (layout offset list ++ tail).length < turns) :
    ∃ turns' after extra, Passes initial turns reader turns' after tail (endOffset offset list)
        (position + (layout offset list).length) ∧
      after.reports = reader.reports ++ extra ∧
      (reader.resyncing = false → (extra = [] ↔
        ∀ entry ∈ fragmentOffsets offset position list, entry.2 < initial)) ∧
      (reader.resyncing = true → (extra = [] ↔
        ¬ Straddles initial (fragmentOffsets offset position list))) := by
  have positive : 0 < kHeaderSize := by decide
  induction continues generalizing reader turns offset position with
  | last payload =>
    obtain ⟨turns, rfl⟩ := Nat.exists_eq_add_of_le' (Nat.succ_le_of_lt (Nat.zero_lt_of_lt enough))
    have isLayout : layout offset [⟨.kLastType, payload⟩] =
        trailer offset ++ (⟨.kLastType, payload⟩ : Fragment).bytes := List.append_nil _
    rw [isLayout] at place enough ⊢
    obtain ⟨after, afterPlace, kept, isStart, reads⟩ :=
      place.readPhysicalRecord fit.1 (fun same => by cases same)
    have fewer : tail.length < turns := by
      rw [List.length_append, List.length_append, Fragment.length_bytes] at enough
      omega
    have noStraddle : ¬ Straddles initial
        (fragmentOffsets offset position [⟨.kLastType, payload⟩]) :=
      not_straddles_singleton (.inr rfl)
    by_cases before : position + (trailer offset).length < initial
    · rw [if_pos before] at reads
      refine ⟨turns, { after with resyncing := false }, [], ⟨readRecordLoop_bad turns reads,
        afterPlace.moved _ _ _, fewer, rfl, kept.lastRecordOffset⟩, ?_, fun _ => ?_, fun _ => ?_⟩
      · rw [List.append_nil]
        exact kept.reports
      · exact iff_of_true rfl fun entry member => by
          rw [List.mem_singleton.mp member]
          exact before
      · exact iff_of_true rfl noStraddle
    · rw [if_neg before] at reads
      cases resyncing : reader.resyncing with
      | true =>
        refine ⟨turns, { after with resyncing := false }, [], ⟨readRecordLoop_resyncing_last turns
          (kept.resyncing.trans resyncing) reads, afterPlace.moved _ _ _, fewer, rfl,
          kept.lastRecordOffset⟩, ?_, nofun, fun _ => iff_of_true rfl noStraddle⟩
        rw [List.append_nil]
        exact kept.reports
      | false =>
        obtain ⟨message, goesOn⟩ := readRecordLoop_stray turns (kept.resyncing.trans resyncing)
          (.inr rfl) reads
        have synced := afterPlace.moved false after.lastRecordOffset after.reports
        rw [reportCorruption_eq synced (by
          rw [List.length_append, Fragment.length_bytes, Nat.add_assoc, Nat.add_assoc])
          (not_lt.mp before)] at goesOn
        refine ⟨turns, _, [_], ⟨goesOn, afterPlace.moved _ _ _, fewer, rfl, kept.lastRecordOffset⟩,
          congrArg (· ++ _) kept.reports, fun _ => ?_, nofun⟩
        refine iff_of_false (List.cons_ne_nil _ _) fun all => before ?_
        exact all _ (List.mem_singleton.mpr rfl)
  | @middle payload _ rest more inductionHypothesis =>
    have before_iff (before : position + (trailer offset).length < initial) :=
      (Continues.middle payload more).before_iff filled before
    obtain ⟨turns, rfl⟩ := Nat.exists_eq_add_of_le' (Nat.succ_le_of_lt (Nat.zero_lt_of_lt enough))
    rw [layout, List.append_assoc] at place enough
    rw [layout, List.length_append, ← Nat.add_assoc]
    obtain ⟨after, afterPlace, kept, isStart, reads⟩ :=
      place.readPhysicalRecord fit.1 (fun same => by cases same)
    have fewer : (layout ((⟨.kMiddleType, payload⟩ : Fragment).endOffset offset) rest ++
        tail).length < turns := by
      rw [List.length_append, List.length_append, Fragment.length_bytes] at enough
      omega
    by_cases before : position + (trailer offset).length < initial
    · rw [if_pos before] at reads
      have synced := afterPlace.moved false after.lastRecordOffset after.reports
      obtain ⟨turns', last, extra, passes, reports, isQuiet, -⟩ :=
        inductionHypothesis fit.2 filled.2 synced fewer
      refine ⟨turns', last, extra, passes.cons (readRecordLoop_bad turns reads)
        kept.lastRecordOffset, reports.trans (congrArg (· ++ extra) kept.reports), fun _ => ?_,
        fun _ => ?_⟩
      · rw [isQuiet rfl, fragmentOffsets, List.forall_mem_cons, and_iff_right before]
      · rw [← before_iff before, isQuiet rfl, fragmentOffsets, List.forall_mem_cons,
          and_iff_right before]
    · rw [if_neg before] at reads
      cases resyncing : reader.resyncing with
      | true =>
        obtain ⟨turns', last, extra, passes, reports, -, isQuiet⟩ :=
          inductionHypothesis fit.2 filled.2 afterPlace fewer
        refine ⟨turns', last, extra, passes.cons (readRecordLoop_resyncing_middle turns
          (kept.resyncing.trans resyncing) reads) kept.lastRecordOffset,
          reports.trans (congrArg (· ++ extra) kept.reports), nofun, fun _ => ?_⟩
        rw [isQuiet (kept.resyncing.trans resyncing), fragmentOffsets, straddles_cons,
          or_iff_right fun wrong => before wrong.2.1]
      | false =>
        obtain ⟨message, goesOn⟩ := readRecordLoop_stray turns (kept.resyncing.trans resyncing)
          (.inl rfl) reads
        have synced := afterPlace.moved false after.lastRecordOffset after.reports
        rw [reportCorruption_eq synced (by
          rw [List.length_append, Fragment.length_bytes, Nat.add_assoc, Nat.add_assoc])
          (not_lt.mp before)] at goesOn
        obtain ⟨turns', last, extra, passes, reports, -, -⟩ :=
          inductionHypothesis fit.2 filled.2 (afterPlace.moved false after.lastRecordOffset
            (after.reports ++ [(payload.length, .corruption message)])) fewer
        refine ⟨turns', last, [(payload.length, .corruption message)] ++ extra,
          passes.cons goesOn kept.lastRecordOffset, ?_, fun _ => ?_, nofun⟩
        · rw [reports, ← List.append_assoc, ← kept.reports]
        · refine iff_of_false (List.cons_ne_nil _ _) fun all => before ?_
          exact all _ List.mem_cons_self

/-- A record that starts before the initial offset is passed over. Fragments of it behind the
initial offset are reported. -/
theorem Reader.From.passes_record {record : Bytes} {list : List Fragment}
    (carries : Carries record list) (fit : Fit offset list) (filled : Filled offset list)
    (place : reader.From initial (layout offset list ++ tail) offset position)
    (before : position + (trailer offset).length < initial)
    (enough : (layout offset list ++ tail).length < turns) :
    ∃ turns' after extra, Passes initial turns reader turns' after tail (endOffset offset list)
        (position + (layout offset list).length) ∧
      after.reports = reader.reports ++ extra ∧
      (extra = [] ↔ ¬ Straddles initial (fragmentOffsets offset position list)) := by
  have positive : 0 < kHeaderSize := by decide
  obtain ⟨turns, rfl⟩ := Nat.exists_eq_add_of_le' (Nat.succ_le_of_lt (Nat.zero_lt_of_lt enough))
  cases carries with
  | full =>
    have isLayout : layout offset [⟨.kFullType, record⟩] =
        trailer offset ++ (⟨.kFullType, record⟩ : Fragment).bytes := List.append_nil _
    rw [isLayout] at place enough ⊢
    obtain ⟨after, afterPlace, kept, isStart, reads⟩ :=
      place.readPhysicalRecord fit.1 (fun same => by cases same)
    rw [if_pos before] at reads
    rw [List.length_append, List.length_append, Fragment.length_bytes] at enough
    refine ⟨turns, { after with resyncing := false }, [], ⟨readRecordLoop_bad turns reads,
      afterPlace.moved _ _ _, by omega, rfl, kept.lastRecordOffset⟩, ?_,
      iff_of_true rfl (not_straddles_singleton (.inl rfl))⟩
    rw [List.append_nil]
    exact kept.reports
  | @first payload _ rest more =>
    rw [layout, List.append_assoc] at place enough
    rw [layout, List.length_append, ← Nat.add_assoc]
    obtain ⟨after, afterPlace, kept, isStart, reads⟩ :=
      place.readPhysicalRecord fit.1 (fun same => by cases same)
    rw [if_pos before] at reads
    have fewer : (layout ((⟨.kFirstType, payload⟩ : Fragment).endOffset offset) rest ++
        tail).length < turns := by
      rw [List.length_append, List.length_append, Fragment.length_bytes] at enough
      omega
    obtain ⟨turns', last, extra, passes, reports, isQuiet, -⟩ := Reader.From.passes_continues more
      fit.2 filled.2 (afterPlace.moved false after.lastRecordOffset after.reports) fewer
    refine ⟨turns', last, extra, passes.cons (readRecordLoop_bad turns reads) kept.lastRecordOffset,
      reports.trans (congrArg (· ++ extra) kept.reports), ?_⟩
    obtain ⟨other, later, isRest⟩ :=
      fragmentOffsets_of_filled (filled.1 more.ne_nil) position more.ne_nil
    rw [isQuiet rfl, fragmentOffsets, straddles_cons]
    by_cases inside : initial ≤ position + (trailer offset).length +
        (⟨.kFirstType, payload⟩ : Fragment).bytes.length
    · refine iff_of_false (fun all => ?_) (not_not.mpr (.inl ⟨.inl rfl, before, inside⟩))
      have next := all (other, _) (isRest ▸ List.mem_cons_self)
      exact absurd next (not_lt.mpr inside)
    · have restBefore : position + (trailer offset ++
          (⟨.kFirstType, payload⟩ : Fragment).bytes).length +
            (trailer ((⟨.kFirstType, payload⟩ : Fragment).endOffset offset)).length < initial := by
        rw [filled.1 more.ne_nil, List.length_append, ← Nat.add_assoc]
        exact not_le.mp inside
      rw [more.before_iff filled.2 restBefore, or_iff_right fun wrong => inside wrong.2.2]

/-! ### Returning records -/

/-- The rest of a record behind the initial offset completes it. -/
theorem Reader.From.returns_continues {rest scratch : Bytes} {list : List Fragment} {start : Nat}
    (continues : Continues rest list) (fit : Fit offset list) (synced : reader.resyncing = false)
    (place : reader.From initial (layout offset list ++ tail) offset position)
    (behind : initial ≤ position) (enough : list.length ≤ turns) :
    ∃ after : Reader, reader.readRecordLoop turns ⟨true, start, scratch⟩ =
        (some (scratch ++ rest), after) ∧
      after.From initial tail (endOffset offset list) (position + (layout offset list).length) ∧
      after.resyncing = false ∧ after.lastRecordOffset = start ∧
      after.reports = reader.reports := by
  have notBefore : ¬ position + (trailer offset).length < initial :=
    not_lt.mpr (le_trans behind (Nat.le_add_right _ _))
  induction continues generalizing reader turns offset position scratch with
  | last payload =>
    obtain ⟨turns, rfl⟩ := Nat.exists_eq_add_of_le' enough
    have isLayout : layout offset [⟨.kLastType, payload⟩] =
        trailer offset ++ (⟨.kLastType, payload⟩ : Fragment).bytes := List.append_nil _
    rw [isLayout] at place ⊢
    obtain ⟨after, afterPlace, kept, isStart, reads⟩ :=
      place.readPhysicalRecord fit.1 (fun same => by cases same)
    rw [if_neg notBefore] at reads
    exact ⟨_, readRecordLoop_complete turns (kept.resyncing.trans synced) reads,
      afterPlace.moved _ _ _, rfl, rfl, kept.reports⟩
  | @middle payload _ list more inductionHypothesis =>
    obtain ⟨turns, rfl⟩ := Nat.exists_eq_add_of_le' (Nat.succ_le_of_lt (Nat.lt_of_lt_of_le
      (Nat.succ_pos _) enough))
    rw [layout, List.append_assoc] at place
    rw [layout, List.length_append, ← Nat.add_assoc]
    obtain ⟨after, afterPlace, kept, isStart, reads⟩ :=
      place.readPhysicalRecord fit.1 (fun same => by cases same)
    rw [if_neg notBefore] at reads
    have stillBehind : initial ≤ position + (trailer offset ++
        (⟨.kMiddleType, payload⟩ : Fragment).bytes).length := le_trans behind (Nat.le_add_right _ _)
    obtain ⟨last, ends, lastPlace, lastSynced, isOffset, reports⟩ :=
      inductionHypothesis fit.2 rfl (afterPlace.moved false after.lastRecordOffset after.reports)
        stillBehind (Nat.le_of_succ_le_succ enough)
        (not_lt.mpr (le_trans stillBehind (Nat.le_add_right _ _)))
    refine ⟨last, ?_, lastPlace, lastSynced, isOffset, reports.trans kept.reports⟩
    rw [readRecordLoop_more turns (kept.resyncing.trans synced) reads, ends, List.append_assoc]

/-- A record that starts at or behind the initial offset is returned, with its offset. -/
theorem Reader.From.returns_record {record : Bytes} {list : List Fragment}
    (carries : Carries record list) (fit : Fit offset list)
    (place : reader.From initial (layout offset list ++ tail) offset position)
    (behind : initial ≤ position + (trailer offset).length) (enough : list.length ≤ turns) :
    ∃ after : Reader, reader.readRecordLoop turns {} = (some record, after) ∧
      after.From initial tail (endOffset offset list) (position + (layout offset list).length) ∧
      after.resyncing = false ∧ after.lastRecordOffset = position + (trailer offset).length ∧
      after.reports = reader.reports := by
  cases carries with
  | full =>
    obtain ⟨turns, rfl⟩ := Nat.exists_eq_add_of_le' enough
    have isLayout : layout offset [⟨.kFullType, record⟩] =
        trailer offset ++ (⟨.kFullType, record⟩ : Fragment).bytes := List.append_nil _
    rw [isLayout] at place ⊢
    obtain ⟨after, afterPlace, kept, isStart, reads⟩ :=
      place.readPhysicalRecord fit.1 (fun same => by cases same)
    rw [if_neg (not_lt.mpr behind)] at reads
    exact ⟨_, readRecordLoop_whole turns reads isStart, afterPlace.moved _ _ _, rfl, rfl,
      kept.reports⟩
  | @first payload _ list more =>
    obtain ⟨turns, rfl⟩ := Nat.exists_eq_add_of_le' (Nat.succ_le_of_lt (Nat.lt_of_lt_of_le
      (Nat.succ_pos _) enough))
    rw [layout, List.append_assoc] at place
    rw [layout, List.length_append, ← Nat.add_assoc]
    obtain ⟨after, afterPlace, kept, isStart, reads⟩ :=
      place.readPhysicalRecord fit.1 (fun same => by cases same)
    rw [if_neg (not_lt.mpr behind)] at reads
    have stillBehind : initial ≤ position + (trailer offset ++
        (⟨.kFirstType, payload⟩ : Fragment).bytes).length := by
      rw [List.length_append]
      omega
    obtain ⟨last, ends, lastPlace, lastSynced, isOffset, reports⟩ :=
      Reader.From.returns_continues more fit.2 rfl
        (afterPlace.moved false after.lastRecordOffset after.reports) stillBehind
        (Nat.le_of_succ_le_succ enough)
    exact ⟨last, (readRecordLoop_begin turns reads isStart).trans ends, lastPlace, lastSynced,
      isOffset, reports.trans kept.reports⟩

/-- One call of the loop passes over the records that start before the initial offset, and returns
the first one behind it or finds the end of the input. -/
theorem Reader.From.scan {records : List Bytes}
    (place : reader.From initial (layout offset (recordFragments offset records)) offset position)
    (enough : (layout offset (recordFragments offset records)).length < turns) :
    ∃ after extra, after.reports = reader.reports ++ extra ∧
      (extra = [] ↔
        ¬ Straddles initial (fragmentOffsets offset position (recordFragments offset records))) ∧
      (reader.readRecordLoop turns {} = (none, after) ∧
          (∀ entry ∈ recordOffsets offset position records, entry.2 < initial) ∨
        ∃ record start rest offset' position',
          reader.readRecordLoop turns {} = (some record, after) ∧
          after.From initial (layout offset' (recordFragments offset' rest)) offset' position' ∧
          initial ≤ position' ∧ after.resyncing = false ∧ after.lastRecordOffset = start ∧
          initial ≤ start ∧ rest.length < records.length ∧
          (recordOffsets offset position records).filter (fun entry => initial ≤ entry.2) =
            (record, start) :: recordOffsets offset' position' rest) := by
  induction records generalizing reader turns offset position with
  | nil =>
    obtain ⟨turns, rfl⟩ := Nat.exists_eq_add_of_le' (Nat.succ_le_of_lt (Nat.zero_lt_of_lt enough))
    obtain ⟨after, reads, kept⟩ := place.readPhysicalRecord_nil
    refine ⟨{ after with resyncing := false }, [], ?_, iff_of_true rfl (straddles_nil initial),
      .inl ⟨readRecordLoop_end turns reads, nofun⟩⟩
    rw [List.append_nil]
    exact kept.reports
  | cons record rest inductionHypothesis =>
    rw [recordFragments, layout_append] at place enough
    rw [recordFragments, fragmentOffsets_append, straddles_append]
    by_cases before : position + (trailer offset).length < initial
    · obtain ⟨turns', middle, extra, passes, reports, isQuiet⟩ := place.passes_record
        (fragments_carry record offset) (fragments_fit record offset)
        (fragmentsLoop_filled _ _ _ _) before enough
      obtain ⟨after, extra', reports', isQuiet', outcome⟩ :=
        inductionHypothesis passes.place passes.enough
      refine ⟨after, extra ++ extra', ?_, ?_, ?_⟩
      · rw [reports', reports, List.append_assoc]
      · rw [List.append_eq_nil_iff, isQuiet, isQuiet', not_or]
      · rcases outcome with ⟨ends, all⟩ | ⟨other, start, later, offset', position', returns,
          atLater, behind, synced, isStart, startBehind, fewer, isFilter⟩
        · refine .inl ⟨passes.goesOn.trans ends, fun entry member => ?_⟩
          rcases List.mem_cons.mp member with rfl | isLater
          · exact before
          · exact all entry isLater
        · refine .inr ⟨other, start, later, offset', position', passes.goesOn.trans returns,
            atLater, behind, synced, isStart, startBehind, Nat.lt_succ_of_lt fewer, ?_⟩
          rw [recordOffsets, List.filter_cons_of_neg (by simpa using before), isFilter]
    · have behind := not_lt.mp before
      have bound := length_le_layout offset (fragments record offset)
      rw [List.length_append] at enough
      obtain ⟨after, returns, atRest, synced, isStart, reports⟩ := place.returns_record
        (fragments_carry record offset) (fragments_fit record offset) behind
        (show (fragments record offset).length ≤ turns by omega)
      have next : initial ≤ position + (layout offset (fragments record offset)).length := by
        have nonempty := (fragments_carry record offset).length_pos
        obtain ⟨fragment, others, isList⟩ := List.exists_cons_of_length_pos nonempty
        rw [isList, layout, List.length_append, List.length_append]
        omega
      have restBehind := le_trans next (Nat.le_add_right _
        (trailer (endOffset offset (fragments record offset))).length)
      refine ⟨after, [], ?_, iff_of_true rfl (not_or.mpr ⟨not_straddles_of_le behind,
        not_straddles_of_le restBehind⟩), .inr ⟨record, _, rest, _, _, returns, atRest, next,
          synced, isStart, behind, Nat.lt_succ_self _, ?_⟩⟩
      · rw [List.append_nil]
        exact reports
      · rw [recordOffsets, List.filter_cons_of_pos (by simpa using behind),
          List.filter_eq_self.mpr fun entry member => ?_]
        simpa using le_trans next (le_of_mem_recordOffsets member)

theorem Reader.From.readRecord_eq {stream : Bytes}
    (place : reader.From initial stream offset position)
    (behind : initial ≤ reader.lastRecordOffset) :
    reader.readRecord = reader.readRecordLoop (stream.length + 1) {} := by
  have notBefore : ¬ reader.lastRecordOffset < reader.initialOffset := by
    rw [place.initial]
    exact not_lt.mpr behind
  rw [Reader.readRecord, if_neg notBefore, if_pos rfl, ← List.length_append, place.stream]

/-- Behind the initial offset all records are returned, and nothing is reported. -/
theorem Reader.From.readOffsets_behind {records : List Bytes}
    (place : reader.From initial (layout offset (recordFragments offset records)) offset position)
    (isBehind : initial ≤ position) (behind : initial ≤ reader.lastRecordOffset) {calls : Nat}
    (enough : records.length < calls) :
    ∃ last, reader.readOffsets calls = (recordOffsets offset position records, true, last) ∧
      last.reports = reader.reports := by
  induction records generalizing reader offset position calls with
  | nil =>
    obtain ⟨calls, rfl⟩ := Nat.exists_eq_add_of_le' (Nat.succ_le_of_lt enough)
    obtain ⟨after, reads, kept⟩ := place.readPhysicalRecord_nil
    have ends := (place.readRecord_eq behind).trans (readRecordLoop_end 0 reads)
    refine ⟨{ after with resyncing := false }, ?_, kept.reports⟩
    show (match reader.readRecord with
      | (none, reader) => ([], true, reader)
      | (some record, reader) => _) = _
    rw [ends]
    rfl
  | cons record rest inductionHypothesis =>
    obtain ⟨calls, rfl⟩ := Nat.exists_eq_add_of_le' (Nat.succ_le_of_lt (Nat.zero_lt_of_lt enough))
    have reads := place.readRecord_eq behind
    rw [recordFragments, layout_append] at place reads
    have bound := length_le_layout offset (fragments record offset)
    have turnsLeft : (fragments record offset).length ≤ (layout offset (fragments record offset) ++
        layout (endOffset offset (fragments record offset)) (recordFragments (endOffset offset
          (fragments record offset)) rest)).length + 1 := by
      rw [List.length_append]
      omega
    have startBehind : initial ≤ position + (trailer offset).length :=
      le_trans isBehind (Nat.le_add_right _ _)
    obtain ⟨after, returns, atRest, synced, isStart, reports⟩ := place.returns_record
      (fragments_carry record offset) (fragments_fit record offset) startBehind turnsLeft
    obtain ⟨last, others, restReports⟩ := inductionHypothesis atRest
      (le_trans isBehind (Nat.le_add_right _ _)) (isStart ▸ startBehind)
      (Nat.lt_of_succ_lt_succ enough)
    refine ⟨last, ?_, restReports.trans reports⟩
    rw [readOffsets, reads, returns]
    simp only [others, isStart, recordOffsets]

/-- The calls of `ReadRecord` when the first one starts in the middle of a record or between two. -/
theorem Reader.From.readOffsets_resyncing {continued : List Fragment} {records : List Bytes}
    (goesOn : continued = [] ∨
      (∃ payload, Continues payload continued) ∧ Fit offset continued ∧ Filled offset continued)
    (place : reader.From initial (layout offset continued ++ layout (endOffset offset continued)
      (recordFragments (endOffset offset continued) records)) offset position)
    (resyncing : reader.resyncing = true) {first : Reader}
    (isFirst : first.readRecord = reader.readRecordLoop ((layout offset continued ++
      layout (endOffset offset continued)
        (recordFragments (endOffset offset continued) records)).length + 1) {})
    {calls : Nat} (enough : records.length < calls) :
    ∃ last, first.readOffsets calls =
        ((recordOffsets (endOffset offset continued) (position + (layout offset continued).length)
          records).filter (fun entry => initial ≤ entry.2), true, last) ∧
      (last.reports = reader.reports ↔ ¬ Straddles initial (fragmentOffsets offset position
        (continued ++ recordFragments (endOffset offset continued) records))) := by
  obtain ⟨turns, middle, extra, loops, atRecords, turnsLeft, reports, isQuiet⟩ :
      ∃ (turns : Nat) (middle : Reader) (extra : List (Nat × DropReason)),
        reader.readRecordLoop ((layout offset continued ++ layout (endOffset offset continued)
          (recordFragments (endOffset offset continued) records)).length + 1) {} =
            middle.readRecordLoop turns {} ∧
        middle.From initial (layout (endOffset offset continued)
          (recordFragments (endOffset offset continued) records)) (endOffset offset continued)
            (position + (layout offset continued).length) ∧
        (layout (endOffset offset continued)
          (recordFragments (endOffset offset continued) records)).length < turns ∧
        middle.reports = reader.reports ++ extra ∧
        (extra = [] ↔ ¬ Straddles initial (fragmentOffsets offset position continued)) := by
    rcases goesOn with rfl | ⟨⟨payload, continues⟩, fit, filled⟩
    · exact ⟨_, reader, [], rfl, place, Nat.lt_succ_self _, (List.append_nil _).symm,
        iff_of_true rfl (straddles_nil initial)⟩
    · obtain ⟨turns, middle, extra, passes, reports, -, isQuiet⟩ :=
        place.passes_continues continues fit filled (Nat.lt_succ_self _)
      exact ⟨turns, middle, extra, passes.goesOn, passes.place, passes.enough, reports,
        isQuiet resyncing⟩
  obtain ⟨after, extra', reports', isQuiet', outcome⟩ := atRecords.scan turnsLeft
  have allQuiet : extra ++ extra' = [] ↔ ¬ Straddles initial (fragmentOffsets offset position
      (continued ++ recordFragments (endOffset offset continued) records)) := by
    rw [List.append_eq_nil_iff, isQuiet, isQuiet', fragmentOffsets_append, straddles_append, not_or]
  have allReports : after.reports = reader.reports ++ (extra ++ extra') := by
    rw [reports', reports, List.append_assoc]
  obtain ⟨calls, rfl⟩ := Nat.exists_eq_add_of_le' (Nat.succ_le_of_lt (Nat.zero_lt_of_lt enough))
  rcases outcome with ⟨ends, all⟩ | ⟨record, start, later, offset', position', returns, atLater,
    behind, synced, isStart, startBehind, fewer, isFilter⟩
  · refine ⟨after, ?_, ?_⟩
    · rw [readOffsets, isFirst, loops, ends, List.filter_eq_nil_iff.mpr fun entry member => ?_]
      simpa using all entry member
    · rw [allReports, List.append_right_eq_self, allQuiet]
  · obtain ⟨last, others, restReports⟩ := atLater.readOffsets_behind behind (isStart ▸ startBehind)
      (show later.length < calls by omega)
    refine ⟨last, ?_, ?_⟩
    · rw [readOffsets, isFirst, loops, returns, isFilter]
      simp only [others, isStart]
    · rw [restReports, allReports, List.append_right_eq_self, allQuiet]

end Passing

end LevelDb.Log
