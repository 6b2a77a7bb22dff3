/-
This file describes what is read from a log that was cut off by a crash and then reopened for
appending, as `RecoverLogFile` and `ReuseManifest` do with `reuse_logs`. The new records start right
behind the cut. If the cut falls into a physical record, the reader takes what was appended for the
rest of that record.

The records that were complete and all appended ones are read back whatever is appended exactly if
the cut falls into no physical record, or so near to the end of the block that the writer goes on in
the next one and the zeros in between do not complete the physical record.
-/

import LevelDb.LogPieces

namespace LevelDb.Log

/-! ### Where a cut falls -/

/-- The physical record that a cut falls into: where it starts in its block, the record, and how
many of its bytes are kept. -/
def tornAt : Nat → List Fragment → Nat → Option (Nat × Fragment × Nat)
  | _, [], _ => none
  | offset, fragment :: rest, kept =>
    if kept ≤ (trailer offset).length then none
    else if kept < (trailer offset ++ fragment.bytes).length then
      some (blockStart offset, fragment, kept - (trailer offset).length)
    else
      tornAt (fragment.endOffset offset) rest (kept - (trailer offset ++ fragment.bytes).length)

/-- What a cut leaves behind the fragments that are whole. -/
inductive CutsOff (offset : Nat) : Option (Nat × Fragment × Nat) → Bytes → Prop
  | padding (kept : Nat) : CutsOff offset none ((trailer offset).take kept)
  | inside (fragment : Fragment) (kept : Nat) (some' : 0 < kept)
      (cut : kept < fragment.bytes.length) (fits : fragment.endOffset offset ≤ kBlockSize)
      (typed : fragment.type ≠ .kZeroType) :
      CutsOff offset (some (blockStart offset, fragment, kept))
        (trailer offset ++ fragment.bytes.take kept)

/-- The first fragments of a record, without its last one. -/
inductive Opens : List Fragment → Prop
  | nil : Opens []
  | first (payload : Bytes) (middles : List Fragment)
      (isMiddle : ∀ fragment ∈ middles, fragment.type = .kMiddleType) :
      Opens (⟨.kFirstType, payload⟩ :: middles)

theorem tornAt_append_of_le {offset kept : Nat} {first : List Fragment}
    (behind : (layout offset first).length ≤ kept) (second : List Fragment) :
    tornAt offset (first ++ second) kept =
      tornAt (endOffset offset first) second (kept - (layout offset first).length) := by
  induction first generalizing offset kept with
  | nil => rfl
  | cons fragment rest inductionHypothesis =>
    have positive := headerSize_pos
    have size := Fragment.length_bytes fragment
    rw [layout, List.length_append, List.length_append] at behind
    rw [List.cons_append, tornAt, if_neg (by omega), if_neg (by rw [List.length_append]; omega),
      inductionHypothesis (by rw [List.length_append]; omega), layout, List.length_append,
      List.length_append, List.length_append, Nat.sub_sub]
    rfl

variable {fragment : Fragment}

/-- A cut within one fragment. -/
theorem CutsOff.of_fragment {offset kept : Nat} (rest : List Fragment)
    (fits : fragment.endOffset offset ≤ kBlockSize) (typed : fragment.type ≠ .kZeroType)
    (cut : kept < (trailer offset ++ fragment.bytes).length) :
    CutsOff offset (tornAt offset (fragment :: rest) kept)
      ((trailer offset ++ fragment.bytes).take kept) := by
  rw [tornAt]
  split
  · rename_i inTrailer
    rw [List.take_append_of_le_length inTrailer]
    exact .padding kept
  · rename_i behind
    have behind := Nat.lt_of_not_le behind
    rw [List.take_append, List.take_of_length_le behind.le]
    rw [List.length_append] at cut
    exact .inside fragment _ (by omega) (by omega) fits typed

theorem tornAt_cons_of_le {offset kept : Nat} (rest : List Fragment)
    (behind : (trailer offset ++ fragment.bytes).length ≤ kept) :
    tornAt offset (fragment :: rest) kept =
      tornAt (fragment.endOffset offset) rest
        (kept - (trailer offset ++ fragment.bytes).length) := by
  have laid : layout offset [fragment] = trailer offset ++ fragment.bytes := List.append_nil _
  have whole := @tornAt_append_of_le offset kept [fragment] (by rw [laid]; exact behind) rest
  rw [laid] at whole
  exact whole

variable {fragments : List Fragment}

/-- A cut behind the first fragment of a record. -/
theorem cut_continues {rest : Bytes}
    (continues : Continues rest fragments) {offset kept : Nat} (fit : Fit offset fragments)
    (cut : kept < (layout offset fragments).length) :
    ∃ middles tail, (∀ fragment ∈ middles, fragment.type = .kMiddleType) ∧ Fit offset middles ∧
      (layout offset fragments).take kept = layout offset middles ++ tail ∧
        CutsOff (endOffset offset middles) (tornAt offset fragments kept) tail := by
  induction continues generalizing offset kept with
  | last payload =>
    have single : layout offset [⟨.kLastType, payload⟩] =
        trailer offset ++ Fragment.bytes ⟨.kLastType, payload⟩ := List.append_nil _
    rw [single] at cut ⊢
    exact ⟨[], _, fun _ member => absurd member List.not_mem_nil, trivial, rfl,
      .of_fragment [] fit.1 (fun same => by cases same) cut⟩
  | middle payload more inductionHypothesis =>
    rw [layout] at cut ⊢
    rcases take_append_cases kept (trailer offset ++ Fragment.bytes ⟨.kMiddleType, payload⟩) _ with
      ⟨inside, isCut⟩ | ⟨behind, isCut⟩
    · rw [isCut]
      exact ⟨[], _, fun _ member => absurd member List.not_mem_nil, trivial, rfl,
        .of_fragment _ fit.1 (fun same => by cases same) inside⟩
    · rw [List.length_append] at cut
      obtain ⟨middles, tail, isMiddle, middlesFit, isTail, cutsOff⟩ :=
        inductionHypothesis fit.2 (Nat.sub_lt_left_of_lt_add behind cut)
      rw [isCut, isTail, tornAt_cons_of_le _ behind]
      refine ⟨⟨.kMiddleType, payload⟩ :: middles, tail, ?_, ⟨fit.1, middlesFit⟩, ?_, cutsOff⟩
      · intro fragment member
        rcases List.mem_cons.mp member with rfl | later
        · rfl
        · exact isMiddle fragment later
      · rw [layout, List.append_assoc (trailer offset ++ _)]

/-- A cut within the fragments of a record. -/
theorem cut_carries {record : Bytes} (carries : Carries record fragments)
    {offset kept : Nat} (fit : Fit offset fragments)
    (cut : kept < (layout offset fragments).length) :
    ∃ front tail, Opens front ∧ Fit offset front ∧
      (layout offset fragments).take kept = layout offset front ++ tail ∧
        CutsOff (endOffset offset front) (tornAt offset fragments kept) tail ∧
          (front = [] → ∀ torn ∈ tornAt offset fragments kept, torn.2.1.type ≠ .kLastType) := by
  have torn_of_inside : ∀ {fragment : Fragment} {rest : List Fragment},
      kept < (trailer offset ++ fragment.bytes).length →
        ∀ torn ∈ tornAt offset (fragment :: rest) kept, torn.2.1 = fragment := by
    intro fragment rest inside torn isTorn
    rw [tornAt] at isTorn
    split at isTorn
    · cases isTorn
    · cases isTorn
      rfl
  cases carries with
  | full =>
    have single : layout offset [⟨.kFullType, record⟩] =
        trailer offset ++ Fragment.bytes ⟨.kFullType, record⟩ := List.append_nil _
    rw [single] at cut ⊢
    refine ⟨[], _, .nil, trivial, rfl, .of_fragment [] fit.1 (fun same => by cases same) cut,
      fun _ torn isTorn same => ?_⟩
    rw [torn_of_inside cut torn isTorn] at same
    cases same
  | first payload continues =>
    rw [layout] at cut ⊢
    rcases take_append_cases kept (trailer offset ++ Fragment.bytes ⟨.kFirstType, payload⟩) _ with
      ⟨inside, isCut⟩ | ⟨behind, isCut⟩
    · rw [isCut]
      refine ⟨[], _, .nil, trivial, rfl, .of_fragment _ fit.1 (fun same => by cases same) inside,
        fun _ torn isTorn same => ?_⟩
      rw [torn_of_inside inside torn isTorn] at same
      cases same
    · rw [List.length_append] at cut
      obtain ⟨middles, tail, isMiddle, middlesFit, isTail, cutsOff⟩ :=
        cut_continues continues fit.2 (Nat.sub_lt_left_of_lt_add behind cut)
      rw [isCut, isTail, tornAt_cons_of_le _ behind]
      refine ⟨⟨.kFirstType, payload⟩ :: middles, tail, .first payload middles isMiddle,
        ⟨fit.1, middlesFit⟩, ?_, cutsOff, fun empty => (by cases empty)⟩
      rw [layout, List.append_assoc (trailer offset ++ _)]

theorem tornAt_append_of_lt {offset kept : Nat} {first : List Fragment}
    (inside : kept < (layout offset first).length) (second : List Fragment) :
    tornAt offset (first ++ second) kept = tornAt offset first kept := by
  induction first generalizing offset kept with
  | nil => exact absurd inside (Nat.not_lt_zero _)
  | cons fragment rest inductionHypothesis =>
    rw [List.cons_append, tornAt, tornAt]
    split
    · rfl
    split
    · rfl
    · rename_i behind
      rw [layout, List.length_append] at inside
      exact inductionHypothesis (Nat.sub_lt_left_of_lt_add (Nat.le_of_not_lt behind) inside)

/-- The first `count` records are those that end within the first `kept` bytes. -/
structure Complete (offset : Nat) (records : List Bytes) (kept count : Nat) : Prop where
  bound : count ≤ records.length
  within : ∀ index < records.length, index < count ↔
    (layout offset (recordFragments offset (records.take (index + 1)))).length ≤ kept

/-- Where a cut through records laid out at an offset falls. -/
structure Cut (offset : Nat) (records : List Bytes) (kept count : Nat) (front : List Fragment)
    (tail : Bytes) : Prop where
  complete : Complete offset records kept count
  opens : Opens front
  fit : Fit offset (recordFragments offset (records.take count) ++ front)
  bytes : (layout offset (recordFragments offset records)).take kept =
    layout offset (recordFragments offset (records.take count) ++ front) ++ tail
  cutsOff : CutsOff (endOffset offset (recordFragments offset (records.take count) ++ front))
    (tornAt offset (recordFragments offset records) kept) tail
  notLast : front = [] → ∀ torn ∈ tornAt offset (recordFragments offset records) kept,
    torn.2.1.type ≠ .kLastType

theorem exists_cut (offset : Nat) (records : List Bytes) (kept : Nat) :
    ∃ count front tail, Cut offset records kept count front tail := by
  induction records generalizing offset kept with
  | nil =>
    refine ⟨0, [], [], ⟨⟨le_rfl, fun index below => absurd below (Nat.not_lt_zero _)⟩, .nil, trivial,
      ?_, ?_, fun _ torn isTorn => (by cases isTorn)⟩⟩
    · rw [recordFragments, layout, List.take_nil]
      rfl
    · exact .padding 0
  | cons record rest inductionHypothesis =>
    have lengths : ∀ others : List Bytes,
        (layout offset (recordFragments offset (record :: others))).length =
          (layout offset (fragments record offset)).length +
            (layout (endOffset offset (fragments record offset))
              (recordFragments (endOffset offset (fragments record offset)) others)).length := by
      intro others
      rw [recordFragments, layout_append, List.length_append]
    rcases take_append_cases kept (layout offset (fragments record offset))
      (layout (endOffset offset (fragments record offset))
        (recordFragments (endOffset offset (fragments record offset)) rest)) with
      ⟨inside, isCut⟩ | ⟨behind, isCut⟩
    · obtain ⟨front, tail, opens, fit, bytes, cutsOff, notLast⟩ :=
        cut_carries (fragments_carry record offset) (fragments_fit record offset) inside
      have torn := tornAt_append_of_lt inside
        (recordFragments (endOffset offset (fragments record offset)) rest)
      refine ⟨0, front, tail, ⟨⟨Nat.zero_le _, fun index _ => ?_⟩, opens, fit, ?_, ?_, ?_⟩⟩
      · rw [List.take_succ_cons, lengths]
        exact ⟨fun below => absurd below (Nat.not_lt_zero _), fun within => by omega⟩
      · rw [recordFragments, layout_append, isCut, bytes]
        rfl
      · rw [recordFragments, torn]
        exact cutsOff
      · rw [recordFragments, torn]
        exact notLast
    · obtain ⟨count, front, tail, cut⟩ := inductionHypothesis
        (endOffset offset (fragments record offset))
        (kept - (layout offset (fragments record offset)).length)
      have torn := tornAt_append_of_le behind
        (recordFragments (endOffset offset (fragments record offset)) rest)
      have taken : recordFragments offset ((record :: rest).take (count + 1)) ++ front =
          fragments record offset ++ (recordFragments (endOffset offset (fragments record offset))
            (rest.take count) ++ front) := by
        rw [List.take_succ_cons, recordFragments, List.append_assoc]
      refine ⟨count + 1, front, tail, ⟨⟨Nat.succ_le_succ cut.complete.bound, fun index below => ?_⟩,
        cut.opens, ?_, ?_, ?_, ?_⟩⟩
      · rw [List.take_succ_cons, lengths]
        cases index with
        | zero =>
          rw [List.take_zero, recordFragments, layout, List.length_nil, Nat.add_zero]
          exact ⟨fun _ => behind, fun _ => Nat.succ_pos _⟩
        | succ index =>
          have within := cut.complete.within index (Nat.lt_of_succ_lt_succ below)
          rw [Nat.succ_lt_succ_iff, within]
          omega
      · rw [taken]
        exact fit_append.mpr ⟨fragments_fit record offset, cut.fit⟩
      · rw [taken, recordFragments, layout_append, isCut, cut.bytes,
          layout_append offset (fragments record offset), List.append_assoc]
      · rw [taken, recordFragments, torn, endOffset, List.foldl_append]
        exact cut.cutsOff
      · rw [recordFragments, torn]
        exact cut.notLast

/-! ### What the reopened file holds -/

/-- A log cut off after `kept` bytes, reopened with its length and appended to. -/
def reused (records : List Bytes) (kept : Nat) (appended : List Bytes) : Bytes :=
  let file := (written records).take kept
  ((Writer.resume ⟨file, []⟩ file.length).addRecords appended).2.dest.contents

theorem reused_eq (records : List Bytes) (kept : Nat) (appended : List Bytes) :
    reused records kept appended = (written records).take kept ++
      layout (((written records).take kept).length % kBlockSize)
        (recordFragments (((written records).take kept).length % kBlockSize) appended) := by
  obtain ⟨_, _, wrote⟩ := Writer.addRecords_of_outcomes
    (show (Writer.resume ⟨(written records).take kept, []⟩
      ((written records).take kept).length).dest.outcomes = [] from rfl) appended
  exact wrote.contents

/-- Fragments laid out from two offsets with the same next start differ in the zeros before them
only. -/
theorem layout_of_start {offset other : Nat} (start : blockStart offset = blockStart other)
    (some' : fragments ≠ []) :
    ∃ body, layout offset fragments = trailer offset ++ body ∧
      layout other fragments = trailer other ++ body := by
  cases fragments with
  | nil => exact absurd rfl some'
  | cons fragment rest =>
    refine ⟨fragment.bytes ++ layout (fragment.endOffset offset) rest, ?_, ?_⟩
    · rw [layout, List.append_assoc]
    · rw [layout, List.append_assoc, Fragment.endOffset, Fragment.endOffset, start]

variable {records : List Bytes}

theorem recordFragments_ne_nil (offset : Nat) (some' : records ≠ []) :
    recordFragments offset records ≠ [] := by
  cases records with
  | nil => exact absurd rfl some'
  | cons record rest =>
    have positive := (fragments_carry record offset).length_pos
    rw [recordFragments]
    exact List.append_ne_nil_of_left_ne_nil (List.ne_nil_of_length_pos positive) _

variable {offset : Nat}

/-- A writer that goes on from within the zeros at the end of a block completes them. -/
theorem layout_resume_padding (bound : offset ≤ kBlockSize) (kept : Nat)
    {appended : List Bytes} (some' : appended ≠ []) {resumed : Nat}
    (isResumed : resumed = (offset + ((trailer offset).take kept).length) % kBlockSize) :
    (trailer offset).take kept ++ layout resumed (recordFragments resumed appended) =
      layout offset (recordFragments offset appended) := by
  have small : kHeaderSize ≤ kBlockSize := by decide
  have joins : blockStart resumed = blockStart offset ∧
      (trailer offset).take kept ++ trailer resumed = trailer offset := by
    by_cases full : kBlockSize - offset < kHeaderSize
    · have start : blockStart offset = 0 := if_pos full
      have zeros : trailer offset = List.replicate (kBlockSize - offset) 0 := if_pos full
      rw [zeros, List.take_replicate, List.length_replicate] at isResumed
      rw [zeros, start, List.take_replicate]
      rcases Nat.lt_or_ge kept (kBlockSize - offset) with inside | behind
      · have isMin : min kept (kBlockSize - offset) = kept := Nat.min_eq_left inside.le
        rw [isMin, Nat.mod_eq_of_lt (by omega)] at isResumed
        have resumedFull : kBlockSize - resumed < kHeaderSize := by omega
        refine ⟨if_pos resumedFull, ?_⟩
        rw [isMin, trailer, if_pos resumedFull, List.replicate_append_replicate]
        congr 1
        omega
      · have isMin : min kept (kBlockSize - offset) = kBlockSize - offset := Nat.min_eq_right behind
        rw [isMin, Nat.add_sub_cancel' bound, Nat.mod_self] at isResumed
        rw [isResumed, isMin]
        exact ⟨by decide, List.append_nil _⟩
    · have zeros : trailer offset = [] := if_neg full
      rw [zeros, List.take_nil, List.length_nil, Nat.add_zero] at isResumed
      rw [zeros, List.take_nil, isResumed]
      obtain ⟨start, padding⟩ := blockStart_mod bound
      exact ⟨start, padding.trans zeros⟩
  obtain ⟨body, isResumedBody, isBody⟩ :=
    layout_of_start joins.1 (recordFragments_ne_nil resumed some')
  rw [isResumedBody, ← List.append_assoc, joins.2, ← recordFragments_congr joins.1, isBody]

variable {tail : Bytes}

theorem length_cut_mod {kept count : Nat} {front : List Fragment}
    (cut : Cut 0 records kept count front tail) :
    ((written records).take kept).length % kBlockSize =
      (endOffset 0 (recordFragments 0 (records.take count) ++ front) + tail.length) %
        kBlockSize := by
  have laid := length_layout_mod (Nat.zero_le kBlockSize) cut.fit
  rw [Nat.zero_add] at laid
  rw [written_eq, cut.bytes, List.length_append, Nat.add_mod, laid, ← Nat.add_mod]

/-- The offset behind the zeros before a fragment. -/
theorem add_length_trailer_mod (bound : offset ≤ kBlockSize) (kept : Nat) :
    (offset + (trailer offset).length + kept) % kBlockSize =
      (blockStart offset + kept) % kBlockSize := by
  rw [length_trailer, blockStart]
  split
  · rw [Nat.add_sub_cancel' bound, Nat.add_mod_left, Nat.zero_add]
  · rfl

/-! ### Readers that check checksums -/

/-- A turn of the loop dispatches the physical record it got. -/
theorem Reader.readRecordLoop_dispatch {reader after : Reader} {recordType : Nat} {fragment : Bytes}
    (reads : reader.readPhysicalRecord = (recordType, fragment, after))
    (synced : after.resyncing = false) (turns : Nat) (pending : Partial) :
    reader.readRecordLoop (turns + 1) pending =
      match after.dispatch pending recordType fragment with
      | .inl result => result
      | .inr (pending, reader) => reader.readRecordLoop turns pending := by
  rewrite [Reader.readRecordLoop_succ (by rw [reads]; exact synced), Reader.turn, reads]
  rfl

section Checksum

/-- Both readers check checksums, or neither does, and the same holds for resyncing. -/
def Reader.SameMode (reader after : Reader) : Prop :=
  after.checksum = reader.checksum ∧ after.resyncing = reader.resyncing

variable (reader : Reader)

theorem Reader.reportDrop_checksum (bytes : Nat) (reason : DropReason) :
    (reader.reportDrop bytes reason).checksum = reader.checksum := by
  rw [Reader.reportDrop]
  split <;> rfl

theorem Reader.reportDrop_resyncing (bytes : Nat) (reason : DropReason) :
    (reader.reportDrop bytes reason).resyncing = reader.resyncing := by
  rw [Reader.reportDrop]
  split <;> rfl

theorem Reader.sameMode_reportDrop (bytes : Nat) (reason : DropReason) :
    reader.SameMode (reader.reportDrop bytes reason) :=
  ⟨reader.reportDrop_checksum bytes reason, reader.reportDrop_resyncing bytes reason⟩

theorem Reader.sameMode_reportPartial (pending : Partial) (message : String) :
    reader.SameMode (reader.reportPartial pending message) := by
  rw [Reader.reportPartial]
  split
  · exact reader.sameMode_reportDrop _ _
  · exact ⟨rfl, rfl⟩

theorem Reader.sameMode_parsePhysicalRecord :
    reader.SameMode reader.parsePhysicalRecord.2.2 := by
  rw [Reader.parsePhysicalRecord]
  simp only
  split_ifs
  · exact ⟨rfl, rfl⟩
  · exact ⟨Reader.reportDrop_checksum _ _ _, Reader.reportDrop_resyncing _ _ _⟩
  · exact ⟨rfl, rfl⟩
  · exact ⟨Reader.reportDrop_checksum _ _ _, Reader.reportDrop_resyncing _ _ _⟩
  · exact ⟨rfl, rfl⟩
  · exact ⟨rfl, rfl⟩

theorem Reader.sameMode_readPhysicalRecord : reader.SameMode reader.readPhysicalRecord.2.2 := by
  rw [Reader.readPhysicalRecord]
  split
  · split
    · exact ⟨rfl, rfl⟩
    split
    · exact ⟨Reader.reportDrop_checksum _ _ _, Reader.reportDrop_resyncing _ _ _⟩
    · rename_i data file _
      simp only
      split
      · exact ⟨rfl, rfl⟩
      · have same := (reader.fetched data file).sameMode_parsePhysicalRecord
        exact ⟨same.1, same.2⟩
  · exact reader.sameMode_parsePhysicalRecord

theorem Reader.sameMode_dispatch (pending : Partial) (recordType : Nat) (fragment : Bytes) :
    (∀ result after, reader.dispatch pending recordType fragment = .inl (result, after) →
        reader.SameMode after) ∧
      ∀ pending' after, reader.dispatch pending recordType fragment = .inr (pending', after) →
        reader.SameMode after := by
  have reported : ∀ bytes message, reader.SameMode (reader.reportCorruption bytes message) :=
    fun bytes message => reader.sameMode_reportDrop bytes (.corruption message)
  have reportedPartial := fun message => reader.sameMode_reportPartial pending message
  rw [Reader.dispatch]
  constructor
  · intro result after returns
    split_ifs at returns <;> cases returns
    · exact ⟨(reportedPartial _).1, (reportedPartial _).2⟩
    · exact ⟨rfl, rfl⟩
    · exact ⟨rfl, rfl⟩
  · intro pending' after goesOn
    split_ifs at goesOn <;> cases goesOn
    · exact reportedPartial _
    · exact ⟨rfl, rfl⟩
    · exact reported _ _
    · exact reported _ _
    · exact reported _ _
    · exact ⟨rfl, rfl⟩
    · exact reported _ _
    · exact reported _ _

/-- `ReadRecord` goes on checking checksums. -/
theorem Reader.readRecordLoop_checksum (synced : reader.resyncing = false) (turns : Nat)
    (pending : Partial) :
    (reader.readRecordLoop turns pending).2.checksum = reader.checksum := by
  induction turns generalizing reader pending with
  | zero => rfl
  | succ turns inductionHypothesis =>
    have read := reader.sameMode_readPhysicalRecord
    cases reads : reader.readPhysicalRecord with
    | mk recordType rest =>
      obtain ⟨fragment, after⟩ := rest
      rw [reads] at read
      have synced' : after.resyncing = false := read.2.trans synced
      obtain ⟨returned, wentOn⟩ := after.sameMode_dispatch pending recordType fragment
      rw [Reader.readRecordLoop_dispatch reads synced']
      cases outcome : after.dispatch pending recordType fragment with
      | inl result => exact (returned result.1 result.2 outcome).1.trans read.1
      | inr next =>
        have same := wentOn next.1 next.2 outcome
        exact (inductionHypothesis next.2 (same.2.trans synced') next.1).trans
          (same.1.trans read.1)

end Checksum

/-- A reader that checks checksums at its position. -/
structure Reader.Checks (reader : Reader) (stream : Bytes) (offset : Nat) : Prop where
  position : reader.At stream offset
  checksum : reader.checksum = true

variable {reader : Reader}

theorem Reader.Checks.readRecords_laid
    (checks : reader.Checks (layout offset (recordFragments offset records) ++ tail)
      offset) (calls : Nat) :
    ∃ reader' : Reader, reader.readRecords (records.length + calls) =
        (records ++ (reader'.readRecords calls).1, (reader'.readRecords calls).2) ∧
      reader'.Checks tail (endOffset offset (recordFragments offset records)) := by
  induction records generalizing reader offset with
  | nil =>
    refine ⟨reader, ?_, checks⟩
    rw [List.length_nil, Nat.zero_add, List.nil_append]
  | cons record rest inductionHypothesis =>
    have position := checks.position
    rw [recordFragments, layout_append, List.append_assoc] at position
    obtain ⟨next, returns, nextAt, _⟩ :=
      position.readRecord_carries (fragments_carry record offset) (fragments_fit record offset)
    have kept : next.checksum = true := by
      have loops := congrArg (fun result => result.2.checksum) position.readRecord_eq
      rw [returns, reader.readRecordLoop_checksum position.synced, checks.checksum] at loops
      exact loops
    obtain ⟨last, restReads, lastChecks⟩ := inductionHypothesis ⟨nextAt, kept⟩
    refine ⟨last, ?_, ?_⟩
    · rw [List.length_cons, Nat.succ_add, Reader.readRecords, returns]
      simp only [restReads, List.cons_append]
    · rw [recordFragments, endOffset, List.foldl_append]
      exact lastChecks

theorem Reader.Checks.readPhysicalRecord_fragment {rest : Bytes}
    (checks : reader.Checks (trailer offset ++ fragment.bytes ++ rest) offset)
    (fits : fragment.endOffset offset ≤ kBlockSize) (typed : fragment.type ≠ .kZeroType) :
    ∃ reader', reader.readPhysicalRecord = (fragment.type.code, fragment.payload, reader') ∧
      reader'.Checks rest (fragment.endOffset offset) := by
  obtain ⟨after, reads, afterAt, _⟩ := checks.position.readPhysicalRecord_fragment fits typed
  have kept := reader.sameMode_readPhysicalRecord.1
  rw [reads, checks.checksum] at kept
  exact ⟨after, reads, afterAt, kept⟩

/-- Middle fragments are remembered. -/
theorem Reader.Checks.readRecordLoop_middles {middles : List Fragment}
    (isMiddle : ∀ fragment ∈ middles, fragment.type = .kMiddleType)
    {pending : Partial} (isPending : pending.inFragmentedRecord = true)
    (fit : Fit offset middles) (checks : reader.Checks (layout offset middles ++ tail) offset)
    (turns : Nat) :
    ∃ pending' reader', reader.readRecordLoop (turns + middles.length) pending =
        Reader.readRecordLoop turns pending' reader' ∧
      reader'.Checks tail (endOffset offset middles) ∧ pending'.inFragmentedRecord = true := by
  induction middles generalizing reader offset pending with
  | nil => exact ⟨pending, reader, rfl, checks, isPending⟩
  | cons fragment rest inductionHypothesis =>
    have type := isMiddle fragment List.mem_cons_self
    rw [layout, List.append_assoc] at checks
    obtain ⟨after, reads, afterChecks⟩ := checks.readPhysicalRecord_fragment fit.1
      (by rw [type]; decide)
    rw [type] at reads
    have dispatches : after.dispatch pending RecordType.kMiddleType.code fragment.payload =
        .inr ({ pending with scratch := pending.scratch ++ fragment.payload }, after) := by
      rw [Reader.dispatch, if_neg (by decide), if_neg (by decide), if_pos rfl, if_pos isPending]
    obtain ⟨pending', reader', loops, checks', isPending'⟩ := inductionHypothesis
      (fun other member => isMiddle other (List.mem_cons_of_mem _ member))
      (show ({ pending with scratch := pending.scratch ++ fragment.payload } :
        Partial).inFragmentedRecord = true from isPending) fit.2 afterChecks
    refine ⟨pending', reader', ?_, checks', isPending'⟩
    rw [List.length_cons, ← Nat.add_assoc,
      Reader.readRecordLoop_dispatch reads afterChecks.position.synced, dispatches]
    exact loops

/-- The first fragments of a record are remembered. -/
theorem Reader.Checks.readRecordLoop_opens {front : List Fragment} (opens : Opens front)
    (fit : Fit offset front)
    (checks : reader.Checks (layout offset front ++ tail) offset) (turns : Nat) :
    ∃ pending reader', reader.readRecordLoop (turns + front.length) {} =
        Reader.readRecordLoop turns pending reader' ∧
      reader'.Checks tail (endOffset offset front) ∧
        (front ≠ [] → pending.inFragmentedRecord = true) := by
  cases opens with
  | nil => exact ⟨{}, reader, rfl, checks, fun some' => absurd rfl some'⟩
  | first payload middles isMiddle =>
    rw [layout, List.append_assoc] at checks
    obtain ⟨after, reads, afterChecks⟩ :=
      checks.readPhysicalRecord_fragment fit.1 fun same => by cases same
    obtain ⟨offset', dispatches⟩ : ∃ offset', after.dispatch {} RecordType.kFirstType.code payload =
        .inr (⟨true, offset', payload⟩, after) := by
      rw [Reader.dispatch, if_neg (by decide), if_pos rfl, Reader.reportPartial_of_not_pending rfl]
      exact ⟨_, rfl⟩
    obtain ⟨pending', reader', loops, checks', isPending'⟩ :=
      Reader.Checks.readRecordLoop_middles isMiddle
        (show (⟨true, offset', payload⟩ : Partial).inFragmentedRecord = true from rfl) fit.2
        afterChecks turns
    refine ⟨pending', reader', ?_, checks', fun _ => isPending'⟩
    rw [List.length_cons, ← Nat.add_assoc,
      Reader.readRecordLoop_dispatch reads afterChecks.position.synced, dispatches]
    exact loops

/-! ### The torn physical record -/

/-- The zeros that a writer puts behind a torn physical record complete it. -/
def Completed (fragment : Fragment) (kept : Nat) : Prop :=
  kHeaderSize ≤ kept ∧ (fragment.type = .kFullType ∨ fragment.type = .kLastType) ∧
    ChecksumHolds (fragment.bytes.take kept ++
      List.replicate (fragment.bytes.length - kept) 0)

/-- The writer goes on in the next block, and the zeros in between do not complete the torn physical
record. -/
def Harmless (start : Nat) (fragment : Fragment) (kept : Nat) : Prop :=
  kBlockSize - (start + kept) < kHeaderSize ∧ ¬ Completed fragment kept

theorem getD_header_type (type : RecordType) (payload rest : Bytes) :
    headerType (header type payload ++ rest) = UInt8.ofNat type.code ∧
      (payload.length < 2 ^ 16 → headerLength (header type payload ++ rest) = payload.length) := by
  obtain ⟨low, high, isType⟩ := header_getD type payload rest
  refine ⟨isType, fun fits => ?_⟩
  rw [headerLength, low, high]
  exact length_of_bytes fits

/-- The bytes kept of a torn physical record with its header whole. -/
theorem take_bytes_of_le {kept : Nat} (headed : kHeaderSize ≤ kept) :
    fragment.bytes.take kept = header fragment.type fragment.payload ++
      fragment.payload.take (kept - kHeaderSize) := by
  rw [Fragment.bytes, List.take_append, length_header,
    List.take_of_length_le (by rw [length_header]; exact headed)]

section Torn

variable {fragment : Fragment} {kept position : Nat}

theorem Piece.code_accepted {position : Nat} {type : RecordType} {payload : Bytes} :
    (⟨position, UInt8.ofNat type.code, .accepted payload⟩ : Piece).code = type.code :=
  typeOfByte_code type

/-- How the reader takes a block that ends with a torn physical record whose header is whole: the
checksum decides. -/
theorem pieceAt_headed {last : Bool} {tail : Bytes} (headed : kHeaderSize ≤ kept)
    (small : fragment.payload.length < 2 ^ 16) (typed : fragment.type ≠ .kZeroType)
    (long : fragment.bytes.length ≤ (fragment.bytes.take kept ++ tail).length) :
    pieceAt true last position (fragment.bytes.take kept ++ tail) =
      if ChecksumHolds (fragment.bytes.take kept ++ tail) then
        some (⟨position, UInt8.ofNat fragment.type.code,
            .accepted (((fragment.bytes.take kept ++ tail).drop kHeaderSize).take
              fragment.payload.length)⟩,
          (fragment.bytes.take kept ++ tail).drop fragment.bytes.length)
      else some (⟨position, UInt8.ofNat fragment.type.code,
        .badChecksum (fragment.bytes.take kept ++ tail).length⟩, []) := by
  have size := Fragment.length_bytes fragment
  have notZero : fragment.type.code ≠ RecordType.kZeroType.code := fun same =>
    typed (RecordType.code_injective same)
  obtain ⟨isType, isLength⟩ := getD_header_type fragment.type fragment.payload
    (fragment.payload.take (kept - kHeaderSize) ++ tail)
  rw [← List.append_assoc, ← take_bytes_of_le headed] at isType isLength
  have isLength := isLength small
  rw [pieceAt, isLength, isType, if_neg (by omega), if_neg (by omega), typeOfByte_code,
    if_neg (fun both => notZero both.1), size]
  by_cases holds : ChecksumHolds (fragment.bytes.take kept ++ tail)
  · rw [if_neg (fun both => both.2 holds), if_pos holds]
  · rw [if_pos ⟨rfl, holds⟩, if_neg holds]

/-- A torn header that is filled up with zeros has type zero. -/
theorem headerType_of_zeros {count : Nat} (cut : kept < kHeaderSize) (inside : kept < fragment.bytes.length)
    (long : kHeaderSize ≤ kept + count) (tail : Bytes) :
    headerType (fragment.bytes.take kept ++ List.replicate count 0 ++ tail) = 0 := by
  have size : kHeaderSize = 7 := rfl
  have length : (fragment.bytes.take kept).length = kept := List.length_take_of_le inside.le
  rw [headerType, List.getD_eq_getElem?_getD, List.getElem?_append_left (by
    rw [List.length_append, length, List.length_replicate]; omega),
    List.getElem?_append_right (by rw [length]; omega), length, List.getElem?_replicate,
    if_pos (by omega)]
  rfl

/-- Any piece takes at least a header, and its code is the type in that header or says that it is
bad. -/
theorem pieceAt_code {checksum last : Bool} {block rest : Bytes} {piece : Piece}
    (found : pieceAt checksum last position block = some (piece, rest)) :
    rest.length + kHeaderSize ≤ block.length ∧
      (piece.code = kBadRecord ∨ piece.code = typeOfByte (headerType block)) := by
  rw [pieceAt] at found
  split at found
  · cases found
  rename_i headed
  have headed := Nat.le_of_not_lt headed
  have nothing : ([] : Bytes).length + kHeaderSize ≤ block.length := by
    rw [List.length_nil, Nat.zero_add]
    exact headed
  split at found
  · split at found
    · cases found
    · cases found
      exact ⟨nothing, Or.inl rfl⟩
  split at found
  · cases found
    exact ⟨nothing, Or.inl rfl⟩
  split at found
  · cases found
    exact ⟨nothing, Or.inl rfl⟩
  · cases found
    rw [List.length_drop]
    exact ⟨by omega, Or.inr rfl⟩

theorem checksumHolds_padded {count : Nat} (headed : kHeaderSize ≤ kept)
    (cut : kept < fragment.bytes.length) (small : fragment.payload.length < 2 ^ 16)
    (long : fragment.bytes.length ≤ kept + count) :
    ChecksumHolds (fragment.bytes.take kept ++ List.replicate count 0) ↔
      ChecksumHolds (fragment.bytes.take kept ++
        List.replicate (fragment.bytes.length - kept) 0) := by
  have size := Fragment.length_bytes fragment
  have split : List.replicate count (0 : UInt8) = List.replicate (fragment.bytes.length - kept) 0 ++
      List.replicate (count - (fragment.bytes.length - kept)) 0 := by
    rw [List.replicate_append_replicate]
    congr 1
    omega
  obtain ⟨_, isLength⟩ := getD_header_type fragment.type fragment.payload
    (fragment.payload.take (kept - kHeaderSize) ++
      List.replicate (fragment.bytes.length - kept) 0)
  rw [← List.append_assoc, ← take_bytes_of_le headed] at isLength
  rw [split, ← List.append_assoc]
  refine checksumHolds_append ?_ _
  rw [isLength small, List.length_append, List.length_replicate, List.length_take_of_le cut.le]
  omega

/-- The piece at a torn physical record in a block that was filled up with zeros: at most a short
trailer is left behind it, and it ends a record only if the zeros complete it. -/
theorem pieceAt_padded {start : Nat} (fits : start + fragment.bytes.length ≤ kBlockSize)
    (cut : kept < fragment.bytes.length) (typed : fragment.type ≠ .kZeroType)
    (near : kBlockSize - (start + kept) < kHeaderSize) :
    ∃ piece rest, pieceAt true false position (fragment.bytes.take kept ++
          List.replicate (kBlockSize - (start + kept)) 0) = some (piece, rest) ∧
      rest.length < kHeaderSize ∧
      (¬ Completed fragment kept → piece.code ≠ RecordType.kFullType.code ∧
        piece.code ≠ RecordType.kLastType.code ∧ piece.code ≠ kEof) ∧
      (Completed fragment kept → piece.code = fragment.type.code ∧ piece.payload ≠ []) := by
  have size := Fragment.length_bytes fragment
  have block : kBlockSize = 32768 := rfl
  have small : fragment.payload.length < 2 ^ 16 := by omega
  have length : (fragment.bytes.take kept ++
      List.replicate (kBlockSize - (start + kept)) (0 : UInt8)).length = kBlockSize - start := by
    rw [List.length_append, List.length_take_of_le cut.le, List.length_replicate]
    omega
  rcases Nat.lt_or_ge kept kHeaderSize with inHeader | headed
  · have isZero := headerType_of_zeros inHeader cut
      (show kHeaderSize ≤ kept + (kBlockSize - (start + kept)) by omega) []
    rw [List.append_nil] at isZero
    cases found : pieceAt true false position (fragment.bytes.take kept ++
        List.replicate (kBlockSize - (start + kept)) 0) with
    | none =>
      have never := (pieceAt_none_of_headed (by rw [length]; omega) found).1
      cases never
    | some pair =>
      obtain ⟨shorter, code⟩ := pieceAt_code found
      rw [length] at shorter
      refine ⟨pair.1, pair.2, rfl, by omega, fun _ => ?_, fun completed => ?_⟩
      · rw [isZero] at code
        rcases code with bad | zero
        · rw [bad]
          decide
        · rw [zero]
          decide
      · exact absurd completed.1 (Nat.not_le.mpr inHeader)
  · have found := @pieceAt_headed fragment kept position false
      (List.replicate (kBlockSize - (start + kept)) 0) headed small typed (by rw [length]; omega)
    have sameChecksum := checksumHolds_padded headed cut small
      (show fragment.bytes.length ≤ kept + (kBlockSize - (start + kept)) by omega)
    by_cases holds : ChecksumHolds (fragment.bytes.take kept ++
        List.replicate (kBlockSize - (start + kept)) 0)
    · rw [if_pos holds] at found
      refine ⟨_, _, found, ?_, fun notCompleted => ?_, fun completed => ⟨Piece.code_accepted, ?_⟩⟩
      · rw [List.length_drop, length]
        omega
      · rw [Piece.code_accepted]
        have notFull : fragment.type ≠ .kFullType := fun isFull =>
          notCompleted ⟨headed, Or.inl isFull, sameChecksum.mp holds⟩
        have notLast : fragment.type ≠ .kLastType := fun isLast =>
          notCompleted ⟨headed, Or.inr isLast, sameChecksum.mp holds⟩
        refine ⟨fun same => notFull (RecordType.code_injective same),
          fun same => notLast (RecordType.code_injective same), ?_⟩
        cases fragment.type <;> decide
      · refine List.ne_nil_of_length_pos ?_
        show 0 < (List.take _ (List.drop _ _)).length
        rw [List.length_take, List.length_drop, length]
        omega
    · rw [if_neg holds] at found
      refine ⟨_, _, found, headerSize_pos, fun _ => ?_, fun completed => ?_⟩
      · exact ⟨by show kBadRecord ≠ _; decide, by show kBadRecord ≠ _; decide,
          by show kBadRecord ≠ _; decide⟩
      · exact absurd (sameChecksum.mpr completed.2.2) holds

/-- The piece at a torn physical record with the header of an empty record appended to it: at most
a short trailer is left behind it, and it does not end an empty record. -/
theorem pieceAt_followed {last : Bool} {piece : Piece} {rest : Bytes} (some' : 0 < kept)
    (cut : kept < fragment.bytes.length) (small : fragment.payload.length < 2 ^ 16)
    (typed : fragment.type ≠ .kZeroType)
    (found : pieceAt true last position (fragment.bytes.take kept ++ header .kFullType []) =
      some (piece, rest)) :
    rest.length < kHeaderSize ∧
      (piece.code = RecordType.kFullType.code ∨ piece.code = RecordType.kLastType.code →
        piece.payload ≠ []) := by
  have size := Fragment.length_bytes fragment
  have header : header .kFullType [] = [5, 43, 40, 67, 0, 0, 1] := by decide +kernel
  have headerSize : kHeaderSize = 7 := rfl
  have length : (fragment.bytes.take kept ++ Log.header .kFullType []).length = kept + 7 := by
    rw [List.length_append, List.length_take_of_le cut.le, header]
    rfl
  rcases Nat.lt_or_ge kept kHeaderSize with inHeader | headed
  · obtain ⟨shorter, code⟩ := pieceAt_code found
    rw [length] at shorter
    refine ⟨by omega, fun ends => ?_⟩
    have type : headerType (fragment.bytes.take kept ++ Log.header .kFullType []) =
        (Log.header .kFullType []).getD (6 - kept) 0 := by
      rw [headerType, List.getD_eq_getElem?_getD, List.getD_eq_getElem?_getD,
        List.getElem?_append_right (by rw [List.length_take_of_le cut.le]; omega),
        List.length_take_of_le cut.le]
    rw [type, header] at code
    exfalso
    have notBad : kBadRecord ≠ RecordType.kFullType.code ∧
        kBadRecord ≠ RecordType.kLastType.code := by decide
    have notType : ∀ index < 6, typeOfByte (([5, 43, 40, 67, 0, 0, 1] : Bytes).getD index 0) ≠
        RecordType.kFullType.code ∧ typeOfByte (([5, 43, 40, 67, 0, 0, 1] : Bytes).getD index 0) ≠
          RecordType.kLastType.code := by
      decide
    rcases code with bad | isType
    · rw [bad] at ends
      exact ends.elim notBad.1 notBad.2
    · rw [isType] at ends
      have different := notType (6 - kept) (by omega)
      exact ends.elim different.1 different.2
  · rcases Nat.lt_or_ge (kept + 7) fragment.bytes.length with runsPast | long
    · obtain ⟨_, isLength⟩ := getD_header_type fragment.type fragment.payload
        (fragment.payload.take (kept - kHeaderSize) ++ Log.header .kFullType [])
      rw [← List.append_assoc, ← take_bytes_of_le headed] at isLength
      rw [pieceAt, isLength small, length, if_neg (by omega), if_pos (by omega)] at found
      split at found
      · cases found
      · cases found
        refine ⟨headerSize_pos, fun ends => ?_⟩
        have notBad : kBadRecord ≠ RecordType.kFullType.code ∧
            kBadRecord ≠ RecordType.kLastType.code := by decide
        exact absurd ends (not_or.mpr notBad)
    · rw [pieceAt_headed headed small typed (by rw [length]; exact long)] at found
      split at found
      · cases found
        refine ⟨?_, fun _ => List.ne_nil_of_length_pos ?_⟩
        · rw [List.length_drop, length]
          omega
        · show 0 < (List.take _ (List.drop _ _)).length
          rw [List.length_take, List.length_drop, length]
          omega
      · cases found
        refine ⟨headerSize_pos, fun ends => ?_⟩
        have notBad : kBadRecord ≠ RecordType.kFullType.code ∧
            kBadRecord ≠ RecordType.kLastType.code := by decide
        exact absurd ends (not_or.mpr notBad)

end Torn

/-! ### Reading through the torn physical record -/

/-- A reader whose block was fetched, with the rest of that block in its buffer. -/
structure Reader.Loaded (reader : Reader) (block next : Bytes) (offset : Nat) : Prop where
  checks : reader.Checks (block ++ next) offset
  buffer : reader.buffer = block
  remaining : reader.file.remaining = next

theorem Reader.Checks.load {block next : Bytes}
    (checks : reader.Checks (trailer offset ++ (block ++ next)) offset)
    (headed : kHeaderSize ≤ block.length)
    (whole : block.length = kBlockSize - blockStart offset ∨
      next = [] ∧ block.length ≤ kBlockSize - blockStart offset) :
    ∃ loaded : Reader, reader.readPhysicalRecord = loaded.parsePhysicalRecord ∧
      loaded.Loaded block next (blockStart offset) := by
  have positive := headerSize_pos
  rcases checks.position.readPhysicalRecord_cases with
    ⟨short, _⟩ | ⟨_, loaded, reads, position, isLoaded, _⟩
  · rw [List.drop_left, List.length_append] at short
    omega
  rw [List.drop_left] at position
  have checksum : loaded.checksum = true := by
    have same := reader.sameMode_readPhysicalRecord.1
    rw [reads, loaded.sameMode_parsePhysicalRecord.1, checks.checksum] at same
    exact same
  have stream := position.stream
  have lengths := congrArg List.length stream
  rw [List.length_append, List.length_append] at lengths
  have sameLength : loaded.buffer.length = block.length := by
    rcases position.block with ⟨_, full | ⟨empty, _⟩⟩ | ⟨_, empty, short⟩
    · rcases whole with isWhole | ⟨isEmpty, bound⟩
      · rw [full, isWhole]
      · rw [isEmpty, List.length_nil] at lengths
        omega
    · rw [empty, List.length_nil] at isLoaded
      omega
    · rw [empty, List.length_nil] at lengths
      rcases whole with isWhole | ⟨isEmpty, _⟩
      · omega
      · rw [isEmpty, List.length_nil] at lengths
        omega
  obtain ⟨buffer, remaining⟩ := List.append_inj stream sameLength
  exact ⟨loaded, reads, ⟨position, checksum⟩, buffer, remaining⟩

/-- What is left of a block without a header in it is not looked at. -/
theorem Reader.readPhysicalRecord_of_short
    (short : reader.buffer.length < kHeaderSize) (more : reader.eof = false) :
    reader.readPhysicalRecord = ({ reader with buffer := [] } : Reader).readPhysicalRecord := by
  have notLast : ¬ reader.eof = true := by
    rw [more]
    exact Bool.false_ne_true
  have nothing : (([] : Bytes).length < kHeaderSize) := headerSize_pos
  rw [Reader.readPhysicalRecord, Reader.readPhysicalRecord, if_pos short, if_neg notLast,
    if_pos nothing]

theorem Reader.readRecordLoop_of_short
    (short : reader.buffer.length < kHeaderSize) (more : reader.eof = false) (turns : Nat)
    (pending : Partial) :
    reader.readRecordLoop (turns + 1) pending =
      ({ reader with buffer := [] } : Reader).readRecordLoop (turns + 1) pending := by
  rw [Reader.readRecordLoop, Reader.readRecordLoop, Reader.readPhysicalRecord_of_short short more]

/-- A reader that dispatched a piece of the block it had loaded, with less than a header left of
it. -/
structure Reader.Behind (reader : Reader) (next : Bytes) (last : Bool) : Prop where
  short : reader.buffer.length < kHeaderSize
  remaining : reader.file.remaining = next
  eof : reader.eof = last
  reliable : reader.file.readsUntilError = none
  initial : reader.initialOffset = 0
  synced : reader.resyncing = false

theorem Reader.Behind.told {reader after : Reader} {next : Bytes} {last : Bool}
    (behind : reader.Behind next last) {more : List (Nat × DropReason)}
    (told : reader.Told after more) : after.Behind next last := by
  obtain ⟨offset, rfl⟩ := told
  exact ⟨behind.short, behind.remaining, behind.eof, behind.reliable, behind.initial,
    behind.synced⟩

theorem Reader.Behind.next_at {next : Bytes} (behind : reader.Behind next false) :
    ({ reader with buffer := [] } : Reader).At next 0 :=
  ⟨behind.remaining, Or.inl ⟨behind.eof, Or.inr ⟨rfl, rfl⟩⟩, behind.reliable, behind.initial,
    behind.synced⟩

/-- The input ends behind a block that was the last one. -/
theorem Reader.Behind.ends {last : Bool} (behind : reader.Behind [] last)
    (turns : Nat) (pending : Partial) :
    ∃ after, reader.readRecordLoop (turns + 1) pending = (none, after) := by
  cases last with
  | true =>
    have reads : reader.readPhysicalRecord = (kEof, [], { reader with buffer := [] }) := by
      rw [Reader.readPhysicalRecord, if_pos behind.short, if_pos behind.eof]
    obtain ⟨after, ends, _⟩ := Reader.readRecordLoop_eof turns pending reads
    exact ⟨after, ends⟩
  | false =>
    rw [Reader.readRecordLoop_of_short behind.short behind.eof]
    rcases behind.next_at.readPhysicalRecord_cases with ⟨_, after, reads, _⟩ | ⟨long, _⟩
    · obtain ⟨last, ends, _⟩ := Reader.readRecordLoop_eof turns pending reads
      exact ⟨last, ends⟩
    · rw [List.drop_nil, List.length_nil] at long
      exact absurd long (by decide)

/-- A loaded reader consumes the piece of its block. -/
theorem Reader.Loaded.parsePhysicalRecord {block next rest : Bytes}
    {piece : Piece} (loaded : reader.Loaded block next offset) (headed : kHeaderSize ≤ block.length)
    (found : pieceAt true reader.eof 0 block = some (piece, rest))
    (short : rest.length < kHeaderSize) :
    ∃ after, reader.parsePhysicalRecord = (piece.code, piece.payload, after) ∧
      after.Behind next reader.eof := by
  have position := loaded.checks.position
  have parses := Reader.parsePhysicalRecord_pieceAt position.initial
    (by rw [loaded.buffer]; exact headed) 0
  rw [loaded.checks.checksum, loaded.buffer, found] at parses
  exact ⟨_, parses, short, loaded.remaining, rfl, position.reliable, position.initial,
    position.synced⟩

/-- A physical record that ends neither a record nor the input is passed over. -/
theorem Reader.dispatch_goesOn (initial : reader.initialOffset = 0)
    (pending : Partial) {piece : Piece} (notFull : piece.code ≠ RecordType.kFullType.code)
    (notLast : piece.code ≠ RecordType.kLastType.code) (notEnd : piece.code ≠ kEof) :
    ∃ pending' after more, reader.dispatch pending piece.code piece.payload = .inr (pending', after) ∧
      reader.Told after more := by
  rcases Reader.dispatch_opens pending piece initial with
    ⟨result, after, more, dispatches, _⟩ | ⟨pending', after, more, dispatches, told, _⟩
  · rw [Reader.dispatch, if_neg notFull, if_neg notLast, if_neg notEnd] at dispatches
    split_ifs at dispatches
  · exact ⟨pending', after, more, dispatches, told⟩

/-! ### What is read back -/

/-- Exactly the records are read from a file with checksums on, and then the end of the input. -/
def ReadsBack (contents : Bytes) (records : List Bytes) : Prop :=
  ∀ calls, ∃ reader, (Reader.new { remaining := contents } true 0).readRecords
    (records.length + 1 + calls) = (records, true, reader)

/-- If the call behind the first records returns the next one, whose successors are laid out behind
it, all of them are read back. -/
theorem readsBack_of_first {front others : List Bytes} {first stream : Bytes}
    (returns : ∀ reader : Reader, reader.Checks stream (endOffset 0 (recordFragments 0 front)) →
      ∃ after offset, reader.readRecord = (some first, after) ∧
        after.At (layout offset (recordFragments offset others)) offset) :
    ReadsBack (layout 0 (recordFragments 0 front) ++ stream) (front ++ first :: others) := by
  intro calls
  obtain ⟨reader, reads, checks⟩ := Reader.Checks.readRecords_laid
    (⟨Reader.new_at _ true, rfl⟩ : (Reader.new { remaining := layout 0 (recordFragments 0 front) ++
      stream } true 0).Checks _ 0) (others.length + (1 + calls) + 1)
  obtain ⟨after, offset, isFirst, position⟩ := returns reader checks
  rw [← List.append_nil (layout offset _)] at position
  obtain ⟨last, restReads, lastAt, _⟩ := position.readRecords_laid (1 + calls)
  obtain ⟨ended, ends, _⟩ := lastAt.readRecord_nil
  rw [Nat.add_comm 1 calls, Reader.readRecords_succ_of_none ends, List.append_nil] at restReads
  refine ⟨ended, ?_⟩
  have count : (front ++ first :: others).length + 1 + calls =
      front.length + (others.length + (1 + calls) + 1) := by
    rw [List.length_append, List.length_cons]
    omega
  rw [count, reads, Reader.readRecords, isFirst]
  simp only
  rw [Nat.add_comm 1 calls, restReads]

/-- If the call behind the first records returns no record, or one that is not empty, an empty
record is not read back. -/
theorem not_readsBack_of_other {front : List Bytes} {stream : Bytes}
    (returns : ∀ reader : Reader, reader.Checks stream (endOffset 0 (recordFragments 0 front)) →
      ∃ after, reader.readRecord = (none, after) ∨
        ∃ record, record ≠ [] ∧ reader.readRecord = (some record, after)) :
    ¬ ReadsBack (layout 0 (recordFragments 0 front) ++ stream) (front ++ [[]]) := by
  intro readsBack
  obtain ⟨ended, all⟩ := readsBack 0
  obtain ⟨reader, reads, checks⟩ := Reader.Checks.readRecords_laid
    (⟨Reader.new_at _ true, rfl⟩ : (Reader.new { remaining := layout 0 (recordFragments 0 front) ++
      stream } true 0).Checks _ 0) 2
  have count : (front ++ [[]]).length + 1 + 0 = front.length + 2 := by
    rw [List.length_append]
    rfl
  rw [count, reads] at all
  have rest : (reader.readRecords 2).1 = [[]] := List.append_cancel_left (congrArg Prod.fst all)
  obtain ⟨after, ends | ⟨record, some', isRecord⟩⟩ := returns reader checks
  · rw [Reader.readRecords_succ_of_none ends] at rest
    cases rest
  · rw [Reader.readRecords, isRecord] at rest
    exact some' (List.cons.inj rest).1

section Calls

variable {front : List Fragment} {offset : Nat} {reader : Reader}

/-- A call goes through the first fragments of a record that has no end. -/
theorem Reader.Checks.readRecord_opens (opens : Opens front) (fit : Fit offset front)
    {stream : Bytes} (checks : reader.Checks (layout offset front ++ stream) offset) :
    ∃ pending reader', reader.readRecord = Reader.readRecordLoop (stream.length + 1 +
        ((layout offset front).length - front.length)) pending reader' ∧
      reader'.Checks stream (endOffset offset front) ∧
        (front ≠ [] → pending.inFragmentedRecord = true) := by
  have bound := length_le_layout offset front
  obtain ⟨pending, reader', loops, checks', isPending⟩ := checks.readRecordLoop_opens opens fit
    (stream.length + 1 + ((layout offset front).length - front.length))
  refine ⟨pending, reader', ?_, checks', isPending⟩
  rw [checks.position.readRecord_eq, ← loops, List.length_append]
  congr 1
  omega

/-- Records that follow the first fragments of one that has no end are returned. -/
theorem Reader.Checks.readRecord_laid (opens : Opens front) (fit : Fit offset front)
    {first : Bytes} {others : List Bytes}
    (checks : reader.Checks (layout offset front ++ layout (endOffset offset front)
      (recordFragments (endOffset offset front) (first :: others))) offset) :
    ∃ after offset', reader.readRecord = (some first, after) ∧
      after.At (layout offset' (recordFragments offset' others)) offset' := by
  obtain ⟨pending, reader', loops, checks', _⟩ := checks.readRecord_opens opens fit
  have position := checks'.position
  have size := length_le_layout (endOffset offset front) (fragments first (endOffset offset front))
  rw [recordFragments, layout_append] at position loops
  rw [List.length_append] at loops
  obtain ⟨after, returns, afterAt, _⟩ := position.readRecordLoop_carries
    (fragments_carry first (endOffset offset front)) pending (fragments_fit _ _)
    (show _ ≤ (layout (endOffset offset front)
      (fragments first (endOffset offset front))).length + (layout _ _).length + 1 +
        ((layout offset front).length - front.length) by omega)
  exact ⟨after, _, loops.trans returns, afterAt⟩

/-- How a call goes on at the block behind the first fragments of a record that has no end. -/
structure Reader.Meets (reader : Reader) (front : List Fragment) (block next : Bytes)
    (pending : Partial) (turns : Nat) (last : Bool) : Prop where
  enough : next.length + 1 ≤ turns
  isPending : front ≠ [] → pending.inFragmentedRecord = true
  piece : ∀ piece rest, pieceAt true last 0 block = some (piece, rest) → rest.length < kHeaderSize →
    ∃ after : Reader, after.Behind next last ∧ reader.readRecord =
      match after.dispatch pending piece.code piece.payload with
      | .inl result => result
      | .inr (pending, reader) => reader.readRecordLoop turns pending
  nothing : pieceAt true last 0 block = none → ∃ after, reader.readRecord = (none, after)

theorem Reader.Checks.meets (opens : Opens front) (fit : Fit offset front) {block next : Bytes}
    (checks : reader.Checks (layout offset front ++ (trailer (endOffset offset front) ++
      (block ++ next))) offset) (headed : kHeaderSize ≤ block.length)
    (whole : block.length = kBlockSize - blockStart (endOffset offset front) ∨
      next = [] ∧ block.length ≤ kBlockSize - blockStart (endOffset offset front)) :
    ∃ pending turns last, reader.Meets front block next pending turns last ∧
      (block.length = kBlockSize - blockStart (endOffset offset front) → last = false) := by
  have positive := headerSize_pos
  obtain ⟨pending, reader', loops, checks', isPending⟩ := checks.readRecord_opens opens fit
  obtain ⟨loaded, reads, isLoaded⟩ := checks'.load headed whole
  have position := isLoaded.checks.position
  have turns : (trailer (endOffset offset front) ++ (block ++ next)).length + 1 +
      ((layout offset front).length - front.length) =
        (trailer (endOffset offset front)).length + block.length + next.length +
          ((layout offset front).length - front.length) + 1 := by
    rw [List.length_append, List.length_append]
    omega
  rw [turns] at loops
  refine ⟨pending, (trailer (endOffset offset front)).length + block.length + next.length +
      ((layout offset front).length - front.length), loaded.eof,
    ⟨by omega, isPending, ?_, ?_⟩, ?_⟩
  · intro piece rest found short
    obtain ⟨after, parses, behind⟩ := isLoaded.parsePhysicalRecord headed found short
    refine ⟨after, behind, ?_⟩
    rw [loops, Reader.readRecordLoop_dispatch (reads.trans parses) behind.synced]
  · intro nothing
    have parses := Reader.parsePhysicalRecord_pieceAt position.initial
      (by rw [isLoaded.buffer]; exact headed) 0
    rw [isLoaded.checks.checksum, isLoaded.buffer, nothing] at parses
    obtain ⟨after, ends, _⟩ := Reader.readRecordLoop_eof _ pending (reads.trans parses)
    exact ⟨after, loops.trans ends⟩
  · intro isWhole
    rcases position.block with ⟨more, _⟩ | ⟨_, _, short⟩
    · exact more
    · rw [isLoaded.buffer] at short
      omega

variable {fragment : Fragment} {kept : Nat}

theorem length_padded (cut : kept < fragment.bytes.length) {start : Nat}
    (fits : start + fragment.bytes.length ≤ kBlockSize) :
    (fragment.bytes.take kept ++ List.replicate (kBlockSize - (start + kept)) (0 : UInt8)).length =
      kBlockSize - start := by
  rw [List.length_append, List.length_take_of_le cut.le, List.length_replicate]
  omega

/-- A torn physical record in a block that is filled up with zeros is passed over unless the zeros
complete it. -/
theorem Reader.Checks.readRecord_padded (opens : Opens front) (fit : Fit offset front)
    (fits : fragment.endOffset (endOffset offset front) ≤ kBlockSize)
    (typed : fragment.type ≠ .kZeroType) (cut : kept < fragment.bytes.length)
    (near : kBlockSize - (blockStart (endOffset offset front) + kept) < kHeaderSize)
    (notCompleted : ¬ Completed fragment kept) {first : Bytes} {others : List Bytes}
    (checks : reader.Checks (layout offset front ++ (trailer (endOffset offset front) ++
      (fragment.bytes.take kept ++ List.replicate
        (kBlockSize - (blockStart (endOffset offset front) + kept)) 0 ++
          layout 0 (recordFragments 0 (first :: others))))) offset) :
    ∃ after offset', reader.readRecord = (some first, after) ∧
      after.At (layout offset' (recordFragments offset' others)) offset' := by
  have size := Fragment.length_bytes fragment
  have fits : blockStart (endOffset offset front) + fragment.bytes.length ≤ kBlockSize := by
    rw [Fragment.endOffset] at fits
    omega
  have length := length_padded cut fits
  obtain ⟨pending, turns, last, meets, notLast⟩ := checks.meets opens fit
    (by rw [length]; omega) (Or.inl length)
  have isMore := notLast length
  subst isMore
  obtain ⟨piece, rest, found, short, code, _⟩ := @pieceAt_padded fragment kept 0 _ fits cut typed near
  obtain ⟨notFull, notLast, notEnd⟩ := code notCompleted
  obtain ⟨middle, behind, reads⟩ := meets.piece piece rest found short
  obtain ⟨pending', after, more, dispatches, told⟩ :=
    Reader.dispatch_goesOn behind.initial pending notFull notLast notEnd
  rw [dispatches] at reads
  have afterBehind := behind.told told
  obtain ⟨turns, rfl⟩ := Nat.exists_eq_add_of_le' (Nat.le_of_add_left_le meets.enough)
  simp only [Reader.readRecordLoop_of_short afterBehind.short afterBehind.eof] at reads
  have position := afterBehind.next_at
  have enough := meets.enough
  have bound := length_le_layout 0 (fragments first 0)
  rw [recordFragments, layout_append] at position enough
  rw [List.length_append] at enough
  obtain ⟨ended, returns, endedAt, _⟩ := position.readRecordLoop_carries (fragments_carry first 0)
    pending' (fragments_fit first 0) (show _ ≤ turns + 1 by omega)
  exact ⟨ended, _, reads.trans returns, endedAt⟩

/-- A torn physical record that zeros complete is returned. -/
theorem Reader.Checks.readRecord_completed (opens : Opens front) (fit : Fit offset front)
    (fits : fragment.endOffset (endOffset offset front) ≤ kBlockSize)
    (typed : fragment.type ≠ .kZeroType) (cut : kept < fragment.bytes.length)
    (near : kBlockSize - (blockStart (endOffset offset front) + kept) < kHeaderSize)
    (completed : Completed fragment kept)
    (started : fragment.type = .kLastType → front ≠ []) {next : Bytes}
    (checks : reader.Checks (layout offset front ++ (trailer (endOffset offset front) ++
      (fragment.bytes.take kept ++ List.replicate
        (kBlockSize - (blockStart (endOffset offset front) + kept)) 0 ++ next))) offset) :
    ∃ after record, record ≠ [] ∧ reader.readRecord = (some record, after) := by
  have size := Fragment.length_bytes fragment
  have fits : blockStart (endOffset offset front) + fragment.bytes.length ≤ kBlockSize := by
    rw [Fragment.endOffset] at fits
    omega
  have length := length_padded cut fits
  obtain ⟨pending, turns, last, meets, notLast⟩ := checks.meets opens fit
    (by rw [length]; omega) (Or.inl length)
  have isMore := notLast length
  subst isMore
  obtain ⟨piece, rest, found, short, _, code⟩ := @pieceAt_padded fragment kept 0 _ fits cut typed near
  obtain ⟨isCode, some'⟩ := code completed
  obtain ⟨middle, behind, reads⟩ := meets.piece piece rest found short
  rw [isCode] at reads
  rcases completed.2.1 with isFull | isLast
  · rw [isFull, Reader.dispatch, if_pos rfl] at reads
    exact ⟨_, _, some', reads⟩
  · rw [isLast, Reader.dispatch, if_neg (by decide), if_neg (by decide), if_neg (by decide),
      if_pos rfl, if_pos (meets.isPending (started isLast))] at reads
    exact ⟨_, _, List.append_ne_nil_of_right_ne_nil _ some', reads⟩

/-- A torn physical record takes the header of an empty record behind it for its own bytes. -/
theorem Reader.Checks.readRecord_followed (opens : Opens front) (fit : Fit offset front)
    (fits : fragment.endOffset (endOffset offset front) ≤ kBlockSize)
    (typed : fragment.type ≠ .kZeroType) (some' : 0 < kept) (cut : kept < fragment.bytes.length)
    (far : kHeaderSize ≤ kBlockSize - (blockStart (endOffset offset front) + kept))
    (checks : reader.Checks (layout offset front ++ (trailer (endOffset offset front) ++
      (fragment.bytes.take kept ++ header .kFullType [] ++ []))) offset) :
    ∃ after, reader.readRecord = (none, after) ∨
      ∃ record, record ≠ [] ∧ reader.readRecord = (some record, after) := by
  have size := Fragment.length_bytes fragment
  have blockSize : kBlockSize = 32768 := rfl
  have small : fragment.payload.length < 2 ^ 16 := by
    rw [Fragment.endOffset] at fits
    omega
  have length : (fragment.bytes.take kept ++ header .kFullType []).length = kept + kHeaderSize := by
    rw [List.length_append, List.length_take_of_le cut.le, length_header]
  have headed : kHeaderSize ≤ (fragment.bytes.take kept ++ header .kFullType []).length := by
    rw [length]
    exact Nat.le_add_left _ _
  have room : (fragment.bytes.take kept ++ header .kFullType []).length ≤
      kBlockSize - blockStart (endOffset offset front) := by
    have headerSize : kHeaderSize = 7 := rfl
    rw [length]
    omega
  obtain ⟨pending, turns, last, meets, _⟩ := checks.meets opens fit headed (Or.inr ⟨rfl, room⟩)
  cases found : pieceAt true last 0 (fragment.bytes.take kept ++ header .kFullType []) with
  | none =>
    obtain ⟨after, ends⟩ := meets.nothing found
    exact ⟨after, Or.inl ends⟩
  | some pair =>
    obtain ⟨short, notEmpty⟩ := pieceAt_followed some' cut small typed found
    obtain ⟨middle, behind, reads⟩ := meets.piece pair.1 pair.2 found short
    obtain ⟨turns, rfl⟩ := Nat.exists_eq_add_of_le' meets.enough
    by_cases isFull : pair.1.code = RecordType.kFullType.code
    · rw [isFull, Reader.dispatch, if_pos rfl] at reads
      exact ⟨_, Or.inr ⟨_, notEmpty (Or.inl isFull), reads⟩⟩
    by_cases isEnd : pair.1.code = kEof
    · rw [isEnd] at reads
      exact ⟨_, Or.inl reads⟩
    by_cases isLast : pair.1.code = RecordType.kLastType.code
    · rw [isLast, Reader.dispatch, if_neg (by decide), if_neg (by decide), if_neg (by decide),
        if_pos rfl] at reads
      by_cases isPending : pending.inFragmentedRecord = true
      · rw [if_pos isPending] at reads
        exact ⟨_, Or.inr ⟨_, List.append_ne_nil_of_right_ne_nil _ (notEmpty (Or.inr isLast)), reads⟩⟩
      · rw [if_neg isPending] at reads
        have told := Reader.told_reportCorruption behind.initial pair.1.payload.length
          "missing start of fragmented record(2)"
        obtain ⟨ended, ends⟩ := (behind.told told).ends turns pending
        exact ⟨ended, Or.inl (reads.trans ends)⟩
    · obtain ⟨pending', after, more, dispatches, told⟩ :=
        Reader.dispatch_goesOn behind.initial pending isFull isLast isEnd
      rw [dispatches] at reads
      obtain ⟨ended, ends⟩ := (behind.told told).ends turns pending'
      exact ⟨ended, Or.inl (reads.trans ends)⟩

end Calls

/-! ### When everything is read back -/

/-- The first `count` records of a log are those that are complete in its first `kept` bytes. -/
def CompleteRecords (records : List Bytes) (kept count : Nat) : Prop :=
  count ≤ records.length ∧ ∀ index < records.length,
    index < count ↔ (written (records.take (index + 1))).length ≤ kept

/-- The cut of a log falls into no physical record, or one where it does no harm. -/
def ReusableCut (records : List Bytes) (kept : Nat) : Prop :=
  ∀ torn ∈ tornAt 0 (recordFragments 0 records) kept, Harmless torn.1 torn.2.1 torn.2.2

theorem CompleteRecords.eq_of_complete {kept count other : Nat}
    (complete : CompleteRecords records kept count) (otherComplete : Complete 0 records kept other) :
    count = other := by
  have same : ∀ index < records.length, index < count ↔ index < other := by
    intro index below
    rw [complete.2 index below, otherComplete.within index below, written_eq]
  have bound := complete.1
  have otherBound := otherComplete.bound
  rcases Nat.lt_trichotomy count other with less | equal | greater
  · exact absurd ((same count (less.trans_le otherBound)).mpr less) (Nat.lt_irrefl _)
  · exact equal
  · exact absurd ((same other (greater.trans_le bound)).mp greater) (Nat.lt_irrefl _)

theorem Complete.completeRecords {kept count : Nat}
    (complete : Complete 0 records kept count) : CompleteRecords records kept count := by
  refine ⟨complete.bound, fun index below => ?_⟩
  rw [complete.within index below, written_eq]

/-- Further calls change nothing once the end of the input was reported. -/
theorem Reader.readRecords_of_ended {calls other : Nat} {reader after : Reader}
    (reads : reader.readRecords calls = (records, true, after))
    (enough : records.length < other) : reader.readRecords other = (records, true, after) := by
  induction calls generalizing reader records other with
  | zero => cases reads
  | succ calls inductionHypothesis =>
    obtain ⟨other, rfl⟩ := Nat.exists_eq_add_of_le' (Nat.zero_lt_of_lt enough)
    rw [Reader.readRecords] at reads ⊢
    cases isResult : reader.readRecord with
    | mk result next =>
      rw [isResult] at reads
      cases result with
      | none =>
        cases reads
        rfl
      | some record =>
        simp only at reads ⊢
        obtain ⟨isRecords, isRest⟩ := Prod.mk.inj reads
        have whole : next.readRecords calls = ((next.readRecords calls).1, true, after) :=
          Prod.ext rfl isRest
        rw [← isRecords, List.length_cons] at enough
        rw [inductionHypothesis whole (Nat.lt_of_succ_lt_succ enough), ← isRecords]

section Reuse

variable {records : List Bytes} {kept count : Nat} {front : List Fragment} {tail : Bytes}

/-- The reopened file behind the complete records. -/
theorem Cut.reused_eq (cut : Cut 0 records kept count front tail) (appended : List Bytes) :
    ∃ resumed, resumed = (endOffset (endOffset 0 (recordFragments 0 (records.take count))) front +
        tail.length) % kBlockSize ∧
      reused records kept appended = layout 0 (recordFragments 0 (records.take count)) ++
        (layout (endOffset 0 (recordFragments 0 (records.take count))) front ++
          (tail ++ layout resumed (recordFragments resumed appended))) := by
  have length := length_cut_mod cut
  rw [endOffset_append] at length
  refine ⟨_, rfl, ?_⟩
  rw [Log.reused_eq, length]
  rw [written_eq, cut.bytes, layout_append, List.append_assoc, List.append_assoc]

theorem Cut.bound (cut : Cut 0 records kept count front tail) :
    Fit (endOffset 0 (recordFragments 0 (records.take count))) front ∧
      endOffset (endOffset 0 (recordFragments 0 (records.take count))) front ≤ kBlockSize := by
  obtain ⟨recordsFit, frontFit⟩ := fit_append.mp cut.fit
  exact ⟨frontFit, endOffset_le (endOffset_le (Nat.zero_le _) recordsFit) frontFit⟩

theorem layout_resumed_near {resumed : Nat} (near : kBlockSize - resumed < kHeaderSize)
    {appended : List Bytes} (some' : appended ≠ []) :
    layout resumed (recordFragments resumed appended) =
      List.replicate (kBlockSize - resumed) 0 ++ layout 0 (recordFragments 0 appended) := by
  have start : blockStart resumed = blockStart 0 := if_pos near
  have zeros : trailer resumed = List.replicate (kBlockSize - resumed) 0 := if_pos near
  have none : trailer 0 = [] := rfl
  obtain ⟨body, isResumed, isBody⟩ := layout_of_start start (recordFragments_ne_nil resumed some')
  rw [none, List.nil_append] at isBody
  rw [isResumed, zeros, ← isBody, recordFragments_congr start]

theorem layout_resumed_far {resumed : Nat} (far : kHeaderSize ≤ kBlockSize - resumed) :
    layout resumed (recordFragments resumed [[]]) = header .kFullType [] := by
  have none : trailer resumed = [] := if_neg (Nat.not_lt.mpr far)
  have single : recordFragments resumed [[]] = [⟨.kFullType, []⟩] := by
    rw [recordFragments, recordFragments, fragments, List.length_nil, fragmentsLoop,
      if_pos (show ([] : Bytes).length ≤ avail resumed from Nat.zero_le _)]
    rfl
  rw [single, layout, layout, none, Fragment.bytes, List.append_nil, List.append_nil]
  rfl

theorem resumed_inside {offset within : Nat} (bound : offset ≤ kBlockSize) {fragment : Fragment}
    (fits : fragment.endOffset offset ≤ kBlockSize) (isCut : within < fragment.bytes.length) :
    (offset + (trailer offset ++ fragment.bytes.take within).length) % kBlockSize =
      blockStart offset + within := by
  have size := Fragment.length_bytes fragment
  rw [Fragment.endOffset] at fits
  rw [List.length_append, List.length_take_of_le isCut.le, ← Nat.add_assoc,
    add_length_trailer_mod bound, Nat.mod_eq_of_lt]
  omega

/-- Whatever is appended to a harmless cut is read back behind the complete records. -/
theorem Cut.readsBack (cut : Cut 0 records kept count front tail)
    (reusable : ReusableCut records kept) (first : Bytes) (others : List Bytes) :
    ReadsBack (reused records kept (first :: others)) (records.take count ++ first :: others) := by
  obtain ⟨fit, bound⟩ := cut.bound
  obtain ⟨resumed, isResumed, contents⟩ := cut.reused_eq (first :: others)
  have cutsOff := cut.cutsOff
  rw [endOffset_append] at cutsOff
  rw [ReusableCut] at reusable
  rw [contents]
  generalize tornAt 0 (recordFragments 0 records) kept = torn at cutsOff reusable
  cases cutsOff with
  | padding within =>
    refine readsBack_of_first fun reader checks => ?_
    rw [show (trailer _).take within ++ layout resumed (recordFragments resumed (first :: others)) = _
      from layout_resume_padding bound within (List.cons_ne_nil _ _) isResumed] at checks
    exact checks.readRecord_laid cut.opens fit
  | inside fragment within some' isCut fits typed =>
    obtain ⟨near, notCompleted⟩ := reusable _ rfl
    rw [isResumed.trans (resumed_inside bound fits isCut)]
    refine readsBack_of_first fun reader checks => ?_
    rw [layout_resumed_near near (List.cons_ne_nil _ _), List.append_assoc,
      ← List.append_assoc (fragment.bytes.take within)] at checks
    exact checks.readRecord_padded cut.opens fit fits typed isCut near notCompleted

/-- An empty record appended to a cut that is not harmless is not read back. -/
theorem Cut.not_readsBack (cut : Cut 0 records kept count front tail)
    (harmful : ¬ ReusableCut records kept) :
    ¬ ReadsBack (reused records kept [[]]) (records.take count ++ [[]]) := by
  obtain ⟨fit, bound⟩ := cut.bound
  obtain ⟨resumed, isResumed, contents⟩ := cut.reused_eq [[]]
  have cutsOff := cut.cutsOff
  have notLast := cut.notLast
  rw [endOffset_append] at cutsOff
  rw [ReusableCut] at harmful
  rw [contents]
  generalize tornAt 0 (recordFragments 0 records) kept = torn at cutsOff harmful notLast
  cases cutsOff with
  | padding within => exact absurd (fun torn isTorn => (by cases isTorn)) harmful
  | inside fragment within some' isCut fits typed =>
    rw [isResumed.trans (resumed_inside bound fits isCut)]
    refine not_readsBack_of_other fun reader checks => ?_
    by_cases near : kBlockSize - (blockStart (endOffset (endOffset 0
        (recordFragments 0 (records.take count))) front) + within) < kHeaderSize
    · have completed : Completed fragment within := by
        by_contra notCompleted
        refine harmful fun torn isTorn => ?_
        cases isTorn
        exact ⟨near, notCompleted⟩
      rw [layout_resumed_near near (List.cons_ne_nil _ _), List.append_assoc,
        ← List.append_assoc (fragment.bytes.take within)] at checks
      obtain ⟨after, record, notEmpty, reads⟩ := checks.readRecord_completed cut.opens fit fits typed
        isCut near completed fun isLast empty => notLast empty _ rfl isLast
      exact ⟨after, Or.inr ⟨record, notEmpty, reads⟩⟩
    · have far := Nat.le_of_not_lt near
      rw [layout_resumed_far far, List.append_assoc,
        ← List.append_nil (fragment.bytes.take within ++ _)] at checks
      exact checks.readRecord_followed cut.opens fit fits typed some' isCut far

end Reuse

/-- A log that is cut off and reopened for appending gives back its complete records and then all
appended ones, whatever they are, exactly if the cut is reusable. -/
theorem reused_readsBack_iff (records : List Bytes) (kept : Nat) :
    (∀ appended count, CompleteRecords records kept count →
      ReadsBack (reused records kept appended) (records.take count ++ appended)) ↔
        ReusableCut records kept := by
  obtain ⟨count, front, tail, cut⟩ := exists_cut 0 records kept
  constructor
  · intro readsBack
    by_contra harmful
    exact cut.not_readsBack harmful (readsBack [[]] count cut.complete.completeRecords)
  · intro reusable appended other complete
    rw [complete.eq_of_complete cut.complete]
    cases appended with
    | cons first others => exact cut.readsBack reusable first others
    | nil =>
      intro calls
      obtain ⟨same, bound, within, reader, reads, _⟩ := readRecords_take_written records true kept 0
      have isCount : same = count := CompleteRecords.eq_of_complete ⟨bound, within⟩ cut.complete
      have contents : reused records kept [] = (written records).take kept := by
        rw [reused_eq, recordFragments, layout, List.append_nil]
      rw [contents, List.append_nil, ← isCount]
      exact ⟨reader, Reader.readRecords_of_ended reads (by omega)⟩

/-- A log of one record is cut off behind its header. The record appended after that is lost. -/
theorem reused_loses_appended :
    CompleteRecords [[1]] 7 0 ∧
      ¬ ReadsBack (reused [[1]] 7 [[2]]) (([[1]] : List Bytes).take 0 ++ [[2]]) := by
  refine ⟨⟨by decide, by decide +kernel⟩, fun readsBack => ?_⟩
  obtain ⟨reader, reads⟩ := readsBack 0
  have nothing : ((Reader.new { remaining := reused [[1]] 7 [[2]] } true 0).readRecords 2).1 = [] := by
    decide +kernel
  have lost := nothing.symm.trans (congrArg Prod.fst reads)
  cases lost

end LevelDb.Log
