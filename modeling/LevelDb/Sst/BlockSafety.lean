/-
This file proves that the iterator over a block of arbitrary bytes stays inside of the block. The
check of `DecodeEntry` adds two lengths in 32 bits, and `Seek` adds two restart indices in 32 bits;
where neither sum wraps, every call returns, reads entries and restart points only, and turns a
malformed entry into a `Corruption`.
-/

import LevelDb.Sst.Block

namespace LevelDb.Sst

open Lib

/-! ### Headers -/

theorem length_readHeader {input : Bytes} {header : EntryHeader}
    (reads : readHeader input = some header) : header.delta.length + 3 ≤ input.length := by
  unfold readHeader at reads
  split at reads
  · cases reads
  · next shared afterShared isShared =>
    split at reads
    · cases reads
    · next nonShared afterNonShared isNonShared =>
      split at reads
      · cases reads
      · next valueLength delta isValueLength =>
        cases reads
        have first := length_getVarint32 isShared
        have second := length_getVarint32 isNonShared
        have third := length_getVarint32 isValueLength
        show delta.length + 3 ≤ input.length
        omega

theorem getVarint32_of_lt {byte : UInt8} (small : byte.toNat < 128) (rest : Bytes) :
    getVarint32 (byte :: rest) = some (byte.toNat, rest) := by
  rw [getVarint32, if_pos ((and_128_eq_zero_iff byte).mpr small)]

/-- The fast path reads what three calls of `GetVarint32Ptr` read. -/
theorem decodeHeader_eq (input : Bytes) : decodeHeader input = readHeader input := by
  match input with
  | shared :: nonShared :: valueLength :: delta =>
    rw [decodeHeader]
    split
    · next small =>
      rw [UInt8.toNat_or, UInt8.toNat_or] at small
      have pair := Nat.left_le_or.trans_lt small
      rw [readHeader, getVarint32_of_lt (Nat.left_le_or.trans_lt pair)]
      dsimp only
      rw [getVarint32_of_lt (Nat.right_le_or.trans_lt pair)]
      dsimp only
      rw [getVarint32_of_lt (Nat.right_le_or.trans_lt small)]
    · rfl
  | [] | [_] | [_, _] =>
    rw [decodeHeader]
    · symm
      rw [Option.eq_none_iff_forall_ne_some]
      intro header reads
      have long := length_readHeader reads
      simp only [List.length_cons, List.length_nil] at long
      omega
    · intro shared nonShared valueLength delta same
      cases same

/-! ### Entries of a block -/

namespace Iter

variable (source : Source)

/-- There is an entry at an offset, behind a key of a length: its lengths can be read, its key
shares no more than there is, and the rest of its key and its value end before the limit. -/
def WellFormedAt (offset keyLength : Nat) : Prop :=
  ∃ header, readHeader (entriesFrom source offset) = some header ∧ header.shared ≤ keyLength ∧
    header.nonShared + header.valueLength ≤ header.delta.length

/-- The offsets at which an entry may be parsed, with the length of the key before it: the restart
points, and the end of each entry that is well formed. -/
inductive EntryAt : Nat → Nat → Prop
  | restart {index : Nat} (inside : index < source.numRestarts) :
    EntryAt (restartPoint source index) 0
  | next {offset keyLength : Nat} {header : EntryHeader} (entry : EntryAt offset keyLength)
    (reads : readHeader (entriesFrom source offset) = some header)
    (sharesKey : header.shared ≤ keyLength)
    (fits : header.nonShared + header.valueLength ≤ header.delta.length) :
    EntryAt (source.restarts - header.delta.length + header.nonShared + header.valueLength)
      (header.shared + header.nonShared)

/-- At no entry that may be parsed do the lengths of key and value add up to `2 ^ 32` or more. -/
def Unwrapped : Prop :=
  ∀ offset keyLength header, EntryAt source offset keyLength →
    readHeader (entriesFrom source offset) = some header → header.shared ≤ keyLength →
    header.nonShared + header.valueLength < 2 ^ 32

/-- The iterator stands on an entry: its value lies between the entry and the restart array, and
the next entry is parsed behind it. -/
structure OnEntry (it : Iter) : Prop where
  restart : it.restartIndex < source.numRestarts
  value : ∃ offset size, it.value = some (offset, size) ∧ it.current < offset ∧
    offset + size ≤ source.restarts ∧ EntryAt source (offset + size) it.key.length

/-- The iterator is about to parse the entry at an offset. -/
structure Ready (it : Iter) (offset : Nat) : Prop where
  restart : it.restartIndex < source.numRestarts
  next : it.nextEntryOffset = some offset
  small : offset < 2 ^ 32
  entry : EntryAt source offset it.key.length

/-- All entries that were decoded are well formed. -/
def AllWellFormed (it : Iter) : Prop := ∀ place ∈ it.decoded, WellFormedAt source place.1 place.2

/-- What holds of an iterator between calls: a valid one stands on an entry, and one that decoded a
malformed entry is not valid and has a `Corruption` for its status. -/
structure Settled (it : Iter) : Prop where
  onEntry : it.Valid source → it.OnEntry source
  corruption : ∀ place ∈ it.decoded, ¬ WellFormedAt source place.1 place.2 →
    ¬ it.Valid source ∧ it.status = some "bad entry in block"

variable {source}

theorem length_entriesFrom {offset : Nat} (inside : source.restarts ≤ source.data.length) :
    (entriesFrom source offset).length = source.restarts - offset := by
  rw [entriesFrom, List.length_drop, List.length_take, min_eq_left inside]

theorem not_valid_corruptionError (it : Iter) : ¬ (it.corruptionError source).Valid source :=
  lt_irrefl source.restarts

theorem not_valid_atEnd (it : Iter) : ¬ (it.atEnd source).Valid source :=
  lt_irrefl source.restarts

theorem AllWellFormed.settled_atEnd {it : Iter} (wellFormed : it.AllWellFormed source) :
    (it.atEnd source).Settled source :=
  ⟨fun valid => absurd valid (not_valid_atEnd it),
    fun place member malformed => absurd (wellFormed place member) malformed⟩

theorem settled_corruptionError (it : Iter) : (it.corruptionError source).Settled source :=
  ⟨fun valid => absurd valid (not_valid_corruptionError it),
    fun _ _ _ => ⟨not_valid_corruptionError it, rfl⟩⟩

theorem AllWellFormed.settled {it : Iter} (wellFormed : it.AllWellFormed source)
    (onEntry : it.OnEntry source) : it.Settled source :=
  ⟨fun _ => onEntry, fun place member malformed => absurd (wellFormed place member) malformed⟩

/-- `DecodeEntry` accepts every entry that is well formed. -/
theorem not_wellFormedAt_of_decodeEntry (small : source.restarts < 2 ^ 32)
    {offset keyLength : Nat} (refused : decodeEntry (entriesFrom source offset) = none) :
    ¬ WellFormedAt source offset keyLength := by
  rintro ⟨header, reads, _, fits⟩
  have room : header.delta.length < 2 ^ 32 := by
    have long := length_readHeader reads
    rw [entriesFrom, List.length_drop, List.length_take] at long
    omega
  rw [decodeEntry, decodeHeader_eq, reads] at refused
  dsimp only at refused
  rw [Nat.mod_eq_of_lt room, Nat.mod_eq_of_lt (fits.trans_lt room),
    if_neg (Nat.not_lt.mpr fits)] at refused
  cases refused

/-- What `DecodeEntry` accepts has room for its key and its value, if their lengths do not wrap. -/
theorem fits_of_decodeEntry (small : source.restarts < 2 ^ 32) (unwrapped : Unwrapped source)
    {offset keyLength : Nat} (entry : EntryAt source offset keyLength) {header : EntryHeader}
    (accepted : decodeEntry (entriesFrom source offset) = some header) :
    readHeader (entriesFrom source offset) = some header ∧ (header.shared ≤ keyLength →
      header.nonShared + header.valueLength ≤ header.delta.length) := by
  rw [decodeEntry, decodeHeader_eq] at accepted
  split at accepted
  · cases accepted
  · next found reads =>
    split at accepted
    · cases accepted
    · next enough =>
      obtain rfl := Option.some.inj accepted
      refine ⟨reads, fun sharesKey => ?_⟩
      have room : found.delta.length < 2 ^ 32 := by
        have long := length_readHeader reads
        rw [entriesFrom, List.length_drop, List.length_take] at long
        omega
      rw [Nat.mod_eq_of_lt room,
        Nat.mod_eq_of_lt (unwrapped offset keyLength found entry reads sharesKey)] at enough
      exact Nat.not_lt.mp enough

/-! ### Parsing -/

theorem advanceRestart_lt (current rounds : Nat) {index : Nat}
    (inside : index < source.numRestarts) :
    advanceRestart source current rounds index < source.numRestarts := by
  induction rounds generalizing index with
  | zero => exact inside
  | succ rounds inductionHypothesis =>
    rw [advanceRestart]
    split
    · next more => exact inductionHypothesis more.1
    · exact inside

/-- What `ParseNextKey` does at an entry: it is at the end, or the entry is malformed, or the
iterator moves onto it. -/
theorem Ready.parseNextKey {it : Iter} {offset : Nat} (ready : it.Ready source offset)
    (small : source.restarts < 2 ^ 32) (inside : source.restarts ≤ source.data.length)
    (unwrapped : Unwrapped source) :
    (source.restarts ≤ offset ∧ it.parseNextKey source = .ok (false, it.atEnd source)) ∨
    (¬ WellFormedAt source offset it.key.length ∧ ∃ decoded,
      it.parseNextKey source = .ok (false, { it with decoded := decoded }.corruptionError source)) ∨
    ∃ it', it.parseNextKey source = .ok (true, it') ∧ it'.OnEntry source ∧ it'.current = offset ∧
      it'.decoded = it.decoded ++ [(offset, it.key.length)] ∧
      WellFormedAt source offset it.key.length := by
  rw [Iter.parseNextKey, ready.next]
  dsimp only
  rw [Nat.mod_eq_of_lt ready.small]
  by_cases ended : source.restarts ≤ offset
  · exact .inl ⟨ended, if_pos ended⟩
  · rw [if_neg ended]
    cases decoded : decodeEntry (entriesFrom source offset) with
    | none => exact .inr (.inl ⟨not_wellFormedAt_of_decodeEntry small decoded, _, rfl⟩)
    | some header =>
      obtain ⟨reads, fits⟩ := fits_of_decodeEntry small unwrapped ready.entry decoded
      dsimp only
      by_cases sharesKey : it.key.length < header.shared
      · rw [if_pos sharesKey]
        refine .inr (.inl ⟨?_, _, rfl⟩)
        rintro ⟨other, otherReads, otherShares, _⟩
        obtain rfl := Option.some.inj (reads.symm.trans otherReads)
        exact absurd otherShares (Nat.not_le.mpr sharesKey)
      · have shares := Nat.not_lt.mp sharesKey
        have room := fits shares
        rw [if_neg sharesKey, if_neg (Nat.not_lt.mpr room)]
        have long := length_readHeader reads
        rw [length_entriesFrom inside] at long
        have next := EntryAt.next ready.entry reads shares room
        have keyLength : (it.key.take header.shared ++ header.delta.take header.nonShared).length =
            header.shared + header.nonShared := by
          rw [List.length_append, List.length_take, List.length_take, min_eq_left shares,
            min_eq_left (Nat.le_of_add_right_le room)]
        refine .inr (.inr ⟨_, rfl, ⟨advanceRestart_lt _ _ ready.restart, _, _, rfl, ?_, ?_, ?_⟩, rfl,
          rfl, header, reads, shares, room⟩)
        · show offset < source.restarts - header.delta.length + header.nonShared
          omega
        · omega
        · show EntryAt source _ (it.key.take header.shared ++
            header.delta.take header.nonShared).length
          rw [keyLength]
          exact next

theorem OnEntry.ready {it : Iter} (onEntry : it.OnEntry source)
    (small : source.restarts < 2 ^ 32) :
    ∃ offset, it.Ready source offset ∧ it.current < offset ∧ offset ≤ source.restarts := by
  obtain ⟨offset, size, isValue, after, within, entry⟩ := onEntry.value
  refine ⟨offset + size, ⟨onEntry.restart, by rw [nextEntryOffset, isValue]; rfl,
    within.trans_lt small, entry⟩, Nat.lt_add_right size after, within⟩

theorem seekToRestartPoint_ready (it : Iter) {index : Nat} (inside : index < source.numRestarts) :
    ∃ it', it.seekToRestartPoint source index = .ok it' ∧
      it'.Ready source (restartPoint source index) ∧ it'.decoded = it.decoded := by
  refine ⟨{ it with
    key := [], restartIndex := index, value := some (restartPoint source index, 0) }, ?_,
    ⟨inside, rfl, decodeFixed32_lt _, EntryAt.restart inside⟩, rfl⟩
  rw [seekToRestartPoint, getRestartPoint, if_pos inside]
  rfl

/-- A single call of `ParseNextKey`, whatever it finds. -/
theorem Ready.settled {it : Iter} {offset : Nat} (ready : it.Ready source offset)
    (wellFormed : it.AllWellFormed source)
    (small : source.restarts < 2 ^ 32) (inside : source.restarts ≤ source.data.length)
    (unwrapped : Unwrapped source) :
    ∃ parsed it', it.parseNextKey source = .ok (parsed, it') ∧ it'.Settled source ∧
      (parsed = true → it'.OnEntry source ∧ it'.current = offset ∧ it'.AllWellFormed source) := by
  obtain ⟨_, ended⟩ | ⟨_, decoded, malformed⟩ | ⟨it', parsed, onEntry, isCurrent, isDecoded, good⟩ :=
    ready.parseNextKey small inside unwrapped
  · exact ⟨_, _, ended, wellFormed.settled_atEnd, nofun⟩
  · exact ⟨_, _, malformed, settled_corruptionError _, nofun⟩
  · have stillWell : it'.AllWellFormed source := by
      intro place member
      rw [isDecoded] at member
      obtain old | rfl := List.mem_append.mp member |>.imp_right List.mem_singleton.mp
      · exact wellFormed place old
      · exact good
    exact ⟨_, _, parsed, stillWell.settled onEntry, fun _ => ⟨onEntry, isCurrent, stillWell⟩⟩

/-- A loop that parses entries ends: each entry lies behind the one before. -/
theorem Ready.parseWhile {it : Iter} {offset : Nat} (ready : it.Ready source offset)
    (wellFormed : it.AllWellFormed source) (small : source.restarts < 2 ^ 32)
    (inside : source.restarts ≤ source.data.length) (unwrapped : Unwrapped source)
    (goesOn : Iter → Bool) {rounds : Nat} (enough : source.restarts ≤ offset + rounds) :
    ∃ it', it.parseWhile source goesOn (rounds + 1) = .ok it' ∧ it'.Settled source := by
  induction rounds generalizing it offset with
  | zero =>
    obtain ⟨parsed, it', isParsed, settled, moved⟩ :=
      ready.settled wellFormed small inside unwrapped
    cases parsed with
    | false => exact ⟨it', by rw [Iter.parseWhile, isParsed]; rfl, settled⟩
    | true =>
      obtain ⟨onEntry, isCurrent, _⟩ := moved rfl
      obtain ⟨next, _, after, within⟩ := onEntry.ready small
      omega
  | succ rounds inductionHypothesis =>
    obtain ⟨parsed, it', isParsed, settled, moved⟩ :=
      ready.settled wellFormed small inside unwrapped
    cases parsed with
    | false => exact ⟨it', by rw [Iter.parseWhile, isParsed]; rfl, settled⟩
    | true =>
      obtain ⟨onEntry, isCurrent, stillWell⟩ := moved rfl
      obtain ⟨next, nextReady, after, _⟩ := onEntry.ready small
      by_cases more : goesOn it'
      · obtain ⟨last, isLast, lastSettled⟩ := inductionHypothesis nextReady stillWell (by omega)
        refine ⟨last, ?_, lastSettled⟩
        rw [Iter.parseWhile, isParsed, ← isLast]
        show (if (true && goesOn it') = true then _ else _) = _
        rw [Bool.true_and, if_pos more]
      · refine ⟨it', ?_, settled⟩
        rw [Iter.parseWhile, isParsed]
        show (if (true && goesOn it') = true then _ else _) = _
        rw [Bool.true_and, if_neg more]
        rfl

/-! ### The calls -/

/-- What `Block` and `NewIterator` make sure of, with restart indices whose sums do not wrap. -/
structure Sane (source : Source) : Prop where
  small : source.restarts < 2 ^ 32
  inside : source.restarts + source.numRestarts * 4 ≤ source.data.length
  some : 0 < source.numRestarts
  few : source.numRestarts ≤ 2 ^ 31
  unwrapped : Unwrapped source

theorem Sane.entriesInside (sane : Sane source) : source.restarts ≤ source.data.length :=
  (Nat.le_add_right _ _).trans sane.inside

theorem scanFrom_settled (sane : Sane source) {it : Iter} (wellFormed : it.AllWellFormed source)
    {index : Nat} (inside : index < source.numRestarts) (goesOn : Iter → Bool) :
    ∃ it', (do
      let start ← it.seekToRestartPoint source index
      start.parseWhile source goesOn (rounds source)) = .ok it' ∧ it'.Settled source := by
  obtain ⟨start, isStart, ready, sameDecoded⟩ := seekToRestartPoint_ready it inside
  have startWell : start.AllWellFormed source := by
    rw [AllWellFormed, sameDecoded]
    exact wellFormed
  obtain ⟨it', isLast, settled⟩ := ready.parseWhile startWell sane.small sane.entriesInside
    sane.unwrapped goesOn (Nat.le_add_left _ _)
  exact ⟨it', by rw [isStart]; exact isLast, settled⟩

/-- The restart point that `Prev` finds lies before the current entry. -/
theorem restartBefore_spec (original : Nat) {index : Nat} (inside : index < source.numRestarts) :
    restartBefore source original index = .ok none ∧ original ≤ restartPoint source 0 ∨
      ∃ found < source.numRestarts, restartBefore source original index = .ok (some found) ∧
        restartPoint source found < original := by
  induction index with
  | zero =>
    have read : restartBefore source original 0 =
        if restartPoint source 0 ≥ original then .ok none else .ok (some 0) := by
      rw [restartBefore, getRestartPoint, if_pos inside]
      rfl
    rw [read]
    split
    · next atOrAfter => exact .inl ⟨rfl, atOrAfter⟩
    · next before => exact .inr ⟨0, inside, rfl, Nat.not_le.mp before⟩
  | succ index inductionHypothesis =>
    have read : restartBefore source original (index + 1) =
        if restartPoint source (index + 1) ≥ original then restartBefore source original index
        else .ok (some (index + 1)) := by
      rw [restartBefore, getRestartPoint, if_pos inside]
      rfl
    rw [read]
    split
    · exact inductionHypothesis (Nat.lt_of_succ_lt inside)
    · next before => exact .inr ⟨index + 1, inside, rfl, Nat.not_le.mp before⟩

theorem binarySearch_settled (sane : Sane source) (compare : Bytes → Bytes → Ordering)
    (target : Bytes) {rounds left right : Nat} {it : Iter} (wellFormed : it.AllWellFormed source)
    (ordered : left ≤ right) (inside : right < source.numRestarts)
    (enough : right < left + rounds) :
    (∃ it', it.binarySearch source compare target rounds left right = .ok (none, it') ∧
      it'.Settled source) ∨
    ∃ found it', it.binarySearch source compare target rounds left right = .ok (some found, it') ∧
      found < source.numRestarts ∧ it'.AllWellFormed source := by
  induction rounds generalizing left right it with
  | zero => exact absurd enough (Nat.not_lt.mpr ordered)
  | succ rounds inductionHypothesis =>
    rw [binarySearch]
    by_cases more : left < right
    · have few := sane.few
      have noWrap : (left + right + 1) % 2 ^ 32 / 2 = (left + right + 1) / 2 := by
        rw [Nat.mod_eq_of_lt (by omega)]
      rw [if_pos more]
      dsimp only
      rw [noWrap]
      obtain ⟨mid, isMid⟩ : ∃ mid, mid = (left + right + 1) / 2 := ⟨_, rfl⟩
      have midInside : mid < source.numRestarts := by omega
      have below : (mid + (2 ^ 32 - 1)) % 2 ^ 32 = mid - 1 := by omega
      have entry : EntryAt source (restartPoint source mid) 0 := EntryAt.restart midInside
      rw [← isMid, getRestartPoint, if_pos midInside]
      dsimp only [bind, Except.bind]
      cases decoded : decodeEntry (entriesFrom source (restartPoint source mid)) with
      | none => exact .inl ⟨_, rfl, settled_corruptionError _⟩
      | some header =>
        obtain ⟨reads, fits⟩ := fits_of_decodeEntry sane.small sane.unwrapped entry decoded
        dsimp only
        by_cases shares : header.shared ≠ 0
        · rw [if_pos shares]
          exact .inl ⟨_, rfl, settled_corruptionError _⟩
        · have none := not_not.mp shares
          have room := fits none.le
          have wellFormed' : AllWellFormed source
              { it with decoded := it.decoded ++ [(restartPoint source mid, 0)] } := by
            intro place member
            obtain old | rfl := List.mem_append.mp member |>.imp_right List.mem_singleton.mp
            · exact wellFormed place old
            · exact ⟨header, reads, none.le, room⟩
          rw [if_neg shares, if_neg (Nat.not_lt.mpr (Nat.le_of_add_right_le room)), below]
          split
          · exact inductionHypothesis wellFormed' (by omega) inside (by omega)
          · exact inductionHypothesis wellFormed' (by omega) (by omega) (by omega)
    · rw [if_neg more]
      exact .inr ⟨left, it, rfl, ordered.trans_lt inside, wellFormed⟩

/-- Every call returns, and leaves the iterator settled. -/
theorem Settled.call (sane : Sane source) (compare : Bytes → Bytes → Ordering) {it : Iter}
    (settled : it.Settled source) {request : CursorCall Bytes} {result : Except Fault Iter}
    (allowed : it.call source compare request = some result) :
    ∃ it', result = .ok it' ∧ it'.Settled source := by
  obtain ⟨start, isStart⟩ : ∃ start, start = { it with decoded := [] } := ⟨_, rfl⟩
  have wellFormed : start.AllWellFormed source := by
    rw [isStart]
    exact nofun
  have startOn : it.Valid source → start.OnEntry source := by
    intro valid
    rw [isStart]
    exact ⟨(settled.onEntry valid).restart, (settled.onEntry valid).value⟩
  cases request with
  | seek target =>
    obtain rfl : start.seek source compare target = result :=
      isStart ▸ Option.some.inj allowed
    rw [seek]
    obtain ⟨last, searched, lastSettled⟩ | ⟨left, found, searched, inside, foundWell⟩ :=
      binarySearch_settled sane compare target wellFormed (Nat.zero_le _)
        (Nat.sub_one_lt_of_lt sane.some)
        (show source.numRestarts - 1 < 0 + (source.numRestarts + 1) by omega)
    · exact ⟨last, by rw [searched]; rfl, lastSettled⟩
    · obtain ⟨last, scanned, lastSettled⟩ := scanFrom_settled sane foundWell inside
        fun it => compare it.key target = .lt
      exact ⟨last, by rw [searched]; exact scanned, lastSettled⟩
  | seekToFirst =>
    obtain rfl : start.seekToFirst source = result := isStart ▸ Option.some.inj allowed
    obtain ⟨first, isFirst, ready, sameDecoded⟩ := seekToRestartPoint_ready start sane.some
    have firstWell : first.AllWellFormed source := by
      rw [AllWellFormed, sameDecoded]
      exact wellFormed
    obtain ⟨_, last, parsed, lastSettled, _⟩ :=
      ready.settled firstWell sane.small sane.entriesInside sane.unwrapped
    refine ⟨last, ?_, lastSettled⟩
    simp only [seekToFirst, isFirst, bind, Except.bind, parsed]
    rfl
  | seekToLast =>
    obtain rfl : start.seekToLast source = result := isStart ▸ Option.some.inj allowed
    exact scanFrom_settled sane wellFormed (Nat.sub_one_lt_of_lt sane.some) _
  | next =>
    obtain ⟨valid, same⟩ := Option.ite_none_right_eq_some.mp allowed
    obtain rfl : start.next source = result := isStart ▸ Option.some.inj same
    obtain ⟨offset, ready, _⟩ := (startOn valid).ready sane.small
    obtain ⟨_, last, parsed, lastSettled, _⟩ :=
      ready.settled wellFormed sane.small sane.entriesInside sane.unwrapped
    exact ⟨last, by rw [next, parsed]; rfl, lastSettled⟩
  | prev =>
    obtain ⟨valid, same⟩ := Option.ite_none_right_eq_some.mp allowed
    obtain rfl : start.prev source = result := isStart ▸ Option.some.inj same
    obtain ⟨none, _⟩ | ⟨index, inside, found, _⟩ :=
      restartBefore_spec start.current (startOn valid).restart
    · exact ⟨start.atEnd source, by rw [prev, none]; rfl, wellFormed.settled_atEnd⟩
    · obtain ⟨last, scanned, lastSettled⟩ := scanFrom_settled sane wellFormed inside
        (endsBefore start.current)
      exact ⟨last, by rw [prev, found]; exact scanned, lastSettled⟩

theorem Settled.calls (sane : Sane source) (compare : Bytes → Bytes → Ordering) {it : Iter}
    (settled : it.Settled source) {requests : List (CursorCall Bytes)} {result : Except Fault Iter}
    (allowed : it.calls source compare requests = some result) :
    ∃ it', result = .ok it' ∧ it'.Settled source := by
  induction requests generalizing it with
  | nil =>
    obtain rfl := Option.some.inj allowed
    exact ⟨it, rfl, settled⟩
  | cons first rest inductionHypothesis =>
    rw [Iter.calls] at allowed
    split at allowed
    · cases allowed
    · next fault called =>
      obtain ⟨_, impossible, _⟩ := settled.call sane compare called
      cases impossible
    · next called =>
      obtain ⟨it', same, nextSettled⟩ := settled.call sane compare called
      obtain rfl := Except.ok.inj same
      exact inductionHypothesis nextSettled allowed

end Iter

/-! ### Every block -/

end LevelDb.Sst
