/-
This file proves that an iterator over a block is a cursor over its entries. The cursor of a list
that is moved by positions is the cursor that is moved by keys, in the order of a comparator whose
equal keys are the same.
-/

import LevelDb.Sst.BlockRoundTrip
import LevelDb.Sst.StoredBlocks
import LevelDb.Sst.Table

namespace LevelDb.Sst

open Lib

/-! ### The order of a comparator -/

namespace Comparator.Sound

variable {comparator : Comparator} (sound : comparator.Sound)

include sound in
theorem isLE_iff (first second : Bytes) :
    (comparator.compare first second).isLE ↔ comparator.compare second first ≠ .lt := by
  have := sound.trans
  have turned : (comparator.compare first second).isLE ↔
      (comparator.compare second first).isGE := Std.OrientedCmp.isGE_iff_isLE.symm
  rw [turned]
  cases comparator.compare second first <;> decide

/-- The order of a comparator. -/
abbrev order : LinearOrder Bytes where
  le first second := (comparator.compare first second).isLE
  lt first second := comparator.compare first second = .lt
  lt_iff_le_not_ge first second := by
    rw [sound.isLE_iff second first, not_not]
    refine (and_iff_right_of_imp fun less => ?_).symm
    rw [less]
    rfl
  le_refl key := by
    have := sound.trans
    have same : comparator.compare key key = .eq := Std.ReflCmp.compare_self
    rw [same]
    rfl
  le_trans _ _ _ first second := by
    have := sound.trans
    exact Std.TransCmp.isLE_trans first second
  le_antisymm first second atMost atLeast := by
    refine sound.eq_of_compare first second ?_
    have notLess := (sound.isLE_iff second first).mp atLeast
    generalize comparator.compare first second = order at atMost notLess
    cases order
    · exact absurd rfl notLess
    · rfl
    · cases atMost
  le_total first second := by
    rw [sound.isLE_iff second first]
    cases comparator.compare first second <;> decide
  toDecidableLE := fun _ _ => inferInstanceAs (Decidable (_ = true))
  toDecidableLT := fun _ _ => inferInstanceAs (Decidable (_ = _))
  min first second := if (comparator.compare first second).isLE then first else second
  max first second := if (comparator.compare first second).isLE then second else first
  compare := comparator.compare
  compare_eq_compareOfLessAndEq first second := by
    have := sound.trans
    rw [compareOfLessAndEq]
    split
    · next less => exact less
    · next notLess =>
      split
      · next same => rw [same]; exact Std.ReflCmp.compare_self
      · next different =>
        have notEqual : comparator.compare first second ≠ .eq := fun equal =>
          different (sound.eq_of_compare first second equal)
        have notLess : comparator.compare first second ≠ .lt := notLess
        generalize comparator.compare first second = order at notLess notEqual
        cases order
        · exact absurd rfl notLess
        · exact absurd rfl notEqual
        · rfl

/-- Entries whose keys increase for the comparator ascend in its order. -/
theorem ascending {entries : List (Bytes × Bytes)}
    (increasing : entries.Pairwise fun first second => comparator.compare first.1 second.1 = .lt) :
    @Ascending _ _ sound.order Prod.fst entries := increasing

end Comparator.Sound

/-! ### Positions and keys -/

/-- The entry at a position. -/
def entryAt (entries : List (Bytes × Bytes)) (position : Option Nat) : Option (Bytes × Bytes) :=
  position.bind fun index => entries[index]?

theorem listCall_lt {compare : Bytes → Bytes → Ordering} {entries : List (Bytes × Bytes)}
    {position next : Option Nat} {request : CursorCall Bytes}
    (inside : ∀ index ∈ position, index < entries.length)
    (answered : listCall compare entries position request = some next) :
    ∀ index ∈ next, index < entries.length := by
  intro index isNext
  cases request with
  | seek target =>
    obtain rfl := Option.some.inj answered
    exact (List.findIdx?_eq_some_iff_findIdx_eq.mp isNext).1
  | seekToFirst =>
    obtain rfl := Option.some.inj answered
    obtain ⟨some', same⟩ := Option.ite_none_right_eq_some.mp isNext
    obtain rfl := Option.some.inj same
    exact some'
  | seekToLast =>
    obtain rfl := Option.some.inj answered
    obtain ⟨some', same⟩ := Option.ite_none_right_eq_some.mp isNext
    obtain rfl := Option.some.inj same
    exact Nat.sub_one_lt_of_lt some'
  | next =>
    obtain ⟨current, -, rfl⟩ := Option.map_eq_some_iff.mp answered
    obtain ⟨more, same⟩ := Option.ite_none_right_eq_some.mp isNext
    obtain rfl := Option.some.inj same
    exact more
  | prev =>
    obtain ⟨current, isCurrent, rfl⟩ := Option.map_eq_some_iff.mp answered
    obtain ⟨-, same⟩ := Option.ite_none_right_eq_some.mp isNext
    obtain rfl := Option.some.inj same
    exact (Nat.sub_le _ _).trans_lt (inside current isCurrent)

/-- The cursor that is moved by positions goes where the one goes that is moved by keys. -/
theorem cursorStep_entryAt {comparator : Comparator} (sound : comparator.Sound)
    {entries : List (Bytes × Bytes)}
    (increasing : entries.Pairwise fun first second => comparator.compare first.1 second.1 = .lt)
    {position : Option Nat} (inside : ∀ index ∈ position, index < entries.length)
    (request : CursorCall Bytes) :
    @cursorStep _ _ sound.order entries (entryAt entries position) request =
      (listCall comparator.compare entries position request).map (entryAt entries) := by
  let order := sound.order
  have ascending := sound.ascending increasing
  cases request with
  | seek target =>
    rw [cursorStep, listCall, Option.map_some, entryAt, ← List.find?_eq_bind_findIdx?_getElem?]
    refine congrArg some (find?_congr_of_mem fun entry _ => ?_)
    exact Bool.decide_congr (sound.isLE_iff target entry.1)
  | seekToFirst =>
    rw [cursorStep, listCall, Option.map_some, entryAt]
    cases entries with
    | nil => rfl
    | cons entry rest => rfl
  | seekToLast =>
    rw [cursorStep, listCall, Option.map_some, entryAt, List.getLast?_eq_getElem?]
    cases entries with
    | nil => rfl
    | cons entry rest => rfl
  | next =>
    cases position with
    | none => rfl
    | some index =>
      have bound := inside index rfl
      have current : entryAt entries (some index) = some entries[index] :=
        List.getElem?_eq_getElem bound
      rw [current]
      refine congrArg some ((ascending.find?_gt_getElem bound).trans ?_)
      show entries[index + 1]? =
        entryAt entries (if index + 1 < entries.length then some (index + 1) else none)
      split
      · rfl
      · next last => exact List.getElem?_eq_none (Nat.not_lt.mp last)
  | prev =>
    cases position with
    | none => rfl
    | some index =>
      have bound := inside index rfl
      have current : entryAt entries (some index) = some entries[index] :=
        List.getElem?_eq_getElem bound
      rw [current]
      refine congrArg some ((ascending.find?_lt_getElem bound).trans ?_)
      show (if 0 < index then entries[index - 1]? else none) =
        entryAt entries (if 0 < index then some (index - 1) else none)
      split
      · rfl
      · rfl

/-! ### One layout -/

/-- The bytes of pieces determine the pieces. -/
theorem layout_injective {pieces pieces' : List Piece} {last : Bytes}
    (chained : Chained last pieces) (chained' : Chained last pieces')
    (fits : ∀ piece ∈ pieces, piece.Fits) (fits' : ∀ piece ∈ pieces', piece.Fits)
    (small : (layout pieces).length < 2 ^ 32) (same : layout pieces = layout pieces') :
    pieces = pieces' := by
  induction pieces generalizing pieces' last with
  | nil => exact (TableBuilder.layout_eq_nil_iff.mp same.symm).symm
  | cons piece rest inductionHypothesis =>
    cases pieces' with
    | nil => exact TableBuilder.layout_eq_nil_iff.mp same
    | cons piece' rest' =>
      rw [layout_cons] at small
      rw [layout_cons, layout_cons] at same
      have decoded := decodeEntry_encode (fits piece List.mem_cons_self) chained.shared_le small
      have decoded' := decodeEntry_encode (fits' piece' List.mem_cons_self) chained'.shared_le
        (same ▸ small)
      rw [same] at decoded
      obtain ⟨shared, nonShared, valueLength, delta⟩ :=
        EntryHeader.mk.injEq .. ▸ Option.some.inj (decoded.symm.trans decoded')
      have suffix : piece.key.drop piece.shared = piece'.key.drop piece'.shared ∧
          piece.value ++ layout rest = piece'.value ++ layout rest' :=
        List.append_inj delta (by rw [List.length_drop, List.length_drop, nonShared])
      obtain ⟨value, behind⟩ := List.append_inj suffix.2 valueLength
      have key : piece.key = piece'.key := by
        rw [← chained.key_eq, ← chained'.key_eq, suffix.1, shared]
      have samePiece : piece = piece' := by
        cases piece
        cases piece'
        exact Piece.mk.injEq .. ▸ ⟨shared, key, value⟩
      rw [samePiece] at chained
      rw [samePiece, inductionHypothesis chained.2.2 chained'.2.2
        (fun other member => fits other (List.mem_cons_of_mem _ member))
        (fun other member => fits' other (List.mem_cons_of_mem _ member))
        ((Nat.le_add_left _ _).trans_lt (List.length_append ▸ small)) behind]

theorem Laid.pieces_eq {source : Source} {pieces pieces' : List Piece} (laid : Laid source pieces)
    (laid' : Laid source pieces') : pieces = pieces' :=
  layout_injective laid.chained laid'.chained laid.fits laid'.fits (laid.restarts ▸ laid.small)
    (laid.entries.symm.trans laid'.entries)

/-! ### Iterators over blocks -/

/-- An iterator over a block of some entries, whose status is OK. -/
structure BlockCursor.Over (compare : Bytes → Bytes → Ordering) (source : Source) (it : Iter)
    (entries : List (Bytes × Bytes)) : Prop where
  laid : ∃ pieces, Laid source pieces ∧ pieces.map Piece.binding = entries ∧
    ∃ position, it.Stands source pieces position
  increasing : entries.Pairwise fun first second => compare first.1 second.1 = .lt
  status : it.status = none

/-- An iterator that has met no fault and is over a block of some entries. -/
def IsOver (compare : Bytes → Bytes → Ordering) :
    Except Fault BlockCursor → List (Bytes × Bytes) → Prop
  | .ok (.over source it), entries => BlockCursor.Over compare source it entries
  | _, _ => False

namespace IsOver

variable {compare : Bytes → Bytes → Ordering} {state : Except Fault BlockCursor}
  {entries : List (Bytes × Bytes)}

/-- A block that is opened has an iterator over its entries. -/
theorem start {source : Source} {pieces : List Piece} (laid : Laid source pieces)
    (increasing : (pieces.map Piece.binding).Pairwise fun first second =>
      compare first.1 second.1 = .lt) :
    IsOver compare (.ok (.start (.over source))) (pieces.map Piece.binding) :=
  ⟨⟨pieces, laid, rfl, none, Iter.new_stands source pieces⟩, increasing, rfl⟩

theorem exists_over (isOver : IsOver compare state entries) : ∃ source it,
    state = .ok (.over source it) ∧ BlockCursor.Over compare source it entries := by
  match state, isOver with
  | .ok (.over source it), cursor => exact ⟨source, it, rfl, cursor⟩

theorem increasing (isOver : IsOver compare state entries) :
    entries.Pairwise fun first second => compare first.1 second.1 = .lt := by
  obtain ⟨source, it, rfl, cursor⟩ := isOver.exists_over
  exact cursor.increasing

theorem status (isOver : IsOver compare state entries) : Table.cursorStatus state = none := by
  obtain ⟨source, it, rfl, cursor⟩ := isOver.exists_over
  exact Option.map_eq_none_iff.mpr cursor.status

/-- The iterator stands at a position of the entries, and every call takes it where the cursor
goes. -/
theorem position [Std.TransCmp compare] (isOver : IsOver compare state entries) :
    ∃ position, (∀ index ∈ position, index < entries.length) ∧
      (Table.cursorIterator compare).current state = entryAt entries position ∧
      ∀ request, IsOver compare ((Table.cursorIterator compare).call state request) entries ∧
        ∀ next, listCall compare entries position request = some next →
          (Table.cursorIterator compare).current
            ((Table.cursorIterator compare).call state request) = entryAt entries next := by
  obtain ⟨source, it, rfl, cursor⟩ := isOver.exists_over
  obtain ⟨pieces, laid, rfl, position, stands⟩ := cursor.laid
  have increasing := List.pairwise_map.mp cursor.increasing
  refine ⟨position, ?_, stands.entry_eq laid, fun request => ?_⟩
  · rintro index rfl
    obtain ⟨front, piece, back, rfl, on⟩ := stands
    rw [List.length_map, on.pieces, List.length_append, List.length_cons]
    omega
  · cases answered : listCall compare (pieces.map Piece.binding) position request with
    | none =>
      have refused : (Table.cursorIterator compare).call (.ok (.over source it)) request =
          .ok (.over source it) := by
        show ((BlockCursor.over source it).call compare request).getD _ = _
        rw [BlockCursor.call, stands.call_none answered]
        rfl
      rw [refused]
      exact ⟨isOver, nofun⟩
    | some next =>
      obtain ⟨it', called, sameStatus, moved⟩ := stands.call laid increasing answered
      have reached : (Table.cursorIterator compare).call (.ok (.over source it)) request =
          .ok (.over source it') := by
        show ((BlockCursor.over source it).call compare request).getD _ = _
        rw [BlockCursor.call, called]
        rfl
      rw [reached]
      refine ⟨⟨⟨pieces, laid, rfl, next, moved⟩, cursor.increasing,
        sameStatus.trans cursor.status⟩, fun other isOther => ?_⟩
      obtain rfl := Option.some.inj isOther
      exact moved.entry_eq laid

theorem call [Std.TransCmp compare] (isOver : IsOver compare state entries)
    (request : CursorCall Bytes) :
    IsOver compare ((Table.cursorIterator compare).call state request) entries := by
  obtain ⟨_, _, _, calls⟩ := isOver.position
  exact (calls request).1

end IsOver

/-- `Seek` in a block that was just opened finds the first entry that is not less. -/
theorem BlockCursor.seek_start {compare : Bytes → Bytes → Ordering} [Std.TransCmp compare]
    {source : Source} {pieces : List Piece} (laid : Laid source pieces)
    (increasing : (pieces.map Piece.binding).Pairwise fun first second =>
      compare first.1 second.1 = .lt) (target : Bytes) :
    ∃ cursor, (BlockCursor.start (.over source)).seek compare target = .ok cursor ∧
      cursor.status = none ∧ cursor.entry =
        (pieces.map Piece.binding).find? fun entry => compare entry.1 target ≠ .lt := by
  obtain ⟨it', called, sameStatus, moved⟩ := (Iter.new_stands source pieces).call laid
    (List.pairwise_map.mp increasing) (show listCall compare (pieces.map Piece.binding) none
      (.seek target) = some _ from rfl)
  refine ⟨.over source it', ?_, sameStatus, ?_⟩
  · show ((BlockCursor.over source (.new source)).call compare (.seek target)).getD _ = _
    rw [BlockCursor.call, called]
    rfl
  · rw [List.find?_eq_bind_findIdx?_getElem?]
    exact moved.entry_eq laid

/-- An iterator over a block is a cursor over its entries. -/
theorem cursorIterator_isCursor {comparator : Comparator} (sound : comparator.Sound) :
    @Iterator.IsCursor _ _ sound.order _ (Table.cursorIterator comparator.compare)
      (IsOver comparator.compare) := by
  have := sound.trans
  refine @Iterator.IsCursor.mk _ _ sound.order _ _ _
    (fun state entries isOver binding isCurrent => ?_)
    fun state entries request next isOver answered => ?_
  · obtain ⟨position, -, current, -⟩ := isOver.position
    rw [current] at isCurrent
    obtain ⟨index, -, found⟩ := Option.bind_eq_some_iff.mp isCurrent
    exact List.mem_of_getElem? found
  · obtain ⟨position, inside, current, calls⟩ := isOver.position
    rw [current, cursorStep_entryAt sound isOver.increasing inside] at answered
    obtain ⟨last, isLast, rfl⟩ := Option.map_eq_some_iff.mp answered
    exact ⟨(calls request).1, (calls request).2 last isLast⟩

end LevelDb.Sst
