/-
This file proves that a block gives back what was put into it. Between any two calls the iterator
stands on a piece of the layout or on none; parsing from a piece goes to the next one, so that each
loop of `Prev`, `Seek` and `SeekToLast` ends at the piece it looks for.
-/

import LevelDb.Sst.BlockLayout

namespace LevelDb.Sst

open Lib

namespace Iter

variable {source : Source} {pieces : List Piece}

/-! ### Parsing along the pieces -/

/-- The iterator is about to parse the pieces that are left behind a front. -/
structure Before (source : Source) (pieces front back : List Piece) (it : Iter) : Prop where
  pieces : pieces = front ++ back
  next : it.nextEntryOffset = some (layout front).length
  chained : Chained it.key back
  restart : it.restartIndex < source.numRestarts

/-- The iterator stands on a piece. -/
structure On (source : Source) (pieces front : List Piece) (piece : Piece) (back : List Piece)
    (it : Iter) : Prop where
  pieces : pieces = front ++ piece :: back
  current : it.current = (layout front).length
  key : it.key = piece.key
  value : it.valueBytes source = piece.value
  next : it.nextEntryOffset = some (layout (front ++ [piece])).length
  restart : it.restartIndex < source.numRestarts

theorem length_layout_lt (front : List Piece) (piece : Piece) (back : List Piece) :
    (layout front).length < (layout (front ++ piece :: back)).length := by
  rw [layout_append, List.length_append, layout_cons, List.length_append]
  have positive := length_encode_pos piece
  omega

theorem On.valid (laid : Laid source pieces) {front back : List Piece} {piece : Piece} {it : Iter}
    (on : it.On source pieces front piece back) : it.Valid source := by
  rw [Valid, on.current, laid.restarts, on.pieces]
  exact length_layout_lt front piece back

theorem On.before (laid : Laid source pieces) {front back : List Piece} {piece : Piece} {it : Iter}
    (on : it.On source pieces front piece back) :
    it.Before source pieces (front ++ [piece]) back := by
  refine ⟨by rw [on.pieces, List.append_assoc, List.singleton_append], on.next, ?_, on.restart⟩
  have chained := laid.chained
  rw [on.pieces] at chained
  rw [on.key]
  exact chained.append.2.2

theorem entriesFrom_layout (laid : Laid source pieces) {front back : List Piece}
    (isPieces : pieces = front ++ back) :
    entriesFrom source (layout front).length = layout back := by
  rw [entriesFrom, laid.entries, isPieces, layout_append, List.drop_left]

/-- The bytes of a value, by where the pieces behind it end. -/
theorem valueBytes_layout (laid : Laid source pieces) {front rest : List Piece} {piece : Piece}
    (isPieces : pieces = front ++ piece :: rest) :
    (source.data.drop (source.restarts - (piece.value.length + (layout rest).length))).take
      piece.value.length = piece.value := by
  obtain ⟨start, isStart⟩ : ∃ start, layout pieces = start ++ (piece.value ++ layout rest) := by
    refine ⟨layout front ++ (encodeVarint32 (piece.shared % 2 ^ 32) ++
      (encodeVarint32 ((piece.key.length - piece.shared) % 2 ^ 32) ++
        (encodeVarint32 (piece.value.length % 2 ^ 32) ++ piece.key.drop piece.shared))), ?_⟩
    rw [isPieces, layout_append, layout_cons, Piece.encode, BlockBuilder.entryBytes]
    simp only [List.append_assoc]
  have length : source.restarts - (piece.value.length + (layout rest).length) = start.length := by
    rw [laid.restarts, isStart, List.length_append, List.length_append, Nat.add_sub_cancel]
  have whole : source.data = start ++ (piece.value ++
      (layout rest ++ source.data.drop source.restarts)) := by
    rw [← List.append_assoc piece.value, ← List.append_assoc, ← isStart, ← laid.entries,
      List.take_append_drop]
  rw [length, whole, List.drop_left, List.take_left]

/-- Parsing takes the iterator onto the next piece, or to the end. -/
theorem Before.parseNextKey (laid : Laid source pieces) {front back : List Piece} {it : Iter}
    (before : it.Before source pieces front back) :
    match back with
    | [] => it.parseNextKey source = .ok (false, it.atEnd source)
    | piece :: rest => ∃ it', it.parseNextKey source = .ok (true, it') ∧
        it'.On source pieces front piece rest ∧ it'.status = it.status := by
  have isPieces := before.pieces
  have small := laid.small
  have length : (layout front).length + (layout back).length = source.restarts := by
    rw [laid.restarts, isPieces, layout_append, List.length_append]
  have offset : (layout front).length % 2 ^ 32 = (layout front).length :=
    Nat.mod_eq_of_lt (by omega)
  rw [Iter.parseNextKey, before.next]
  dsimp only
  rw [offset]
  cases back with
  | nil => exact if_pos (by rw [layout_nil, List.length_nil] at length; omega)
  | cons piece rest =>
    have room := length_layout_lt front piece rest
    rw [layout_append, List.length_append] at room
    have fits := laid.fits piece (by rw [isPieces]; exact List.mem_append_right _ List.mem_cons_self)
    have within := before.chained.shared_le
    have entries := entriesFrom_layout laid isPieces
    have decoded : decodeEntry (piece.encode ++ layout rest) = _ :=
      decodeEntry_encode fits within (by rw [← layout_cons]; omega)
    have delta : (piece.key.drop piece.shared ++ (piece.value ++ layout rest)).length =
        piece.key.length - piece.shared + (piece.value.length + (layout rest).length) := by
      rw [List.length_append, List.length_append, List.length_drop]
    have header := length_binding_le_encode piece
    rw [layout_cons, List.length_append] at length room
    rw [if_neg (by omega), entries, layout_cons, decoded]
    dsimp only
    have fitsDelta : ¬ (piece.key.drop piece.shared ++ (piece.value ++ layout rest)).length <
        piece.key.length - piece.shared + piece.value.length := by omega
    rw [if_neg (Nat.not_lt.mpr before.chained.1), if_neg fitsDelta]
    refine ⟨_, rfl, ⟨isPieces, rfl, ?_, ?_, ?_, advanceRestart_lt _ _ before.restart⟩, rfl⟩
    · show it.key.take piece.shared ++ (piece.key.drop piece.shared ++
        (piece.value ++ layout rest)).take (piece.key.length - piece.shared) = piece.key
      rw [← List.length_drop, List.take_left, before.chained.key_eq]
    · have value := valueBytes_layout laid isPieces
      show (source.data.drop (source.restarts - _ + (piece.key.length - piece.shared))).take
        piece.value.length = piece.value
      rw [delta, show source.restarts - (piece.key.length - piece.shared + (piece.value.length +
        (layout rest).length)) + (piece.key.length - piece.shared) =
          source.restarts - (piece.value.length + (layout rest).length) by omega, value]
    · show some (source.restarts - _ + (piece.key.length - piece.shared) + piece.value.length) =
        some (layout (front ++ [piece])).length
      rw [delta, layout_append, List.length_append, layout_cons, layout_nil, List.append_nil]
      refine congrArg some ?_
      omega

/-- A loop over the pieces of `back` passed all of a list of them. -/
def Passed (go : List Piece → Piece → Bool) (front skipped : List Piece) : Prop :=
  ∀ before piece after, skipped = before ++ piece :: after → go (front ++ before) piece = true

theorem Passed.nil (go : List Piece → Piece → Bool) (front : List Piece) : Passed go front [] := by
  intro before piece after impossible
  exact absurd impossible.symm (List.append_ne_nil_of_right_ne_nil _ (List.cons_ne_nil _ _))

theorem Passed.cons {go : List Piece → Piece → Bool} {front rest : List Piece} {piece : Piece}
    (first : go front piece = true) (passed : Passed go (front ++ [piece]) rest) :
    Passed go front (piece :: rest) := by
  intro before other after same
  cases before with
  | nil =>
    obtain ⟨rfl, _⟩ := List.cons.inj same
    rw [List.append_nil]
    exact first
  | cons head before =>
    obtain ⟨rfl, tail⟩ := List.cons.inj same
    rw [List.append_cons]
    exact passed before other after tail

/-- A loop that parses goes on to the first piece it is to stop at. -/
theorem Before.parseWhile (laid : Laid source pieces) {front back : List Piece} {it : Iter}
    (before : it.Before source pieces front back) {goesOn : Iter → Bool}
    {go : List Piece → Piece → Bool}
    (agrees : ∀ it front piece back, On source pieces front piece back it → goesOn it = go front piece)
    {rounds : Nat} (enough : back.length < rounds) :
    ∃ it', it.parseWhile source goesOn rounds = .ok it' ∧ it'.status = it.status ∧
      ((∃ skipped piece rest, back = skipped ++ piece :: rest ∧
          it'.On source pieces (front ++ skipped) piece rest ∧ go (front ++ skipped) piece = false ∧
          Passed go front skipped) ∨
        (¬ it'.Valid source ∧ Passed go front back)) := by
  induction back generalizing front it rounds with
  | nil =>
    obtain ⟨rounds, rfl⟩ := Nat.exists_eq_add_one.mpr enough
    have ended := before.parseNextKey laid
    refine ⟨it.atEnd source, ?_, rfl, .inr ⟨not_valid_atEnd it, Passed.nil go front⟩⟩
    rw [Iter.parseWhile, ended]
    rfl
  | cons piece rest inductionHypothesis =>
    obtain ⟨rounds, rfl⟩ := Nat.exists_eq_add_one.mpr (Nat.zero_lt_of_lt enough)
    obtain ⟨it', parsed, on, sameStatus⟩ := before.parseNextKey laid
    have round : it.parseWhile source goesOn (rounds + 1) =
        if goesOn it' = true then it'.parseWhile source goesOn rounds else .ok it' := by
      rw [Iter.parseWhile, parsed]
      rfl
    rw [round]
    cases stops : go front piece with
    | false =>
      rw [agrees it' front piece rest on, stops]
      refine ⟨it', rfl, sameStatus, .inl ⟨[], piece, rest, rfl, ?_, ?_, Passed.nil go front⟩⟩
      · rw [List.append_nil]
        exact on
      · rw [List.append_nil]
        exact stops
    | true =>
      rw [if_pos ((agrees it' front piece rest on).trans stops)]
      obtain ⟨last, ended, lastStatus, found | ⟨invalid, passed⟩⟩ := inductionHypothesis
        (on.before laid) (Nat.lt_of_succ_lt_succ enough)
      · obtain ⟨skipped, other, behind, rfl, lastOn, lastStops, passed⟩ := found
        refine ⟨last, ended, lastStatus.trans sameStatus, .inl ⟨piece :: skipped, other, behind, rfl,
          ?_, ?_, passed.cons stops⟩⟩
        · rw [List.append_cons]
          exact lastOn
        · rw [List.append_cons]
          exact lastStops
      · exact ⟨last, ended, lastStatus.trans sameStatus, .inr ⟨invalid, passed.cons stops⟩⟩

theorem length_le_layout (pieces : List Piece) : pieces.length ≤ (layout pieces).length := by
  induction pieces with
  | nil => exact le_refl 0
  | cons piece rest inductionHypothesis =>
    have positive := length_encode_pos piece
    rw [layout_cons, List.length_append, List.length_cons]
    omega

/-- A scan from a piece that shares nothing. -/
theorem scan_layout (laid : Laid source pieces) (it : Iter) {index : Nat}
    (inside : index < source.numRestarts) {front back : List Piece}
    (isPieces : pieces = front ++ back) (isPoint : restartPoint source index = (layout front).length)
    (nothing : Chained [] back) {goesOn : Iter → Bool} {go : List Piece → Piece → Bool}
    (agrees : ∀ it front piece back, On source pieces front piece back it → goesOn it = go front piece) :
    ∃ it', (do
        let start ← it.seekToRestartPoint source index
        start.parseWhile source goesOn (rounds source)) = .ok it' ∧ it'.status = it.status ∧
      ((∃ skipped piece rest, back = skipped ++ piece :: rest ∧
          it'.On source pieces (front ++ skipped) piece rest ∧ go (front ++ skipped) piece = false ∧
          Passed go front skipped) ∨
        (¬ it'.Valid source ∧ Passed go front back)) := by
  obtain ⟨start, isStart⟩ : ∃ start : Iter, start = { it with
    key := [], restartIndex := index, value := some (restartPoint source index, 0) } := ⟨_, rfl⟩
  have sought : it.seekToRestartPoint source index = .ok start := by
    rw [seekToRestartPoint, getRestartPoint, if_pos inside, isStart]
    rfl
  have before : start.Before source pieces front back := by
    rw [isStart]
    exact ⟨isPieces, congrArg some isPoint, nothing, inside⟩
  have enough : back.length < rounds source := by
    have bound := length_le_layout back
    rw [rounds, laid.restarts, isPieces, layout_append, List.length_append]
    omega
  obtain ⟨it', scanned, sameStatus, ending⟩ := before.parseWhile laid agrees enough
  refine ⟨it', ?_, sameStatus.trans (by rw [isStart]), ending⟩
  rw [sought]
  exact scanned

/-- Every restart point is the offset of pieces that a scan may start at. -/
theorem exists_restart (laid : Laid source pieces) {index : Nat} (inside : index < source.numRestarts) :
    ∃ front back, pieces = front ++ back ∧ restartPoint source index = (layout front).length ∧
      Chained [] back ∧ (pieces ≠ [] → back ≠ []) := by
  obtain rfl | positive := Nat.eq_zero_or_pos index
  · exact ⟨[], pieces, rfl, laid.first, laid.chained, id⟩
  · obtain ⟨front, piece, back, isPieces, isPoint, nothing⟩ := laid.later index positive inside
    have chained := laid.chained
    rw [isPieces] at chained
    exact ⟨front, piece :: back, isPieces, isPoint, chained.append.restart nothing,
      fun _ => List.cons_ne_nil _ _⟩

/-! ### Where the calls go -/

/-- A longer front of the same pieces takes more bytes. -/
theorem layout_lt_iff {front back front' back' : List Piece} (same : front ++ back = front' ++ back') :
    (layout front).length < (layout front').length ↔ front.length < front'.length := by
  have longer : ∀ {front back front' back' : List Piece}, front ++ back = front' ++ back' →
      front.length ≤ front'.length → (layout front).length ≤ (layout front').length := by
    intro front back front' back' same shorter
    obtain ⟨middle, rfl⟩ := List.prefix_of_prefix_length_le (List.prefix_append front back)
      (same ▸ List.prefix_append front' back') shorter
    rw [layout_append, List.length_append]
    exact Nat.le_add_right _ _
  refine ⟨fun less => Nat.lt_of_not_le fun shorter =>
    absurd less (Nat.not_lt.mpr (longer same.symm shorter)), fun shorter => ?_⟩
  obtain ⟨middle, rfl⟩ := List.prefix_of_prefix_length_le (List.prefix_append front back)
    (same ▸ List.prefix_append front' back') shorter.le
  cases middle with
  | nil => rw [List.append_nil] at shorter; exact absurd shorter (lt_irrefl _)
  | cons piece middle => exact length_layout_lt front piece middle

/-- The iterator stands on the piece at a position, or is not valid. -/
def Stands (source : Source) (pieces : List Piece) (it : Iter) : Option Nat → Prop
  | none => ¬ it.Valid source
  | some index => ∃ front piece back, front.length = index ∧ it.On source pieces front piece back

theorem endsBefore_agrees (limit : Nat) (it : Iter) (front : List Piece) (piece : Piece)
    (back : List Piece) (on : On source pieces front piece back it) :
    endsBefore limit it = decide ((layout (front ++ [piece])).length < limit) := by
  rw [endsBefore, on.next]
  rfl

theorem seekToFirst_stands (laid : Laid source pieces) (it : Iter) :
    ∃ it', it.seekToFirst source = .ok it' ∧ it'.status = it.status ∧
      it'.Stands source pieces (if 0 < pieces.length then some 0 else none) := by
  obtain ⟨start, isStart⟩ : ∃ start : Iter, start = { it with
    key := [], restartIndex := 0, value := some (restartPoint source 0, 0) } := ⟨_, rfl⟩
  have called : it.seekToFirst source =
      (start.parseNextKey source).map Prod.snd := by
    simp only [seekToFirst, seekToRestartPoint, getRestartPoint, if_pos laid.hasRestart, isStart,
      bind, Except.bind, pure, Except.pure]
    cases parseNextKey source _ <;> rfl
  have before : start.Before source pieces [] pieces := by
    rw [isStart]
    exact ⟨rfl, congrArg some laid.first, laid.chained, laid.hasRestart⟩
  have sameStatus : start.status = it.status := by rw [isStart]
  have parsed := before.parseNextKey laid
  cases pieces with
  | nil => exact ⟨start.atEnd source, by rw [called, parsed]; rfl, sameStatus, not_valid_atEnd start⟩
  | cons piece rest =>
    obtain ⟨it', moved, on, status⟩ := parsed
    exact ⟨it', by rw [called, moved]; rfl, status.trans sameStatus, [], piece, rest, rfl, on⟩

theorem next_stands (laid : Laid source pieces) {it : Iter} {index : Nat}
    (stands : it.Stands source pieces (some index)) :
    ∃ it', it.next source = .ok it' ∧ it'.status = it.status ∧
      it'.Stands source pieces (if index + 1 < pieces.length then some (index + 1) else none) := by
  obtain ⟨front, piece, back, isIndex, on⟩ := stands
  have called : it.next source = (it.parseNextKey source).map Prod.snd := by
    rw [next]
    cases parseNextKey source it <;> rfl
  have parsed := (on.before laid).parseNextKey laid
  have count : pieces.length = index + (back.length + 1) := by
    rw [on.pieces, List.length_append, List.length_cons, isIndex]
  cases back with
  | nil =>
    refine ⟨it.atEnd source, by rw [called, parsed]; rfl, rfl, ?_⟩
    rw [if_neg (by rw [count]; exact lt_irrefl _)]
    exact not_valid_atEnd it
  | cons other rest =>
    obtain ⟨it', moved, onNext, status⟩ := parsed
    refine ⟨it', by rw [called, moved]; rfl, status, ?_⟩
    rw [if_pos (by rw [count, List.length_cons]; omega)]
    exact ⟨front ++ [piece], other, rest, by rw [List.length_append, isIndex]; rfl, onNext⟩

theorem seekToLast_stands (laid : Laid source pieces) (it : Iter) :
    ∃ it', it.seekToLast source = .ok it' ∧ it'.status = it.status ∧
      it'.Stands source pieces (if 0 < pieces.length then some (pieces.length - 1) else none) := by
  have inside : source.numRestarts - 1 < source.numRestarts := Nat.sub_one_lt_of_lt laid.hasRestart
  obtain ⟨front, back, isPieces, isPoint, nothing, nonempty⟩ := exists_restart laid inside
  obtain ⟨it', scanned, status, found | ⟨invalid, passed⟩⟩ := scan_layout laid it inside isPieces
    isPoint nothing (endsBefore_agrees source.restarts)
  · obtain ⟨skipped, piece, rest, rfl, on, stops, _⟩ := found
    have same : (front ++ skipped ++ [piece]) ++ rest = pieces ++ [] := by
      rw [isPieces, List.append_nil]
      simp only [List.append_assoc, List.singleton_append]
    have last : ¬ (front ++ skipped ++ [piece]).length < pieces.length := by
      rw [← layout_lt_iff same, ← laid.restarts]
      exact of_decide_eq_false stops
    have count := congrArg List.length isPieces
    simp only [List.length_append, List.length_cons, List.length_nil] at last count
    refine ⟨it', scanned, status, ?_⟩
    rw [if_pos (by omega)]
    exact ⟨front ++ skipped, piece, rest, by rw [List.length_append]; omega, on⟩
  · refine ⟨it', scanned, status, ?_⟩
    have empty : pieces = [] := by
      by_contra some
      obtain empty | ⟨skipped, last, rfl⟩ := List.eq_nil_or_concat' back
      · exact nonempty some empty
      · have ends := of_decide_eq_true (passed skipped last [] rfl)
        rw [laid.restarts, isPieces, ← List.append_assoc] at ends
        exact absurd ends (lt_irrefl _)
    rw [empty]
    exact invalid

theorem prev_stands (laid : Laid source pieces) {it : Iter} {index : Nat}
    (stands : it.Stands source pieces (some index)) :
    ∃ it', it.prev source = .ok it' ∧ it'.status = it.status ∧
      it'.Stands source pieces (if 0 < index then some (index - 1) else none) := by
  obtain ⟨front, piece, back, isIndex, on⟩ := stands
  obtain ⟨none, first⟩ | ⟨restart, inside, found, before⟩ :=
    restartBefore_spec it.current on.restart
  · refine ⟨it.atEnd source, by rw [prev, none]; rfl, rfl, ?_⟩
    have empty : front = [] := by
      rw [laid.first, on.current] at first
      have bound := length_le_layout front
      exact List.length_eq_zero_iff.mp (by omega)
    rw [← isIndex, empty, List.length_nil, if_neg (lt_irrefl _)]
    exact not_valid_atEnd it
  · obtain ⟨start, rest, isPieces, isPoint, nothing, _⟩ := exists_restart laid inside
    rw [isPoint, on.current] at before
    obtain ⟨it', scanned, status, stopped | ⟨invalid, passed⟩⟩ := scan_layout laid it inside isPieces
      isPoint nothing (endsBefore_agrees it.current)
    · obtain ⟨skipped, other, behind, rfl, onOther, stops, passed⟩ := stopped
      refine ⟨it', by rw [prev, found]; exact scanned, status, ?_⟩
      have same : (start ++ skipped ++ [other]) ++ behind = front ++ piece :: back := by
        rw [← on.pieces, isPieces]
        simp only [List.append_assoc, List.singleton_append]
      have sameShort : (start ++ skipped) ++ other :: behind = front ++ piece :: back := by
        rw [← same]
        simp only [List.append_assoc, List.singleton_append]
      have atLeast : ¬ (start ++ skipped ++ [other]).length < front.length := by
        rw [← layout_lt_iff same, ← on.current]
        exact of_decide_eq_false stops
      have atMost : (start ++ skipped).length < front.length := by
        rw [← layout_lt_iff sameShort]
        obtain rfl | ⟨passedPieces, last, rfl⟩ := List.eq_nil_or_concat' skipped
        · rw [List.append_nil]
          exact before
        · rw [← List.append_assoc, ← on.current]
          exact of_decide_eq_true (passed passedPieces last [] rfl)
      rw [List.length_append, List.length_singleton] at atLeast
      rw [if_pos (by omega)]
      exact ⟨start ++ skipped, other, behind, by omega, onOther⟩
    · have same : start ++ rest = front ++ piece :: back := by rw [← isPieces, on.pieces]
      have shorter := (layout_lt_iff same).mp before
      obtain ⟨middle, rfl⟩ := List.prefix_of_prefix_length_le (List.prefix_append start rest)
        (same ▸ List.prefix_append front (piece :: back)) shorter.le
      rw [List.append_assoc, List.append_cancel_left_eq] at same
      obtain rfl | ⟨between, last, rfl⟩ := List.eq_nil_or_concat' middle
      · rw [List.append_nil] at shorter
        exact absurd shorter (lt_irrefl _)
      · have ends := of_decide_eq_true (passed between last (piece :: back) (by
          rw [same, List.append_assoc, List.singleton_append]))
        rw [on.current, ← List.append_assoc] at ends
        exact absurd ends (lt_irrefl _)

variable {compare : Bytes → Bytes → Ordering}

/-- A restart point whose predecessors all lie below a target. -/
def Below (source : Source) (pieces : List Piece) (compare : Bytes → Bytes → Ordering)
    (target : Bytes) (index : Nat) : Prop :=
  ∃ front back, pieces = front ++ back ∧ restartPoint source index = (layout front).length ∧
    Chained [] back ∧ ∀ piece ∈ front, compare piece.key target = .lt

theorem below_zero (laid : Laid source pieces) (target : Bytes) :
    Below source pieces compare target 0 := ⟨[], pieces, rfl, laid.first, laid.chained, nofun⟩

/-- The binary search ends at a restart point that lies before the first key at or after the
target. -/
theorem binarySearch_below [Std.TransCmp compare] (laid : Laid source pieces)
    (increasing : pieces.Pairwise fun first second => compare first.key second.key = .lt)
    (target : Bytes) {rounds left right : Nat} {it : Iter} (ordered : left ≤ right)
    (inside : right < source.numRestarts) (enough : right < left + rounds)
    (below : Below source pieces compare target left) :
    ∃ found it', it.binarySearch source compare target rounds left right = .ok (some found, it') ∧
      it'.status = it.status ∧ found < source.numRestarts ∧
      Below source pieces compare target found := by
  induction rounds generalizing left right it with
  | zero => exact absurd enough (Nat.not_lt.mpr ordered)
  | succ rounds inductionHypothesis =>
    rw [binarySearch]
    by_cases more : left < right
    · have few := laid.few
      have noWrap : (left + right + 1) % 2 ^ 32 / 2 = (left + right + 1) / 2 := by
        rw [Nat.mod_eq_of_lt (by omega)]
      rw [if_pos more]
      dsimp only
      rw [noWrap]
      obtain ⟨mid, isMid⟩ : ∃ mid, mid = (left + right + 1) / 2 := ⟨_, rfl⟩
      have midInside : mid < source.numRestarts := by omega
      have previous : (mid + (2 ^ 32 - 1)) % 2 ^ 32 = mid - 1 := by omega
      obtain ⟨front, piece, back, isPieces, isPoint, nothing⟩ :=
        laid.later mid (by omega) midInside
      have member : piece ∈ pieces := by
        rw [isPieces]
        exact List.mem_append_right _ List.mem_cons_self
      have small : (piece.encode ++ layout back).length < 2 ^ 32 := by
        have bound := laid.small
        rw [laid.restarts, isPieces, layout_append, List.length_append, layout_cons] at bound
        omega
      have decoded : decodeEntry (entriesFrom source (restartPoint source mid)) =
          some ⟨0, piece.key.length, piece.value.length,
            piece.key ++ (piece.value ++ layout back)⟩ := by
        have read := decodeEntry_encode (laid.fits piece member)
          (nothing.le.trans (Nat.zero_le _)) small
        rw [nothing, List.drop_zero] at read
        rw [isPoint, entriesFrom_layout laid isPieces]
        exact read
      rw [← isMid, getRestartPoint, if_pos midInside]
      dsimp only [bind, Except.bind]
      rw [decoded]
      dsimp only
      rw [if_neg (not_not.mpr rfl), if_neg (by rw [List.length_append]; omega), List.take_left,
        previous]
      split
      · next less =>
        refine inductionHypothesis (by omega) inside (by omega)
          ⟨front, piece :: back, isPieces, isPoint, ?_, fun other isOther => ?_⟩
        · have chained := laid.chained
          rw [isPieces] at chained
          exact chained.append.restart nothing
        · rw [isPieces] at increasing
          exact Std.TransCmp.lt_trans
            ((List.pairwise_append.mp increasing).2.2 other isOther piece List.mem_cons_self) less
      · exact inductionHypothesis (by omega) (by omega) (by omega) below
    · rw [if_neg more]
      exact ⟨left, it, rfl, rfl, ordered.trans_lt inside, below⟩

/-- The first item that meets a condition is where a list splits. -/
theorem findIdx?_append_cons {Item : Type} {condition : Item → Bool} {before after : List Item}
    {item : Item} (misses : ∀ other ∈ before, condition other = false)
    (meets : condition item = true) :
    (before ++ item :: after).findIdx? condition = some before.length := by
  rw [List.findIdx?_append, List.findIdx?_eq_none_iff.mpr misses, Option.none_or,
    List.findIdx?_cons, if_pos meets, Option.map_some, Nat.zero_add]

theorem seek_stands [Std.TransCmp compare] (laid : Laid source pieces)
    (increasing : pieces.Pairwise fun first second => compare first.key second.key = .lt)
    (it : Iter) (target : Bytes) :
    ∃ it', it.seek source compare target = .ok it' ∧ it'.status = it.status ∧
      it'.Stands source pieces (pieces.findIdx? fun piece => compare piece.key target ≠ .lt) := by
  have enough : source.numRestarts - 1 < 0 + (source.numRestarts + 1) := by omega
  obtain ⟨left, middle, searched, sameStatus, inside, front, back, isPieces, isPoint, nothing,
      below⟩ : ∃ found it', it.binarySearch source compare target (source.numRestarts + 1) 0
        (source.numRestarts - 1) = .ok (some found, it') ∧ it'.status = it.status ∧
          found < source.numRestarts ∧ Below source pieces compare target found :=
    binarySearch_below laid increasing target (Nat.zero_le _) (Nat.sub_one_lt_of_lt laid.hasRestart)
      enough (below_zero laid target)
  have called : it.seek source compare target = (do
      let start ← middle.seekToRestartPoint source left
      start.parseWhile source (fun it => compare it.key target = .lt) (rounds source)) := by
    rw [seek, searched]
    rfl
  have agrees : ∀ (it : Iter) (front : List Piece) (piece : Piece) (back : List Piece),
      On source pieces front piece back it →
        decide (compare it.key target = .lt) = decide (compare piece.key target = .lt) :=
    fun it front piece back on => by rw [on.key]
  obtain ⟨it', scanned, status, found | ⟨invalid, passed⟩⟩ := scan_layout laid middle inside isPieces
    isPoint nothing agrees
  · obtain ⟨skipped, piece, rest, rfl, on, stops, passed⟩ := found
    have position : pieces.findIdx? (fun piece => decide (compare piece.key target ≠ .lt)) =
        some (front ++ skipped).length := by
      rw [isPieces, ← List.append_assoc]
      refine findIdx?_append_cons (fun other member => ?_) ?_
      · refine decide_eq_false (not_not.mpr ?_)
        obtain early | late := List.mem_append.mp member
        · exact below other early
        · obtain ⟨before, after, isSkipped⟩ := List.append_of_mem late
          exact of_decide_eq_true (passed before other after isSkipped)
      · exact decide_eq_true (of_decide_eq_false stops)
    refine ⟨it', called.trans scanned, status.trans sameStatus, ?_⟩
    rw [position]
    exact ⟨front ++ skipped, piece, rest, rfl, on⟩
  · have position : pieces.findIdx? (fun piece => decide (compare piece.key target ≠ .lt)) =
        none := by
      rw [List.findIdx?_eq_none_iff, isPieces]
      intro other member
      refine decide_eq_false (not_not.mpr ?_)
      obtain early | late := List.mem_append.mp member
      · exact below other early
      · obtain ⟨before, after, isBack⟩ := List.append_of_mem late
        exact of_decide_eq_true (passed before other after isBack)
    refine ⟨it', called.trans scanned, status.trans sameStatus, ?_⟩
    rw [position]
    exact invalid

theorem Stands.valid_iff (laid : Laid source pieces) {it : Iter} {position : Option Nat}
    (stands : it.Stands source pieces position) : it.Valid source ↔ position.isSome := by
  cases position with
  | none => exact iff_of_false stands Bool.false_ne_true
  | some index =>
    obtain ⟨_, _, _, _, on⟩ := stands
    exact iff_of_true (on.valid laid) rfl

theorem Stands.entry_eq (laid : Laid source pieces) {it : Iter} {position : Option Nat}
    (stands : it.Stands source pieces position) :
    it.entry source = position.bind fun index => (pieces.map Piece.binding)[index]? := by
  cases position with
  | none => exact if_neg stands
  | some index =>
    obtain ⟨front, piece, back, rfl, on⟩ := stands
    rw [entry, if_pos (on.valid laid), on.key, on.value, Option.bind_some, on.pieces,
      List.getElem?_map, List.getElem?_append_right (le_refl _), Nat.sub_self]
    rfl

end Iter

/-! ### A cursor over a list of entries -/

/-- One call on a cursor over a list: the position it goes to. `Next` and `Prev` are refused when
it is at none. -/
def listCall (compare : Bytes → Bytes → Ordering) (entries : List (Bytes × Bytes))
    (position : Option Nat) : CursorCall Bytes → Option (Option Nat)
  | .seek target => some (entries.findIdx? fun entry => compare entry.1 target ≠ .lt)
  | .seekToFirst => some (if 0 < entries.length then some 0 else none)
  | .seekToLast => some (if 0 < entries.length then some (entries.length - 1) else none)
  | .next => position.map fun index => if index + 1 < entries.length then some (index + 1) else none
  | .prev => position.map fun index => if 0 < index then some (index - 1) else none

namespace Iter

variable {source : Source} {pieces : List Piece} {compare : Bytes → Bytes → Ordering}

/-- Every call takes the iterator where the cursor over the entries goes. -/
theorem Stands.call [Std.TransCmp compare] (laid : Laid source pieces)
    (increasing : pieces.Pairwise fun first second => compare first.key second.key = .lt)
    {it : Iter} {position : Option Nat} (stands : it.Stands source pieces position)
    {request : CursorCall Bytes} {next : Option Nat}
    (answered : listCall compare (pieces.map Piece.binding) position request = some next) :
    ∃ it', it.call source compare request = some (.ok it') ∧ it'.status = it.status ∧
      it'.Stands source pieces next := by
  obtain ⟨start, isStart⟩ : ∃ start, start = { it with decoded := [] } := ⟨_, rfl⟩
  have startStands : ∀ index, position = some index → start.Stands source pieces (some index) := by
    rintro index rfl
    obtain ⟨front, piece, back, isIndex, on⟩ := stands
    rw [isStart]
    exact ⟨front, piece, back, isIndex, on.pieces, on.current, on.key, on.value, on.next, on.restart⟩
  have sameStatus : start.status = it.status := by rw [isStart]
  have length : (pieces.map Piece.binding).length = pieces.length := List.length_map _
  cases request with
  | seek target =>
    obtain rfl := Option.some.inj answered
    obtain ⟨it', called, status, moved⟩ := seek_stands laid increasing start target
    rw [List.findIdx?_map]
    exact ⟨it', by rw [← called, isStart]; rfl, status.trans sameStatus, moved⟩
  | seekToFirst =>
    obtain rfl := Option.some.inj answered
    obtain ⟨it', called, status, moved⟩ := seekToFirst_stands laid start
    rw [length]
    exact ⟨it', by rw [← called, isStart]; rfl, status.trans sameStatus, moved⟩
  | seekToLast =>
    obtain rfl := Option.some.inj answered
    obtain ⟨it', called, status, moved⟩ := seekToLast_stands laid start
    rw [length]
    exact ⟨it', by rw [← called, isStart]; rfl, status.trans sameStatus, moved⟩
  | next =>
    obtain ⟨index, isIndex, rfl⟩ := Option.map_eq_some_iff.mp answered
    obtain ⟨it', called, status, moved⟩ := next_stands laid (startStands index isIndex)
    have valid : it.Valid source := (stands.valid_iff laid).mpr (by rw [isIndex]; rfl)
    rw [length]
    refine ⟨it', ?_, status.trans sameStatus, moved⟩
    rw [← called, isStart]
    exact if_pos valid
  | prev =>
    obtain ⟨index, isIndex, rfl⟩ := Option.map_eq_some_iff.mp answered
    obtain ⟨it', called, status, moved⟩ := prev_stands laid (startStands index isIndex)
    have valid : it.Valid source := (stands.valid_iff laid).mpr (by rw [isIndex]; rfl)
    refine ⟨it', ?_, status.trans sameStatus, moved⟩
    rw [← called, isStart]
    exact if_pos valid

theorem Stands.call_none {it : Iter} {position : Option Nat}
    (stands : it.Stands source pieces position) {request : CursorCall Bytes}
    (refused : listCall compare (pieces.map Piece.binding) position request = none) :
    it.call source compare request = none := by
  cases request with
  | seek target => cases refused
  | seekToFirst => cases refused
  | seekToLast => cases refused
  | next =>
    obtain rfl := Option.map_eq_none_iff.mp refused
    exact if_neg stands
  | prev =>
    obtain rfl := Option.map_eq_none_iff.mp refused
    exact if_neg stands

/-- A run of calls takes the iterator where the cursor over the entries goes, and is refused where
that is. -/
theorem Stands.calls [Std.TransCmp compare] (laid : Laid source pieces)
    (increasing : pieces.Pairwise fun first second => compare first.key second.key = .lt)
    {it : Iter} {position : Option Nat} (stands : it.Stands source pieces position)
    (requests : List (CursorCall Bytes)) :
    match requests.foldlM (listCall compare (pieces.map Piece.binding)) position with
    | none => it.calls source compare requests = none
    | some last => ∃ it', it.calls source compare requests = some (.ok it') ∧
        it'.status = it.status ∧ it'.Stands source pieces last := by
  induction requests generalizing it position with
  | nil => exact ⟨it, rfl, rfl, stands⟩
  | cons first rest inductionHypothesis =>
    rw [List.foldlM_cons]
    cases answered : listCall compare (pieces.map Piece.binding) position first with
    | none =>
      show it.calls source compare (first :: rest) = none
      rw [Iter.calls, stands.call_none answered]
    | some next =>
      obtain ⟨it', called, status, moved⟩ := stands.call laid increasing answered
      have tail := inductionHypothesis moved
      rw [Iter.calls, called]
      dsimp only [bind, Option.bind]
      split at tail
      · exact tail
      · next last reached =>
        obtain ⟨it'', ended, lastStatus, lastStands⟩ := tail
        exact ⟨it'', ended, lastStatus.trans status, lastStands⟩

end Iter

/-! ### The round trip -/

/-- The contents of the block that `BlockBuilder` makes of entries. -/
def BlockBuilder.build (interval : Nat) (entries : List (Bytes × Bytes)) : Bytes :=
  (addAll (entries.map fun entry => (interval, entry))).finish

/-- The iterators that a run of calls leads to. -/
def Iter.Reached (source : Source) (compare : Bytes → Bytes → Ordering) (it : Iter) : Prop :=
  ∃ requests, (Iter.new source).calls source compare requests = some (.ok it)

/-- The iterators over a block give back a list of entries. -/
structure RoundTrips (source : Source) (compare : Bytes → Bytes → Ordering)
    (entries : List (Bytes × Bytes)) : Prop where
  returns : ∀ requests result, (Iter.new source).calls source compare requests = some result →
    ∃ it, result = .ok it ∧ it.status = none
  forward : ∀ it : Iter, it.Reached source compare → ∀ count ≤ entries.length,
    ∃ it' : Iter, it.calls source compare (.seekToFirst :: List.replicate count .next) = some (.ok it') ∧
      it'.entry source = entries[count]?
  backward : ∀ it : Iter, it.Reached source compare → ∀ count ≤ entries.length,
    ∃ it' : Iter, it.calls source compare (.seekToLast :: List.replicate count .prev) = some (.ok it') ∧
      it'.entry source = entries.reverse[count]?
  seek : ∀ it : Iter, it.Reached source compare → ∀ target,
    ∃ it' : Iter, it.call source compare (.seek target) = some (.ok it') ∧
      it'.entry source = entries.find? fun entry => compare entry.1 target ≠ .lt
  prev_next : ∀ it : Iter, it.Reached source compare → ∀ it' : Iter,
    it.call source compare .next = some (.ok it') → it'.Valid source →
      ∃ it'' : Iter, it'.call source compare .prev = some (.ok it'') ∧ it''.entry source = it.entry source
  next_prev : ∀ it : Iter, it.Reached source compare → ∀ it' : Iter,
    it.call source compare .prev = some (.ok it') → it'.Valid source →
      ∃ it'' : Iter, it'.call source compare .next = some (.ok it'') ∧ it''.entry source = it.entry source

namespace Iter

variable {source : Source} {pieces : List Piece} {compare : Bytes → Bytes → Ordering}

theorem new_stands (source : Source) (pieces : List Piece) :
    (Iter.new source).Stands source pieces none := lt_irrefl source.restarts

/-- What a run of calls leads to stands at a position of the list. -/
theorem Reached.stands [Std.TransCmp compare] (laid : Laid source pieces)
    (increasing : pieces.Pairwise fun first second => compare first.key second.key = .lt)
    {it : Iter} (reached : it.Reached source compare) :
    ∃ position, it.Stands source pieces position := by
  obtain ⟨requests, called⟩ := reached
  have run := (new_stands source pieces).calls laid increasing requests
  split at run
  · rw [run] at called
    cases called
  · next last _ =>
    obtain ⟨it', ended, _, stands⟩ := run
    obtain rfl := Except.ok.inj (Option.some.inj (ended.symm.trans called))
    exact ⟨last, stands⟩

/-- A call that returned took the iterator where the cursor goes. -/
theorem Stands.moved [Std.TransCmp compare] (laid : Laid source pieces)
    (increasing : pieces.Pairwise fun first second => compare first.key second.key = .lt)
    {it it' : Iter} {position : Option Nat} (stands : it.Stands source pieces position)
    {request : CursorCall Bytes} (called : it.call source compare request = some (.ok it')) :
    ∃ next, listCall compare (pieces.map Piece.binding) position request = some next ∧
      it'.Stands source pieces next := by
  cases answered : listCall compare (pieces.map Piece.binding) position request with
  | none =>
    rw [stands.call_none answered] at called
    cases called
  | some next =>
    obtain ⟨last, returned, _, moved⟩ := stands.call laid increasing answered
    obtain rfl := Except.ok.inj (Option.some.inj (returned.symm.trans called))
    exact ⟨next, rfl, moved⟩

theorem foldlM_next (entries : List (Bytes × Bytes)) (position : Option Nat) {count : Nat}
    (atMost : count ≤ entries.length) :
    (.seekToFirst :: List.replicate count .next).foldlM (listCall compare entries) position =
      some (if count < entries.length then some count else none) := by
  induction count with
  | zero => rfl
  | succ count inductionHypothesis =>
    rw [List.replicate_succ', ← List.cons_append, List.foldlM_append,
      inductionHypothesis (Nat.le_of_succ_le atMost), if_pos (show count < entries.length from atMost)]
    rfl

theorem foldlM_prev (entries : List (Bytes × Bytes)) (position : Option Nat) {count : Nat}
    (atMost : count ≤ entries.length) :
    (.seekToLast :: List.replicate count .prev).foldlM (listCall compare entries) position =
      some (if count < entries.length then some (entries.length - 1 - count) else none) := by
  induction count with
  | zero => rfl
  | succ count inductionHypothesis =>
    rw [List.replicate_succ', ← List.cons_append, List.foldlM_append,
      inductionHypothesis (Nat.le_of_succ_le atMost), if_pos (show count < entries.length from atMost)]
    show some (if 0 < entries.length - 1 - count then some (entries.length - 1 - count - 1)
      else none) = _
    rw [Nat.sub_sub _ count 1]
    refine congrArg some (if_congr ?_ rfl rfl)
    omega

end Iter

/-- The bytes of a finished block, opened again, give back the entries. -/
theorem Laid.roundTrips {source : Source} {pieces : List Piece} (laid : Laid source pieces)
    {compare : Bytes → Bytes → Ordering} [Std.TransCmp compare]
    (increasing : pieces.Pairwise fun first second => compare first.key second.key = .lt) :
    RoundTrips source compare (pieces.map Piece.binding) := by
  have follow : ∀ {it : Iter} {position last : Option Nat} {requests : List (CursorCall Bytes)},
      it.Stands source pieces position →
      requests.foldlM (listCall compare (pieces.map Piece.binding)) position = some last →
      ∃ it', it.calls source compare requests = some (.ok it') ∧ it'.Stands source pieces last := by
    intro it position last requests stands reached
    have run := stands.calls laid increasing requests
    rw [reached] at run
    obtain ⟨it', ended, _, moved⟩ := run
    exact ⟨it', ended, moved⟩
  refine ⟨?_, ?_, ?_, ?_, ?_, ?_⟩
  · intro requests result called
    have run := (Iter.new_stands source pieces).calls laid increasing requests
    split at run
    · rw [run] at called
      cases called
    · obtain ⟨it, ended, status, _⟩ := run
      exact ⟨it, Option.some.inj (called.symm.trans ended), status⟩
  · intro it reached count atMost
    obtain ⟨position, stands⟩ := reached.stands laid increasing
    obtain ⟨it', ended, moved⟩ := follow stands (Iter.foldlM_next _ position atMost)
    refine ⟨it', ended, ?_⟩
    rw [moved.entry_eq laid]
    split
    · rfl
    · next beyond => exact (List.getElem?_eq_none (Nat.not_lt.mp beyond)).symm
  · intro it reached count atMost
    obtain ⟨position, stands⟩ := reached.stands laid increasing
    obtain ⟨it', ended, moved⟩ := follow stands (Iter.foldlM_prev _ position atMost)
    refine ⟨it', ended, ?_⟩
    rw [moved.entry_eq laid]
    split
    · next inside => exact (List.getElem?_reverse inside).symm
    · next beyond =>
      refine (List.getElem?_eq_none ?_).symm
      rw [List.length_reverse]
      exact Nat.not_lt.mp beyond
  · intro it reached target
    obtain ⟨position, stands⟩ := reached.stands laid increasing
    obtain ⟨it', called, _, moved⟩ := @Iter.Stands.call _ _ _ _ laid increasing it position stands
      (.seek target) _ rfl
    refine ⟨it', called, ?_⟩
    rw [moved.entry_eq laid, List.find?_eq_bind_findIdx?_getElem?]
  · intro it reached it' called valid
    obtain ⟨position, stands⟩ := reached.stands laid increasing
    obtain ⟨next, answered, moved⟩ := stands.moved laid increasing called
    obtain ⟨index, rfl, rfl⟩ := Option.map_eq_some_iff.mp answered
    have inside : index + 1 < (pieces.map Piece.binding).length := by
      by_contra last
      rw [if_neg last] at moved
      exact moved valid
    rw [if_pos inside] at moved
    obtain ⟨it'', back, _, landed⟩ := moved.call laid increasing
      (show listCall compare _ (some (index + 1)) .prev = some (some index) from rfl)
    exact ⟨it'', back, by rw [landed.entry_eq laid, stands.entry_eq laid]⟩
  · intro it reached it' called valid
    obtain ⟨position, stands⟩ := reached.stands laid increasing
    obtain ⟨next, answered, moved⟩ := stands.moved laid increasing called
    obtain ⟨index, rfl, rfl⟩ := Option.map_eq_some_iff.mp answered
    have later : 0 < index := by
      by_contra first
      rw [if_neg first] at moved
      exact moved valid
    rw [if_pos later] at moved
    obtain ⟨previous, rfl⟩ := Nat.exists_eq_add_one.mpr later
    have inside : previous + 1 < (pieces.map Piece.binding).length := by
      obtain ⟨front, piece, back, isIndex, on⟩ := stands
      rw [List.length_map, on.pieces, List.length_append, List.length_cons]
      omega
    obtain ⟨it'', forth, _, landed⟩ := moved.call laid increasing
      (show listCall compare (pieces.map Piece.binding) (some previous) .next =
        some (some (previous + 1)) from congrArg some (if_pos inside))
    exact ⟨it'', forth, by rw [landed.entry_eq laid, stands.entry_eq laid]⟩

/-- A block that was built of increasing entries and opened gives them back. -/
theorem block_round_trip {compare : Bytes → Bytes → Ordering} [Std.TransCmp compare]
    (interval : Nat) {entries : List (Bytes × Bytes)}
    (increasing : entries.Pairwise fun first second => compare first.1 second.1 = .lt)
    (small : (BlockBuilder.build interval entries).length < 2 ^ 32) :
    ∃ source, (Block.new (BlockBuilder.build interval entries)).newIterator = .over source ∧
      RoundTrips source compare entries := by
  obtain ⟨pieces, bindings, holds⟩ :=
    BlockBuilder.addAll_holds (entries.map fun entry => (interval, entry))
  rw [List.map_map] at bindings
  have isEntries : pieces.map Piece.binding = entries := bindings.trans (List.map_id entries)
  obtain ⟨source, opened, laid⟩ := holds.finish_laid small
  rw [← isEntries, List.pairwise_map] at increasing
  exact ⟨source, opened, isEntries ▸ laid.roundTrips increasing⟩

/-- An empty key, shared prefixes and a restart in between, in bytewise order. -/
theorem block_round_trip_small :
    ∃ source, (Block.new (BlockBuilder.build 2
        [([], [1]), ([7], []), ([7, 1], [2, 2]), ([7, 2], [3])])).newIterator = .over source ∧
      RoundTrips source Ord.compare [([], [1]), ([7], []), ([7, 1], [2, 2]), ([7, 2], [3])] :=
  block_round_trip 2 (by decide) (by decide)

end LevelDb.Sst
