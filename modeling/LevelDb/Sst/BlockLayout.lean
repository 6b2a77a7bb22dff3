/-
This file describes the blocks that `BlockBuilder` writes. The entries of a block are a list of
pieces, each with the number of bytes its key shares with the key before it; a restart point is the
offset of a piece that shares nothing. What the builder writes is laid out so, whatever the restart
intervals are, and the layout is what `Block` finds when it opens the bytes.
-/

import LevelDb.Sst.BlockSafety

namespace LevelDb.Sst

/-! ### Pieces -/

/-- An entry as it is stored: the length it shares with the key before it, its key and its value. -/
structure Piece where
  shared : Nat
  key : Bytes
  value : Bytes
  deriving DecidableEq, Repr

/-- The bytes of a piece. -/
def Piece.encode (piece : Piece) : Bytes :=
  BlockBuilder.entryBytes piece.shared piece.key piece.value

/-- The binding that a piece stores. -/
def Piece.binding (piece : Piece) : Bytes × Bytes := (piece.key, piece.value)

/-- The bytes of pieces, one after the other. -/
def layout (pieces : List Piece) : Bytes := pieces.flatMap Piece.encode

/-- Each piece shares what it says with the key before it. -/
def Chained : Bytes → List Piece → Prop
  | _, [] => True
  | last, piece :: rest =>
    piece.shared ≤ last.length ∧ last.take piece.shared = piece.key.take piece.shared ∧
      Chained piece.key rest

/-- The lengths of a piece fit their prefixes. -/
structure Piece.Fits (piece : Piece) : Prop where
  key : piece.key.length < 2 ^ 32
  value : piece.value.length < 2 ^ 32

@[simp] theorem layout_nil : layout [] = [] := rfl

@[simp] theorem layout_cons (piece : Piece) (rest : List Piece) :
    layout (piece :: rest) = piece.encode ++ layout rest := rfl

@[simp] theorem layout_append (front back : List Piece) :
    layout (front ++ back) = layout front ++ layout back := List.flatMap_append

theorem Chained.append {last : Bytes} {front back : List Piece} (chained : Chained last (front ++ back)) :
    Chained ((front.getLast?.map Piece.key).getD last) back := by
  induction front generalizing last with
  | nil => exact chained
  | cons piece rest inductionHypothesis =>
    have tail := inductionHypothesis chained.2.2
    cases rest with
    | nil => exact tail
    | cons next rest =>
      rw [List.getLast?_cons_cons]
      obtain ⟨final, isLast⟩ : ∃ final, (next :: rest).getLast? = some final :=
        ⟨_, List.getLast?_eq_some_getLast (List.cons_ne_nil _ _)⟩
      rw [isLast] at tail ⊢
      exact tail

/-- A piece that shares nothing may follow any key. -/
theorem Chained.restart {last : Bytes} {piece : Piece} {rest : List Piece}
    (chained : Chained last (piece :: rest)) (nothing : piece.shared = 0) :
    Chained [] (piece :: rest) := by
  refine ⟨nothing.le, ?_, chained.2.2⟩
  rw [nothing, List.take_zero, List.take_zero]

theorem Chained.snoc {last : Bytes} {pieces : List Piece} {piece : Piece}
    (chained : Chained last pieces)
    (shares : piece.shared ≤ ((pieces.getLast?.map Piece.key).getD last).length)
    (same : ((pieces.getLast?.map Piece.key).getD last).take piece.shared =
      piece.key.take piece.shared) : Chained last (pieces ++ [piece]) := by
  induction pieces generalizing last with
  | nil => exact ⟨shares, same, trivial⟩
  | cons first rest inductionHypothesis =>
    refine ⟨chained.1, chained.2.1, inductionHypothesis chained.2.2 ?_ ?_⟩
    · cases rest with
      | nil => exact shares
      | cons next rest =>
        rw [List.getLast?_cons_cons] at shares
        obtain ⟨final, isLast⟩ : ∃ final, (next :: rest).getLast? = some final :=
          ⟨_, List.getLast?_eq_some_getLast (List.cons_ne_nil _ _)⟩
        rw [isLast] at shares ⊢
        exact shares
    · cases rest with
      | nil => exact same
      | cons next rest =>
        rw [List.getLast?_cons_cons] at same
        obtain ⟨final, isLast⟩ : ∃ final, (next :: rest).getLast? = some final :=
          ⟨_, List.getLast?_eq_some_getLast (List.cons_ne_nil _ _)⟩
        rw [isLast] at same ⊢
        exact same

/-- A key is made of what it shares and what it adds. -/
theorem Chained.key_eq {last : Bytes} {piece : Piece} {rest : List Piece}
    (chained : Chained last (piece :: rest)) :
    last.take piece.shared ++ piece.key.drop piece.shared = piece.key := by
  rw [chained.2.1, List.take_append_drop]

theorem Chained.shared_le {last : Bytes} {piece : Piece} {rest : List Piece}
    (chained : Chained last (piece :: rest)) : piece.shared ≤ piece.key.length := by
  have lengths := congrArg List.length chained.2.1
  rw [List.length_take, List.length_take, min_eq_left chained.1] at lengths
  exact lengths.trans_le (min_le_right _ _)

/-! ### Reading a piece -/

theorem readHeader_encode {piece : Piece} (fits : piece.Fits)
    (within : piece.shared ≤ piece.key.length) (rest : Bytes) :
    readHeader (piece.encode ++ rest) =
      some ⟨piece.shared, piece.key.length - piece.shared, piece.value.length,
        piece.key.drop piece.shared ++ (piece.value ++ rest)⟩ := by
  have shared := within.trans_lt fits.key
  have nonShared := (Nat.sub_le piece.key.length piece.shared).trans_lt fits.key
  rw [Piece.encode, BlockBuilder.entryBytes, Nat.mod_eq_of_lt shared, Nat.mod_eq_of_lt nonShared,
    Nat.mod_eq_of_lt fits.value, List.append_assoc, List.append_assoc, List.append_assoc,
    List.append_assoc, readHeader, getVarint32_encodeVarint32 shared]
  dsimp only
  rw [getVarint32_encodeVarint32 nonShared]
  dsimp only
  rw [getVarint32_encodeVarint32 fits.value]

/-- `DecodeEntry` reads a piece back where the block is small enough for 32 bits. -/
theorem decodeEntry_encode {piece : Piece} (fits : piece.Fits)
    (within : piece.shared ≤ piece.key.length) {rest : Bytes}
    (small : (piece.encode ++ rest).length < 2 ^ 32) :
    decodeEntry (piece.encode ++ rest) =
      some ⟨piece.shared, piece.key.length - piece.shared, piece.value.length,
        piece.key.drop piece.shared ++ (piece.value ++ rest)⟩ := by
  have reads := readHeader_encode fits within rest
  have room : (piece.key.drop piece.shared ++ (piece.value ++ rest)).length < 2 ^ 32 :=
    (Nat.le_of_add_right_le (length_readHeader reads)).trans_lt small
  have fitsDelta : piece.key.length - piece.shared + piece.value.length ≤
      (piece.key.drop piece.shared ++ (piece.value ++ rest)).length := by
    rw [List.length_append, List.length_append, List.length_drop]
    omega
  rw [decodeEntry, decodeHeader_eq, reads]
  dsimp only
  rw [Nat.mod_eq_of_lt room, Nat.mod_eq_of_lt (fitsDelta.trans_lt room),
    if_neg (Nat.not_lt.mpr fitsDelta)]

theorem length_encode_pos (piece : Piece) : 0 < piece.encode.length := by
  have first : 0 < (encodeVarint32 (piece.shared % 2 ^ 32)).length := by
    rw [encodeVarint32]
    split_ifs <;> exact Nat.succ_pos _
  rw [Piece.encode, BlockBuilder.entryBytes, List.length_append]
  exact Nat.add_pos_left first _

/-! ### What the builder keeps true -/

namespace BlockBuilder

@[simp] theorem sharedLength_nil (key : Bytes) : sharedLength [] key = 0 := by
  cases key <;> rfl

theorem sharedLength_le (last key : Bytes) : sharedLength last key ≤ last.length := by
  induction last generalizing key with
  | nil => exact (sharedLength_nil key).le
  | cons byte lastRest inductionHypothesis =>
    cases key with
    | nil => exact Nat.zero_le _
    | cons other rest =>
      rw [sharedLength]
      split
      · exact Nat.succ_le_succ (inductionHypothesis rest)
      · exact Nat.zero_le _

theorem take_sharedLength (last key : Bytes) :
    last.take (sharedLength last key) = key.take (sharedLength last key) := by
  induction last generalizing key with
  | nil => rw [sharedLength_nil, List.take_zero, List.take_zero]
  | cons byte lastRest inductionHypothesis =>
    cases key with
    | nil => rfl
    | cons other rest =>
      rw [sharedLength]
      split
      · next same => rw [List.take_succ_cons, List.take_succ_cons, same, inductionHypothesis]
      · rfl

/-- The builder has written pieces: its buffer is their layout, and every restart point but the
first is the offset of a piece that shares nothing. -/
structure Holds (builder : BlockBuilder) (pieces : List Piece) : Prop where
  buffer : builder.buffer = layout pieces
  lastKey : builder.lastKey = (pieces.getLast?.map Piece.key).getD []
  chained : Chained [] pieces
  restarts : ∃ more, builder.restarts = 0 :: more ∧ ∀ offset ∈ more, ∃ front piece back,
    pieces = front ++ piece :: back ∧ offset = (layout front).length % 2 ^ 32 ∧ piece.shared = 0

theorem Holds.new : Holds new [] := ⟨rfl, rfl, trivial, [], rfl, nofun⟩

theorem Holds.add {builder : BlockBuilder} {pieces : List Piece} (holds : builder.Holds pieces)
    (interval : Nat) (key value : Bytes) :
    ∃ piece : Piece, piece.binding = (key, value) ∧
      (builder.add interval key value).Holds (pieces ++ [piece]) := by
  obtain ⟨more, isMore, points⟩ := holds.restarts
  have later : ∀ {piece : Piece}, ∀ offset ∈ more, ∃ front other back,
      pieces ++ [piece] = front ++ other :: back ∧
        offset = (layout front).length % 2 ^ 32 ∧ other.shared = 0 := by
    intro piece offset member
    obtain ⟨front, other, back, rfl, isOffset, nothing⟩ := points offset member
    exact ⟨front, other, back ++ [piece], by rw [List.append_assoc, List.cons_append], isOffset,
      nothing⟩
  have lastKey : ∀ {piece : Piece}, piece.key = key →
      key = (((pieces ++ [piece]).getLast?).map Piece.key).getD [] := by
    intro piece isKey
    rw [List.getLast?_append, List.getLast?_singleton]
    exact isKey.symm
  rw [BlockBuilder.add]
  split
  · refine ⟨⟨sharedLength builder.lastKey key, key, value⟩, rfl, ⟨?_, lastKey rfl, ?_, more, isMore,
      later⟩⟩
    · rw [layout_append, ← holds.buffer, layout_cons, layout_nil, List.append_nil]
      rfl
    · refine holds.chained.snoc ?_ ?_
      · rw [← holds.lastKey]
        exact sharedLength_le _ _
      · rw [← holds.lastKey]
        exact take_sharedLength _ _
  · refine ⟨⟨0, key, value⟩, rfl, ⟨?_, lastKey rfl, ?_, more ++ [builder.buffer.length % 2 ^ 32],
      by rw [isMore, List.cons_append], ?_⟩⟩
    · rw [layout_append, ← holds.buffer, layout_cons, layout_nil, List.append_nil]
      rfl
    · exact holds.chained.snoc (Nat.zero_le _) rfl
    · intro offset member
      obtain old | rfl := List.mem_append.mp member |>.imp_right List.mem_singleton.mp
      · exact later offset old
      · exact ⟨pieces, ⟨0, key, value⟩, [], rfl, by rw [holds.buffer], rfl⟩

/-- The builder after entries were added, each with the interval the options had then. -/
def addAll (adds : List (Nat × Bytes × Bytes)) : BlockBuilder :=
  adds.foldl (fun builder entry => builder.add entry.1 entry.2.1 entry.2.2) new

theorem addAll_holds (adds : List (Nat × Bytes × Bytes)) :
    ∃ pieces : List Piece, pieces.map Piece.binding = adds.map Prod.snd ∧
      (addAll adds).Holds pieces := by
  induction adds using List.reverseRecOn with
  | nil => exact ⟨[], rfl, Holds.new⟩
  | append_singleton front entry inductionHypothesis =>
    obtain ⟨pieces, bindings, holds⟩ := inductionHypothesis
    obtain ⟨piece, isPiece, added⟩ := holds.add entry.1 entry.2.1 entry.2.2
    refine ⟨pieces ++ [piece], ?_, ?_⟩
    · rw [List.map_append, List.map_append, bindings, List.map_singleton, List.map_singleton,
        isPiece]
    · rw [addAll, List.foldl_append]
      exact added

end BlockBuilder

/-! ### The layout of a source -/

/-- The entries of a source are pieces, and its restart points are offsets of pieces that share
nothing. -/
structure Laid (source : Source) (pieces : List Piece) : Prop where
  entries : source.data.take source.restarts = layout pieces
  restarts : source.restarts = (layout pieces).length
  small : source.restarts < 2 ^ 32
  hasRestart : 0 < source.numRestarts
  few : source.numRestarts ≤ 2 ^ 31
  chained : Chained [] pieces
  fits : ∀ piece ∈ pieces, piece.Fits
  first : Iter.restartPoint source 0 = 0
  later : ∀ index, 0 < index → index < source.numRestarts → ∃ front piece back,
    pieces = front ++ piece :: back ∧ Iter.restartPoint source index = (layout front).length ∧
      piece.shared = 0

theorem length_binding_le_encode (piece : Piece) :
    piece.key.length - piece.shared + piece.value.length ≤ piece.encode.length := by
  rw [Piece.encode, BlockBuilder.entryBytes]
  simp only [List.length_append, List.length_drop]
  omega

/-- Keys are no longer than the bytes they are made of. -/
theorem Chained.length_key_le {last : Bytes} {pieces : List Piece} (chained : Chained last pieces)
    {piece : Piece} (member : piece ∈ pieces) :
    piece.key.length ≤ last.length + (layout pieces).length := by
  induction pieces generalizing last with
  | nil => cases member
  | cons first rest inductionHypothesis =>
    have shares := chained.1
    have bound := length_binding_le_encode first
    rw [layout_cons, List.length_append]
    obtain rfl | tail := List.mem_cons.mp member
    · omega
    · have tailBound := inductionHypothesis chained.2.2 tail
      omega

theorem length_value_le {pieces : List Piece} {piece : Piece} (member : piece ∈ pieces) :
    piece.value.length ≤ (layout pieces).length := by
  induction pieces with
  | nil => cases member
  | cons first rest inductionHypothesis =>
    have bound := length_binding_le_encode first
    rw [layout_cons, List.length_append]
    obtain rfl | tail := List.mem_cons.mp member
    · omega
    · exact (inductionHypothesis tail).trans (Nat.le_add_left _ _)

theorem length_flatMap_encodeFixed32 (values : List Nat) :
    (values.flatMap encodeFixed32).length = values.length * 4 := by
  induction values with
  | nil => rfl
  | cons value rest inductionHypothesis =>
    rw [List.flatMap_cons, List.length_append, length_encodeFixed32, inductionHypothesis,
      List.length_cons]
    ring

/-- The number at an index of an array of `fixed32`. -/
theorem decodeFixed32_flatMap {values : List Nat} {index value : Nat}
    (found : values[index]? = some value) (fits : value < 2 ^ 32) (rest : Bytes) :
    decodeFixed32 ((values.flatMap encodeFixed32 ++ rest).drop (index * 4)) = value := by
  induction values generalizing index with
  | nil => cases found
  | cons first values inductionHypothesis =>
    rw [List.flatMap_cons, List.append_assoc]
    cases index with
    | zero =>
      obtain rfl := Option.some.inj found
      rw [Nat.zero_mul, List.drop_zero, decodeFixed32_encodeFixed32 fits]
    | succ index =>
      rw [Nat.succ_mul, Nat.add_comm, ← List.drop_drop,
        List.drop_left' (length_encodeFixed32 first)]
      exact inductionHypothesis found

namespace BlockBuilder

variable {builder : BlockBuilder} {pieces : List Piece}

theorem length_finish (builder : BlockBuilder) : builder.finish.length =
    builder.buffer.length + (builder.restarts.length * 4 + 4) := by
  rw [finish, List.length_append, List.length_append, length_flatMap_encodeFixed32,
    length_encodeFixed32]

theorem numRestarts_finish (small : builder.finish.length < 2 ^ 32) :
    Block.numRestarts builder.finish = builder.restarts.length := by
  have size := builder.length_finish
  have few : builder.restarts.length < 2 ^ 32 := by omega
  have front : builder.finish.length - 4 =
      (builder.buffer ++ builder.restarts.flatMap encodeFixed32).length := by
    rw [List.length_append, length_flatMap_encodeFixed32]
    omega
  have last := decodeFixed32_encodeFixed32 few []
  rw [List.append_nil] at last
  rw [Block.numRestarts, front, finish, ← List.append_assoc, List.drop_left,
    Nat.mod_eq_of_lt few, last]

/-- `Block` finds the layout in the bytes of a finished builder. -/
theorem Holds.finish_laid (holds : builder.Holds pieces)
    (small : builder.finish.length < 2 ^ 32) :
    ∃ source, (Block.new builder.finish).newIterator = .over source ∧ Laid source pieces := by
  have size := builder.length_finish
  obtain ⟨more, isMore, points⟩ := holds.restarts
  have count := numRestarts_finish small
  have restartsSome : 0 < builder.restarts.length := by rw [isMore]; exact Nat.succ_pos _
  have length : builder.buffer.length = (layout pieces).length := congrArg _ holds.buffer
  obtain ⟨source, isSource⟩ : ∃ source : Source,
      source = ⟨builder.finish, builder.buffer.length, builder.restarts.length⟩ := ⟨_, rfl⟩
  have point : ∀ index offset, builder.restarts[index]? = some offset → offset < 2 ^ 32 →
      Iter.restartPoint source index = offset := by
    intro index offset found fits
    rw [Iter.restartPoint, isSource, ← List.drop_drop, finish, List.drop_left,
      decodeFixed32_flatMap found fits]
  refine ⟨source, ?_, ?_⟩
  · have restartOffset : (builder.finish.length - (1 + builder.restarts.length) % 2 ^ 32 * 4) % 2 ^ 32 =
        builder.buffer.length := by
      omega
    rw [Block.new, if_neg (by omega), count, if_neg (by omega), Block.newIterator,
      if_neg (by dsimp only; omega), restartOffset]
    dsimp only
    rw [count, if_neg (by omega), isSource]
  · refine ⟨?_, ?_, ?_, ?_, ?_, holds.chained, fun piece member => ⟨?_, ?_⟩, ?_, ?_⟩
    · rw [isSource]
      dsimp only
      rw [finish, List.take_left, holds.buffer]
    · rw [isSource]
      exact length
    · rw [isSource]
      dsimp only
      omega
    · rw [isSource]
      exact restartsSome
    · rw [isSource]
      dsimp only
      omega
    · have bound := holds.chained.length_key_le member
      rw [List.length_nil] at bound
      omega
    · have bound := length_value_le member
      omega
    · exact point 0 0 (by rw [isMore]; rfl) (Nat.two_pow_pos 32)
    · intro index positive inside
      rw [isSource] at inside
      obtain ⟨previous, rfl⟩ := Nat.exists_eq_add_one.mpr positive
      obtain ⟨offset, found⟩ : ∃ offset, builder.restarts[previous + 1]? = some offset :=
        ⟨_, List.getElem?_eq_getElem inside⟩
      have member : offset ∈ more := by
        rw [isMore, List.getElem?_cons_succ] at found
        exact List.mem_of_getElem? found
      obtain ⟨front, piece, back, isPieces, isOffset, nothing⟩ := points offset member
      refine ⟨front, piece, back, isPieces, ?_, nothing⟩
      have shorter : (layout front).length ≤ (layout pieces).length := by
        rw [isPieces, layout_append, List.length_append]
        exact Nat.le_add_right _ _
      rw [Nat.mod_eq_of_lt (by omega)] at isOffset
      rw [point _ offset found (by omega), isOffset]

end BlockBuilder

end LevelDb.Sst
