/-
This file proves when `ReadBlock` undoes what `WriteBlock` did. The contents and the type of a block
come back under its checksum, but the search for the compressor of a type ends at the first slot
without one, and compares a signed ID with an unsigned byte.
-/

import LevelDb.Sst.TableFormat

namespace LevelDb.Sst

/-! ### A block that was written -/

theorem length_trailer (contents : Bytes) (compressor : Option Compressor) :
    (trailer contents compressor).length = kBlockTrailerSize := by
  rw [trailer, List.length_cons, length_encodeFixed32]
  rfl

theorem length_rawBlock (contents : Bytes) (compressor : Option Compressor) :
    (rawBlock contents compressor).length = contents.length + kBlockTrailerSize := by
  rw [rawBlock, List.length_append, length_trailer]

theorem getD_rawBlock (contents : Bytes) (compressor : Option Compressor) :
    (rawBlock contents compressor).getD contents.length 0 = typeByte compressor := by
  rw [rawBlock, trailer, List.getD_eq_getElem?_getD, List.getElem?_append_right (le_refl _),
    Nat.sub_self]
  rfl

theorem take_rawBlock (contents : Bytes) (compressor : Option Compressor) :
    (rawBlock contents compressor).take contents.length = contents := List.take_left

/-- The checksum in the trailer is that of the contents and the type. -/
theorem checksum_rawBlock (contents : Bytes) (compressor : Option Compressor) :
    Crc32c.value 0 ((rawBlock contents compressor).take (contents.length + 1)) =
      Crc32c.unmask (BitVec.ofNat 32
        (decodeFixed32 ((rawBlock contents compressor).drop (contents.length + 1)))) := by
  obtain ⟨crc, isCrc⟩ : ∃ crc, crc = Crc32c.mask
    (Crc32c.extend 0 (Crc32c.value 0 contents) [typeByte compressor]) := ⟨_, rfl⟩
  have whole : rawBlock contents compressor =
      (contents ++ [typeByte compressor]) ++ encodeFixed32 crc.toNat := by
    rw [rawBlock, trailer, ← isCrc, List.append_assoc, List.singleton_append]
  have length : contents.length + 1 = (contents ++ [typeByte compressor]).length := by
    rw [List.length_append, List.length_singleton]
  have stored := decodeFixed32_encodeFixed32 crc.isLt []
  rw [List.append_nil] at stored
  rw [whole, length, List.take_left, List.drop_left, stored, BitVec.ofNat_toNat,
    BitVec.setWidth_eq, isCrc, Crc32c.unmask_mask, Crc32c.value, Crc32c.value,
    Crc32c.extend_append 0 0 0]

/-- What `ReadBlock` makes of a block of some type. -/
def readTyped (compressors : Compressors) (usesScratch : Bool) (compressionID : UInt8)
    (contents : Bytes) : Except String BlockContents :=
  if compressionID = 0 then .ok ⟨contents, usesScratch, usesScratch⟩
  else
    match findCompressor compressionID (List.ofFn compressors) with
    | none => .error "encountered a block compressed with an unknown decompressor"
    | some compressor =>
      match compressor.decompress contents with
      | none => .error "corrupted compressed block contents"
      | some raw => .ok ⟨raw, true, true⟩

/-- The contents and the type of a block come back. -/
theorem readBlock_rawBlock {file : RandomAccessFile} (compressors : Compressors)
    (verifyChecksums : Bool) {handle : BlockHandle} {contents : Bytes}
    {compressor : Option Compressor} (isSize : handle.size = contents.length)
    (small : contents.length + kBlockTrailerSize < 2 ^ 64)
    (stored : file.read handle.offset (contents.length + kBlockTrailerSize) =
      .ok (rawBlock contents compressor)) :
    readBlock file compressors verifyChecksums handle =
      .ok (readTyped compressors file.usesScratch (typeByte compressor) contents) := by
  have length := length_rawBlock contents compressor
  rw [readBlock, readTyped]
  dsimp only
  rw [isSize, Nat.mod_eq_of_lt small, stored]
  dsimp only
  rw [if_neg (not_not.mpr length), if_neg (not_lt.mpr length.ge),
    if_neg fun wrong => wrong.2 (checksum_rawBlock contents compressor), getD_rawBlock,
    take_rawBlock]
  split
  · rfl
  · cases findCompressor (typeByte compressor) (List.ofFn compressors) with
    | none => rfl
    | some found =>
      dsimp only
      cases found.decompress contents <;> rfl

/-! ### The search for a compressor -/

theorem toNat_toUInt8 (id : Int8) :
    (id.toUInt8.toNat : Int) = if 0 ≤ id.toInt then id.toInt else id.toInt + 256 := by
  have cond := BitVec.toInt_eq_toNat_cond id.toBitVec
  have isNat : id.toUInt8.toNat = id.toBitVec.toNat := rfl
  have isInt : id.toInt = id.toBitVec.toInt := rfl
  have bound := id.toBitVec.isLt
  rw [isNat, isInt]
  split_ifs at cond ⊢ <;> omega

/-- An ID that is negative as a `char` is never found again. -/
theorem findCompressor_negative {id : Int8} (negative : id.toInt < 0)
    (slots : List (Option Compressor)) : findCompressor id.toUInt8 slots = none := by
  have isByte := toNat_toUInt8 id
  rw [if_neg (not_le.mpr negative)] at isByte
  induction slots with
  | nil => rfl
  | cons slot rest inductionHypothesis =>
    cases slot with
    | none => rfl
    | some other =>
      have low := id.le_toInt
      have high := other.uniqueCompressionID.toInt_lt
      rw [findCompressor, if_neg, inductionHypothesis]
      omega

/-- The search stops at the first slot without a compressor. -/
theorem findCompressor_append {id : Int8} (nonnegative : 0 ≤ id.toInt)
    {front rest : List (Option Compressor)} {compressor : Compressor}
    (isId : compressor.uniqueCompressionID = id)
    (others : ∀ other, some other ∈ front → other.uniqueCompressionID ≠ id) :
    findCompressor id.toUInt8 (front ++ some compressor :: rest) =
      if front.all Option.isSome then some compressor else none := by
  have isByte := toNat_toUInt8 id
  rw [if_pos nonnegative] at isByte
  induction front with
  | nil =>
    rw [List.nil_append, findCompressor, isId, isByte, if_pos rfl]
    rfl
  | cons slot front inductionHypothesis =>
    cases slot with
    | none => rfl
    | some other =>
      have differs : other.uniqueCompressionID.toInt ≠ id.toInt := fun same =>
        others other List.mem_cons_self (Int8.toInt_inj.mp same)
      rw [List.cons_append, findCompressor, isByte, if_neg differs,
        inductionHypothesis fun later member => others later (List.mem_cons_of_mem _ member)]
      rfl

theorem findCompressor_ofFn {compressors : Compressors} {slot : Fin 256} {compressor : Compressor}
    (registered : compressors slot = some compressor)
    (nonnegative : 0 ≤ compressor.uniqueCompressionID.toInt)
    (distinct : ∀ first second firstAt secondAt, compressors first = some firstAt →
      compressors second = some secondAt →
      firstAt.uniqueCompressionID = secondAt.uniqueCompressionID → first = second) :
    findCompressor compressor.uniqueCompressionID.toUInt8 (List.ofFn compressors) =
      if ∀ earlier < slot, compressors earlier ≠ none then some compressor else none := by
  have inside : slot.val < (List.ofFn compressors).length := by
    rw [List.length_ofFn]
    exact slot.isLt
  have split : List.ofFn compressors = (List.ofFn compressors).take slot ++
      some compressor :: (List.ofFn compressors).drop (slot + 1) := by
    conv_lhs => rw [← List.take_append_drop slot (List.ofFn compressors),
      List.drop_eq_getElem_cons inside, List.getElem_ofFn]
    exact congrArg (fun found => _ ++ found :: _) registered
  have inFront : ∀ found, found ∈ (List.ofFn compressors).take slot ↔
      ∃ earlier < slot, compressors earlier = found := by
    intro found
    rw [List.mem_take_iff_getElem]
    refine ⟨?_, ?_⟩
    · rintro ⟨index, bound, isFound⟩
      rw [List.getElem_ofFn] at isFound
      exact ⟨_, Fin.lt_def.mpr (bound.trans_le (min_le_left _ _)), isFound⟩
    · rintro ⟨earlier, before, isFound⟩
      refine ⟨earlier, lt_min before (Nat.lt_trans (Fin.lt_def.mp before) inside), ?_⟩
      rw [List.getElem_ofFn]
      exact isFound
  rw [split, findCompressor_append nonnegative rfl]
  · refine if_congr ?_ rfl rfl
    rw [List.all_eq_true]
    refine ⟨fun all earlier before empty => ?_, fun all found member => ?_⟩
    · exact Bool.false_ne_true (all none ((inFront none).mpr ⟨earlier, before, empty⟩))
    · obtain ⟨earlier, before, isFound⟩ := (inFront found).mp member
      exact Option.isSome_iff_ne_none.mpr (isFound ▸ all earlier before)
  · intro other member same
    obtain ⟨earlier, before, isOther⟩ := (inFront (some other)).mp member
    exact absurd (distinct earlier slot other compressor isOther registered same) before.ne

/-! ### Reading back what a compressor wrote -/

/-- A block that is written with a registered compressor is read back exactly when it is stored as
it is, or the ID of the compressor is not negative and no slot before that of the compressor is
empty. -/
theorem reads_back_iff {compressors : Compressors} {slot : Fin 256} {compressor : Compressor}
    (registered : compressors slot = some compressor)
    (nonzero : compressor.uniqueCompressionID ≠ 0)
    (distinct : ∀ first second firstAt secondAt, compressors first = some firstAt →
      compressors second = some secondAt →
      firstAt.uniqueCompressionID = secondAt.uniqueCompressionID → first = second)
    (lossless : ∀ raw, compressor.decompress (compressor.compress raw) = some raw)
    (raw : Bytes) (verifyChecksums : Bool) {file : RandomAccessFile} {handle : BlockHandle}
    (isSize : handle.size = (chooseContents (some compressor) raw).1.length)
    (small : handle.size + kBlockTrailerSize < 2 ^ 64)
    (stored : file.read handle.offset (handle.size + kBlockTrailerSize) =
      .ok (rawBlock (chooseContents (some compressor) raw).1
        (chooseContents (some compressor) raw).2)) :
    (∃ result, readBlock file compressors verifyChecksums handle = .ok (.ok result) ∧
        result.data = raw) ↔
      ¬ (compressor.compress raw).length < raw.length - raw.length / 8 ∨
        (0 ≤ compressor.uniqueCompressionID.toInt ∧
          ∀ earlier < slot, compressors earlier ≠ none) := by
  rw [isSize] at small stored
  rw [readBlock_rawBlock compressors verifyChecksums isSize small stored]
  by_cases smaller : (compressor.compress raw).length < raw.length - raw.length / 8
  · have chosen : chooseContents (some compressor) raw =
        (compressor.compress raw, some compressor) := if_pos smaller
    have typed : typeByte (some compressor) ≠ 0 := fun zero =>
      nonzero (by rw [← Int8.toInt8_toUInt8 compressor.uniqueCompressionID]; exact congrArg _ zero)
    rw [chosen, or_iff_right (not_not.mpr smaller), readTyped, if_neg typed]
    dsimp only [typeByte]
    by_cases negative : compressor.uniqueCompressionID.toInt < 0
    · rw [findCompressor_negative negative]
      refine iff_of_false ?_ fun both => absurd both.1 (not_le.mpr negative)
      rintro ⟨result, impossible, _⟩
      cases impossible
    · rw [findCompressor_ofFn registered (not_lt.mp negative) distinct]
      by_cases filled : ∀ earlier < slot, compressors earlier ≠ none
      · rw [if_pos filled]
        dsimp only
        rw [lossless]
        exact iff_of_true ⟨_, rfl, rfl⟩ ⟨not_lt.mp negative, filled⟩
      · rw [if_neg filled]
        refine iff_of_false ?_ fun both => filled both.2
        rintro ⟨result, impossible, _⟩
        cases impossible
  · have chosen : chooseContents (some compressor) raw = (raw, none) := if_neg smaller
    rw [chosen]
    exact iff_of_true ⟨_, rfl, rfl⟩ (.inl smaller)

/-- A compressor that knows one string. -/
def oneString (uniqueCompressionID : Int8) (known : Bytes) : Compressor where
  uniqueCompressionID := uniqueCompressionID
  compress raw := if raw = known then [1] else 0 :: raw
  decompress
    | [1] => some known
    | 0 :: raw => some raw
    | _ => none

theorem oneString_lossless (uniqueCompressionID : Int8) (known raw : Bytes) :
    (oneString uniqueCompressionID known).decompress
      ((oneString uniqueCompressionID known).compress raw) = some raw := by
  by_cases isKnown : raw = known
  · rw [show (oneString uniqueCompressionID known).compress raw = [1] from if_pos isKnown, isKnown]
    rfl
  · rw [show (oneString uniqueCompressionID known).compress raw = 0 :: raw from if_neg isKnown]
    rfl

theorem read_ofBytes_rawBlock (contents : Bytes) (compressor : Option Compressor) :
    (RandomAccessFile.ofBytes (rawBlock contents compressor)).read 0
      (contents.length + kBlockTrailerSize) = .ok (rawBlock contents compressor) := by
  have whole := length_rawBlock contents compressor
  show Except.ok ((List.drop 0 (rawBlock contents compressor)).take
    (contents.length + kBlockTrailerSize)) = _
  rw [List.drop_zero, List.take_of_length_le whole.le]

theorem reads_back_first_slot :
    ∃ result, readBlock (.ofBytes (rawBlock [1] (some (oneString 2 (List.replicate 16 7)))))
        (fun slot => if slot = 0 then some (oneString 2 (List.replicate 16 7)) else none) true ⟨0, 1⟩ =
          .ok (.ok result) ∧
      result.data = List.replicate 16 7 := by
  refine (reads_back_iff (rfl : (fun slot => if slot = 0 then
    some (oneString 2 (List.replicate 16 7)) else none : Compressors) 0 = _) (by decide) ?_
    (oneString_lossless _ _) _ true rfl (by decide) (read_ofBytes_rawBlock _ _)).mpr
    (.inr ⟨by decide, ?_⟩)
  · intro first second firstAt secondAt isFirst isSecond _
    obtain ⟨rfl, _⟩ := Option.ite_none_right_eq_some.mp isFirst
    obtain ⟨rfl, _⟩ := Option.ite_none_right_eq_some.mp isSecond
    rfl
  · exact fun earlier before => absurd before (Fin.not_lt_zero earlier)

/-- The only compressor is in the slot behind an empty one. -/
theorem second_slot_not_found :
    readBlock (.ofBytes (rawBlock [1] (some (oneString 2 (List.replicate 16 7)))))
        (fun slot => if slot = 1 then some (oneString 2 (List.replicate 16 7)) else none) true ⟨0, 1⟩ =
      .ok (.error "encountered a block compressed with an unknown decompressor") ∧
    chooseContents (some (oneString 2 (List.replicate 16 7))) (List.replicate 16 7) =
      ([1], some (oneString 2 (List.replicate 16 7))) := by
  refine ⟨?_, rfl⟩
  have small : [1].length + kBlockTrailerSize < 2 ^ 64 := by decide
  rw [readBlock_rawBlock _ true rfl small (read_ofBytes_rawBlock _ _), readTyped, List.ofFn_succ]
  rfl

end LevelDb.Sst
