/-
This file proves that a filter block gives back the filters that were put into it: slot by slot, one
for each 2 KB of offsets, the reader passes the policy the filter that was made of the keys of the
slot.
-/

import LevelDb.Sst.BlockLayout
import LevelDb.Sst.FilterBlock

namespace LevelDb.Sst

/-- The filter of a slot: nothing when it has no keys. -/
def slotFilter (policy : FilterPolicy) (keys : List Bytes) : Bytes :=
  if keys = [] then []
  else policy.createFilter (keys.take (FilterBlockBuilder.keyCount keys))

/-- The filters of slots, one after the other. -/
def slotFilters (policy : FilterPolicy) (slots : List (List Bytes)) : Bytes :=
  slots.flatMap (slotFilter policy)

/-- Where the filter of a slot starts. -/
def slotStart (policy : FilterPolicy) (slots : List (List Bytes)) (index : Nat) : Nat :=
  (slotFilters policy (slots.take index)).length

theorem slotStart_mono (policy : FilterPolicy) (slots : List (List Bytes)) {first second : Nat}
    (less : first ≤ second) : slotStart policy slots first ≤ slotStart policy slots second := by
  have front : slots.take first = (slots.take second).take first := by
    rw [List.take_take, min_eq_left less]
  rw [slotStart, slotStart, front]
  conv_rhs => rw [← List.take_append_drop first (slots.take second)]
  rw [slotFilters, slotFilters, List.flatMap_append, List.length_append]
  exact Nat.le_add_right _ _

theorem slotStart_length (policy : FilterPolicy) (slots : List (List Bytes)) :
    slotStart policy slots slots.length = (slotFilters policy slots).length := by
  rw [slotStart, List.take_length]

/-- The filter of a slot lies between its start and the next one. -/
theorem slotFilter_eq (policy : FilterPolicy) {slots : List (List Bytes)} {index : Nat}
    (inside : index < slots.length) (behind : Bytes) :
    slotStart policy slots (index + 1) =
        slotStart policy slots index + (slotFilter policy slots[index]).length ∧
      ((slotFilters policy slots ++ behind).drop (slotStart policy slots index)).take
        (slotFilter policy slots[index]).length = slotFilter policy slots[index] := by
  have front : slotFilters policy (slots.take (index + 1)) =
      slotFilters policy (slots.take index) ++ slotFilter policy slots[index] := by
    rw [List.take_succ_eq_append_getElem inside, slotFilters, List.flatMap_append,
      List.flatMap_singleton]
    rfl
  have whole : slotFilters policy slots = slotFilters policy (slots.take index) ++
      (slotFilter policy slots[index] ++ slotFilters policy (slots.drop (index + 1))) := by
    rw [← List.append_assoc, ← front, slotFilters, slotFilters, slotFilters, ← List.flatMap_append,
      List.take_append_drop]
  refine ⟨?_, ?_⟩
  · rw [slotStart, front, List.length_append]
    rfl
  · rw [whole, slotStart, List.append_assoc, List.drop_left, List.append_assoc, List.take_left]

namespace FilterBlockBuilder

/-- The builder holds the filters of slots. -/
structure Holds (builder : FilterBlockBuilder) (slots : List (List Bytes)) : Prop where
  result : builder.result = slotFilters builder.policy slots
  offsets : builder.filterOffsets =
    (List.range slots.length).map fun index => slotStart builder.policy slots index % 2 ^ 32
  made : builder.made = slots.filter (· ≠ [])

theorem Holds.new (policy : FilterPolicy) : (new policy).Holds [] := ⟨rfl, rfl, rfl⟩

variable {builder : FilterBlockBuilder} {slots : List (List Bytes)}

/-- The offsets of a list of slots do not change when there is one more. -/
theorem slotStart_append (policy : FilterPolicy) (slots : List (List Bytes)) (keys : List Bytes) :
    ((List.range (slots ++ [keys]).length).map fun index =>
        slotStart policy (slots ++ [keys]) index % 2 ^ 32) =
      ((List.range slots.length).map fun index => slotStart policy slots index % 2 ^ 32) ++
        [(slotFilters policy slots).length % 2 ^ 32] := by
  rw [List.length_append, List.length_singleton, List.range_succ, List.map_append, List.map_singleton]
  congr 1
  · refine List.map_congr_left fun index inside => ?_
    rw [slotStart, slotStart, List.take_append_of_le_length (List.mem_range.mp inside).le]
  · rw [slotStart, List.take_left]

theorem Holds.generateFilter (holds : builder.Holds slots) :
    builder.generateFilter.Holds (slots ++ [builder.keys]) ∧ builder.generateFilter.keys = [] ∧
      builder.generateFilter.policy = builder.policy := by
  have offsets := slotStart_append builder.policy slots builder.keys
  rw [← holds.offsets, ← holds.result] at offsets
  rw [FilterBlockBuilder.generateFilter]
  dsimp only
  split
  · next empty =>
    refine ⟨⟨?_, offsets.symm, ?_⟩, empty, rfl⟩
    · rw [empty, slotFilters, List.flatMap_append, List.flatMap_singleton, slotFilter, if_pos rfl,
        List.append_nil]
      exact holds.result
    · rw [empty, List.filter_append]
      exact holds.made.trans (List.append_nil _).symm
  · next some' =>
    refine ⟨⟨?_, offsets.symm, ?_⟩, rfl, rfl⟩
    · rw [slotFilters, List.flatMap_append, List.flatMap_singleton, slotFilter, if_neg some']
      exact congrArg (· ++ _) holds.result
    · rw [List.filter_append, ← holds.made, List.filter_singleton]
      simp [some']

/-- The keys of the slots, with those that are not in a filter yet. -/
def allSlots (builder : FilterBlockBuilder) (slots : List (List Bytes)) : List (List Bytes) :=
  slots ++ [builder.keys]

/-- `StartBlock` fills the slots up to that of the block. -/
theorem Holds.startBlock (holds : builder.Holds slots) (blockOffset : Nat) :
    ∃ slots', (builder.startBlock blockOffset).Holds slots' ∧
      slots'.length = max slots.length (blockOffset / kFilterBase) ∧
      (∃ count, (builder.startBlock blockOffset).allSlots slots' =
        builder.allSlots slots ++ List.replicate count []) ∧
      (builder.startBlock blockOffset).policy = builder.policy := by
  have rounds : ∀ (count : Nat) (builder : FilterBlockBuilder) (slots : List (List Bytes)),
      builder.Holds slots → ∃ slots', (FilterBlockBuilder.generateFilter^[count] builder).Holds slots' ∧
        slots'.length = slots.length + count ∧
        (FilterBlockBuilder.generateFilter^[count] builder).allSlots slots' =
          builder.allSlots slots ++ List.replicate count [] ∧
        (FilterBlockBuilder.generateFilter^[count] builder).policy = builder.policy := by
    intro count
    induction count with
    | zero => exact fun builder slots holds => ⟨slots, holds, rfl, (List.append_nil _).symm, rfl⟩
    | succ count inductionHypothesis =>
      intro builder slots holds
      obtain ⟨made, empty, policy⟩ := holds.generateFilter
      obtain ⟨slots', holds', length, all, samePolicy⟩ := inductionHypothesis _ _ made
      refine ⟨slots', holds', ?_, all.trans ?_, samePolicy.trans policy⟩
      · rw [length, List.length_append, List.length_singleton, Nat.add_assoc, Nat.add_comm 1]
      · rw [allSlots, allSlots, empty, List.replicate_succ, List.append_assoc _ [[]],
          List.singleton_append]
  have length : builder.filterOffsets.length = slots.length := by
    rw [holds.offsets, List.length_map, List.length_range]
  obtain ⟨slots', holds', isLength, all, policy⟩ :=
    rounds (blockOffset / kFilterBase - builder.filterOffsets.length) builder slots holds
  refine ⟨slots', holds', ?_, ⟨_, all⟩, policy⟩
  rw [isLength, length]
  omega

theorem Holds.addKey (holds : builder.Holds slots) (key : Bytes) : (builder.addKey key).Holds slots :=
  ⟨holds.result, holds.offsets, holds.made⟩

/-- The slots of the finished block. -/
def finalSlots (builder : FilterBlockBuilder) (slots : List (List Bytes)) : List (List Bytes) :=
  if builder.keys = [] then slots else builder.allSlots slots

theorem Holds.finishKeys (holds : builder.Holds slots) :
    builder.finishKeys.Holds (builder.finalSlots slots) ∧
      builder.finishKeys.policy = builder.policy := by
  rw [FilterBlockBuilder.finishKeys, finalSlots]
  by_cases empty : builder.keys = []
  · rw [if_pos empty, if_neg (not_not.mpr empty)]
    exact ⟨holds, rfl⟩
  · rw [if_neg empty, if_pos empty]
    exact ⟨holds.generateFilter.1, holds.generateFilter.2.2⟩

end FilterBlockBuilder

/-! ### Reading -/

section Reading

variable {builder : FilterBlockBuilder} {slots : List (List Bytes)}

/-- The numbers behind the filters: where each of them starts and where the last one ends. -/
theorem FilterBlockBuilder.Holds.starts (holds : builder.Holds slots)
    (small : builder.result.length < 2 ^ 32) {index : Nat} (inside : index ≤ slots.length) :
    (builder.filterOffsets ++ [builder.result.length % 2 ^ 32])[index]? =
        some (slotStart builder.policy slots index) ∧
      slotStart builder.policy slots index ≤ builder.result.length := by
  have bound : slotStart builder.policy slots index ≤ builder.result.length := by
    rw [holds.result, ← slotStart_length]
    exact slotStart_mono _ _ inside
  have length : builder.filterOffsets.length = slots.length := by
    rw [holds.offsets, List.length_map, List.length_range]
  refine ⟨?_, bound⟩
  obtain less | same := inside.lt_or_eq
  · rw [List.getElem?_append_left (length ▸ less), holds.offsets, List.getElem?_map,
      List.getElem?_range less, Option.map_some, Nat.mod_eq_of_lt (bound.trans_lt small)]
  · rw [same, ← length, List.getElem?_concat_length, Nat.mod_eq_of_lt small, length,
      slotStart_length, holds.result]

/-- The bytes behind the filters. -/
theorem FilterBlockBuilder.trailer_eq (builder : FilterBlockBuilder) : builder.trailer =
    (builder.filterOffsets ++ [builder.result.length % 2 ^ 32]).flatMap encodeFixed32 ++
      [UInt8.ofNat kFilterBaseLg] := by
  rw [trailer, List.flatMap_append, List.flatMap_singleton, List.append_assoc]

theorem FilterBlockBuilder.length_trailer (builder : FilterBlockBuilder) :
    builder.trailer.length = builder.filterOffsets.length * 4 + 5 := by
  rw [trailer_eq, List.length_append, length_flatMap_encodeFixed32, List.length_append,
    List.length_singleton, List.length_singleton]
  ring

/-- The reader finds the array of offsets. -/
theorem FilterBlockReader.new_append (policy : FilterPolicy) (builder : FilterBlockBuilder)
    (small : builder.result.length < 2 ^ 32) :
    FilterBlockReader.new policy (builder.result ++ builder.trailer) =
      ⟨policy, builder.result ++ builder.trailer, builder.result.length,
        builder.filterOffsets.length, kFilterBaseLg⟩ := by
  have length : (builder.result ++ builder.trailer).length =
      builder.result.length + (builder.filterOffsets.length * 4 + 5) := by
    rw [List.length_append, builder.length_trailer]
  have last : (builder.result ++ builder.trailer).getD
      ((builder.result ++ builder.trailer).length - 1) 0 = UInt8.ofNat kFilterBaseLg := by
    rw [builder.trailer_eq, ← List.append_assoc, List.getD_eq_getElem?_getD, List.length_append,
      List.length_singleton, Nat.add_sub_cancel, List.getElem?_concat_length, Option.getD_some]
  have word : (builder.result ++ builder.trailer).drop
      ((builder.result ++ builder.trailer).length - 5) =
        encodeFixed32 builder.result.length ++ [UInt8.ofNat kFilterBaseLg] := by
    have front : (builder.result ++ builder.trailer).length - 5 =
        (builder.result ++ builder.filterOffsets.flatMap encodeFixed32).length := by
      rw [length, List.length_append, length_flatMap_encodeFixed32]
      omega
    rw [front, FilterBlockBuilder.trailer, ← List.append_assoc, List.drop_left, Nat.mod_eq_of_lt small]
  rw [FilterBlockReader.new]
  dsimp only
  rw [last, word, decodeFixed32_encodeFixed32 small, length, if_neg (by omega), if_neg (by omega)]
  congr 1
  omega

/-- The reader of a finished block passes the policy the filter of the slot, if there is one. -/
theorem FilterBlockReader.keyMayMatch_finish (holds : builder.Holds slots)
    (fits : builder.finishKeys.result.length < 2 ^ 32) (policy : FilterPolicy) (blockOffset : Nat)
    (key : Bytes) :
    (FilterBlockReader.new policy builder.finish).keyMayMatch blockOffset key =
      match (builder.finalSlots slots)[blockOffset / kFilterBase]? with
      | some keys => policy.keyMayMatch key (slotFilter builder.policy keys)
      | none => true := by
  obtain ⟨finished, samePolicy⟩ := holds.finishKeys
  rw [FilterBlockBuilder.finish]
  generalize builder.finishKeys = last at finished samePolicy fits ⊢
  generalize builder.finalSlots slots = all at finished ⊢
  have count : last.filterOffsets.length = all.length := by
    rw [finished.offsets, List.length_map, List.length_range]
  have shift : blockOffset >>> (kFilterBaseLg % 64) = blockOffset / kFilterBase :=
    Nat.shiftRight_eq_div_pow _ _
  rw [new_append policy last fits, keyMayMatch]
  dsimp only
  rw [shift, count]
  generalize blockOffset / kFilterBase = index
  by_cases inside : index < all.length
  · obtain ⟨isStart, startLe⟩ := finished.starts fits inside.le
    obtain ⟨isLimit, limitLe⟩ := finished.starts fits (Nat.succ_le_of_lt inside)
    have read : ∀ {position value : Nat},
        (last.filterOffsets ++ [last.result.length % 2 ^ 32])[position]? = some value →
        value ≤ last.result.length →
        decodeFixed32 ((last.result ++ last.trailer).drop (last.result.length + position * 4)) =
          value := by
      intro position value found bound
      rw [List.drop_length_add_append, FilterBlockBuilder.trailer_eq]
      exact decodeFixed32_flatMap found (bound.trans_lt fits) _
    have start := read isStart startLe
    have limit := read isLimit limitLe
    rw [Nat.succ_mul, ← Nat.add_assoc] at limit
    obtain ⟨next, slice⟩ := slotFilter_eq last.policy inside last.trailer
    have ordered := slotStart_mono last.policy all (Nat.le_succ index)
    rw [if_pos inside, start, limit, if_pos (And.intro ordered limitLe),
      List.getElem?_eq_getElem inside]
    dsimp only
    rw [next, Nat.add_sub_cancel_left, finished.result, slice, samePolicy]
  · rw [if_neg inside, List.getElem?_eq_none (Nat.not_lt.mp inside)]

end Reading

end LevelDb.Sst
