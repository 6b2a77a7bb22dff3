/-
This file follows the calls of a `FilterBlockBuilder` up to the finished block, and the reads of
that block. The keys that are added while the last offset lies in a slot are the keys of that slot,
however many blocks share it and however many slots a large block skips. So a policy without false
negatives gives a filter block without false negatives.

A filter has its place as a fixed 32 bit number, and the policy is given the number of keys as an
`int`. Both bound what a filter block can hold.
-/

import LevelDb.Sst.FilterLayout

namespace LevelDb.Sst

/-! ### Calls -/

namespace FilterBlockBuilder

/-- A call before `Finish`. -/
inductive Call
  | startBlock (blockOffset : Nat)
  | addKey (key : Bytes)

/-- One call. -/
def step (builder : FilterBlockBuilder) : Call → FilterBlockBuilder
  | .startBlock blockOffset => builder.startBlock blockOffset
  | .addKey key => builder.addKey key

/-- A run of calls. -/
def run (builder : FilterBlockBuilder) (calls : List Call) : FilterBlockBuilder :=
  calls.foldl step builder

/-- The offsets of the blocks that calls start. -/
def blockOffsets : List Call → List Nat
  | [] => []
  | .startBlock blockOffset :: rest => blockOffset :: blockOffsets rest
  | .addKey _ :: rest => blockOffsets rest

/-- The keys that calls add to a slot, when the block before them lies in the slot `current`. -/
def slotKeys (slot : Nat) : Nat → List Call → List Bytes
  | _, [] => []
  | _, .startBlock blockOffset :: rest => slotKeys slot (blockOffset / kFilterBase) rest
  | current, .addKey key :: rest =>
    if current = slot then key :: slotKeys slot current rest else slotKeys slot current rest

/-- The keys of a slot that has not been reached are none. -/
theorem getD_append_replicate (slots : List (List Bytes)) (count slot : Nat) :
    ((slots ++ List.replicate count [])[slot]?).getD [] = (slots[slot]?).getD [] := by
  obtain inside | outside := Nat.lt_or_ge slot slots.length
  · rw [List.getElem?_append_left inside]
  · rw [List.getElem?_append_right outside, List.getElem?_eq_none outside, List.getElem?_replicate]
    split <;> rfl

section Runs

variable {builder : FilterBlockBuilder} {slots : List (List Bytes)}

theorem allSlots_addKey (key : Bytes) (slot : Nat) :
    (((builder.addKey key).allSlots slots)[slot]?).getD [] =
      ((builder.allSlots slots)[slot]?).getD [] ++ if slots.length = slot then [key] else [] := by
  rw [allSlots, allSlots, addKey]
  obtain less | same | more := Nat.lt_trichotomy slot slots.length
  · rw [List.getElem?_append_left less, List.getElem?_append_left less, if_neg less.ne',
      List.append_nil]
  · rw [same, List.getElem?_concat_length, List.getElem?_concat_length, if_pos rfl]
    rfl
  · rw [if_neg more.ne, List.append_nil, List.getElem?_eq_none, List.getElem?_eq_none]
    all_goals rw [List.length_append, List.length_singleton]; exact more

/-- What a run of calls with offsets that do not decrease leaves in the slots. -/
theorem Holds.run (holds : builder.Holds slots) (calls : List Call)
    (above : ∀ blockOffset ∈ blockOffsets calls, slots.length ≤ blockOffset / kFilterBase)
    (ascending : (blockOffsets calls).Pairwise (· ≤ ·)) :
    ∃ slots', (builder.run calls).Holds slots' ∧ (builder.run calls).policy = builder.policy ∧
      ∀ slot, (((builder.run calls).allSlots slots')[slot]?).getD [] =
        ((builder.allSlots slots)[slot]?).getD [] ++ slotKeys slot slots.length calls := by
  induction calls generalizing builder slots with
  | nil => exact ⟨slots, holds, rfl, fun slot => (List.append_nil _).symm⟩
  | cons call rest inductionHypothesis =>
    cases call with
    | startBlock blockOffset =>
      obtain ⟨slots', holds', length, ⟨count, all⟩, policy⟩ := holds.startBlock blockOffset
      obtain ⟨first, later⟩ := List.pairwise_cons.mp ascending
      have reached : slots'.length = blockOffset / kFilterBase :=
        length.trans (max_eq_right (above blockOffset List.mem_cons_self))
      obtain ⟨last, lastHolds, lastPolicy, keys⟩ := inductionHypothesis holds'
        (fun other member => reached ▸ Nat.div_le_div_right (first other member)) later
      refine ⟨last, lastHolds, lastPolicy.trans policy, fun slot => ?_⟩
      refine (keys slot).trans ?_
      rw [all, getD_append_replicate, reached]
      rfl
    | addKey key =>
      obtain ⟨last, lastHolds, lastPolicy, keys⟩ := inductionHypothesis (holds.addKey key) above
        ascending
      refine ⟨last, lastHolds, lastPolicy, fun slot => ?_⟩
      refine (keys slot).trans ?_
      rw [allSlots_addKey, List.append_assoc, slotKeys]
      split <;> rfl

/-- The keys of a slot of the finished block are those that were added to it. -/
theorem finalSlots_getD (slot : Nat) :
    ((builder.finalSlots slots)[slot]?).getD [] = ((builder.allSlots slots)[slot]?).getD [] := by
  rw [finalSlots]
  split
  · next empty =>
    rw [allSlots, empty]
    exact (getD_append_replicate slots 1 slot).symm
  · rfl

end Runs

/-- The finished slots of a run from a new builder. -/
theorem finalSlots_run (policy : FilterPolicy) (calls : List Call)
    (ascending : (blockOffsets calls).Pairwise (· ≤ ·)) :
    ∃ slots, ((new policy).run calls).Holds slots ∧ ((new policy).run calls).policy = policy ∧
      ∀ slot, ((((new policy).run calls).finalSlots slots)[slot]?).getD [] =
        slotKeys slot 0 calls := by
  obtain ⟨slots, holds, samePolicy, keys⟩ :=
    (Holds.new policy).run calls (fun blockOffset _ => Nat.zero_le _) ascending
  refine ⟨slots, holds, samePolicy, fun slot => ?_⟩
  rw [finalSlots_getD, keys]
  exact congrArg (· ++ _) (getD_append_replicate [] 1 slot)

/-- A key that is added behind the start of a block is one of the keys of the slot of the block. -/
theorem mem_slotKeys {calls before rest : List Call} {blockOffset : Nat} {keys : List Bytes}
    (isCalls : calls = before ++ .startBlock blockOffset :: (keys.map .addKey ++ rest))
    {key : Bytes} (member : key ∈ keys) (current : Nat) :
    key ∈ slotKeys (blockOffset / kFilterBase) current calls := by
  subst isCalls
  induction before generalizing current with
  | nil =>
    show key ∈ slotKeys _ (blockOffset / kFilterBase) (keys.map .addKey ++ rest)
    induction keys with
    | nil => exact absurd member List.not_mem_nil
    | cons first keys inductionHypothesis =>
      rw [List.map_cons, List.cons_append, slotKeys, if_pos rfl]
      obtain rfl | later := List.mem_cons.mp member
      · exact List.mem_cons_self
      · exact List.mem_cons_of_mem _ (inductionHypothesis later)
  | cons call before inductionHypothesis =>
    cases call with
    | startBlock other => exact inductionHypothesis _
    | addKey other =>
      rw [List.cons_append, slotKeys]
      split
      · exact List.mem_cons_of_mem _ (inductionHypothesis _)
      · exact inductionHypothesis _

theorem keyCount_eq {keys : List Bytes} (few : keys.length < 2 ^ 31) :
    keyCount keys = keys.length := by
  rw [keyCount, Int32.toInt_ofNat_of_lt few]
  rfl

end FilterBlockBuilder

/-! ### Reads -/

/-- The filter of a slot is made of all of its keys when an `int` can count them. -/
theorem slotFilter_of_few {policy : FilterPolicy} {keys : List Bytes} (nonempty : keys ≠ [])
    (few : keys.length < 2 ^ 31) : slotFilter policy keys = policy.createFilter keys := by
  rw [slotFilter, if_neg nonempty, FilterBlockBuilder.keyCount_eq few, List.take_length]

/-- A policy without false negatives does not miss a key that is in the filter of a slot. -/
theorem keyMayMatch_slotFilter {policy : FilterPolicy}
    (noFalseNegatives : ∀ keys, ∀ key ∈ keys, policy.keyMayMatch key (policy.createFilter keys))
    {keys : List Bytes} (few : keys.length < 2 ^ 31) {key : Bytes} (member : key ∈ keys) :
    policy.keyMayMatch key (slotFilter policy keys) := by
  rw [slotFilter_of_few (List.ne_nil_of_mem member) few]
  exact noFalseNegatives keys key member

/-- What a reader takes from a block does not depend on the policy. The array of offsets lies inside
the block, in front of the last word. -/
theorem FilterBlockReader.new_eq (contents : Bytes) :
    ∃ data offset num baseLg,
      (∀ policy, new policy contents = ⟨policy, data, offset, num, baseLg⟩) ∧
      (0 < num → data = contents ∧ offset + num * 4 + 5 ≤ contents.length) := by
  by_cases short : contents.length < 5
  · exact ⟨[], 0, 0, 0, fun policy => if_pos short, fun positive => absurd positive (lt_irrefl 0)⟩
  · generalize isWord : decodeFixed32 (contents.drop (contents.length - 5)) = lastWord
    by_cases behind : lastWord > contents.length - 5
    · refine ⟨[], 0, 0, (contents.getD (contents.length - 1) 0).toNat, fun policy => ?_,
        fun positive => absurd positive (lt_irrefl 0)⟩
      rw [new]
      dsimp only
      rw [if_neg short, isWord, if_pos behind]
    · refine ⟨contents, lastWord, (contents.length - 5 - lastWord) / 4,
        (contents.getD (contents.length - 1) 0).toNat, fun policy => ?_, fun _ => ⟨rfl, ?_⟩⟩
      · rw [new]
        dsimp only
        rw [if_neg short, isWord, if_neg behind]
      · have := Nat.div_mul_le_self (contents.length - 5 - lastWord) 4
        omega

/-- A read of arbitrary bytes has its answer without the policy, or it passes the policy a slice of
the block. -/
theorem FilterBlockReader.keyMayMatch_slice (contents : Bytes) (blockOffset : Nat) :
    ∃ passed : Bool ⊕ Nat × Nat,
      (∀ start limit, passed = .inr (start, limit) → start ≤ limit ∧ limit ≤ contents.length) ∧
      ∀ policy key, (new policy contents).keyMayMatch blockOffset key =
        passed.elim id fun slice =>
          policy.keyMayMatch key ((contents.drop slice.1).take (slice.2 - slice.1)) := by
  obtain ⟨data, offset, num, baseLg, isReader, inside⟩ := new_eq contents
  simp only [isReader, keyMayMatch]
  by_cases isSlot : blockOffset >>> (baseLg % 64) < num
  · obtain ⟨rfl, arrayInside⟩ := inside (Nat.zero_lt_of_lt isSlot)
    simp only [if_pos isSlot]
    generalize decodeFixed32 (data.drop (offset + _ * 4)) = start
    generalize decodeFixed32 (data.drop (offset + _ * 4 + 4)) = limit
    by_cases isSlice : start ≤ limit ∧ limit ≤ offset
    · refine ⟨.inr (start, limit), fun start' limit' same => ?_, fun policy key => if_pos isSlice⟩
      cases same
      exact ⟨isSlice.1, isSlice.2.trans (by omega)⟩
    · exact ⟨.inl (if start = limit then false else true), (fun _ _ same => by cases same),
        fun policy key => if_neg isSlice⟩
  · exact ⟨.inl true, (fun _ _ same => by cases same), fun policy key => if_neg isSlot⟩

/-- A filter block has no false negatives when the policy has none, as long as its filters take less
than 4 GB and the slot of the key has fewer keys than an `int` can count. What a read passes the
policy lies inside the block, whatever the bytes of the block are. -/
theorem filterBlock_keyMayMatch :
    (∀ (policy : FilterPolicy) (calls before rest : List FilterBlockBuilder.Call)
        (blockOffset : Nat) (keys : List Bytes) (key : Bytes),
      (∀ keys, ∀ key ∈ keys, policy.keyMayMatch key (policy.createFilter keys)) →
      (FilterBlockBuilder.blockOffsets calls).Pairwise (· ≤ ·) →
      calls = before ++ .startBlock blockOffset :: (keys.map .addKey ++ rest) → key ∈ keys →
      ((FilterBlockBuilder.new policy).run calls).finishKeys.result.length < 2 ^ 32 →
      (FilterBlockBuilder.slotKeys (blockOffset / kFilterBase) 0 calls).length < 2 ^ 31 →
      (FilterBlockReader.new policy ((FilterBlockBuilder.new policy).run calls).finish).keyMayMatch
        blockOffset key = true) ∧
    ∀ (contents : Bytes) (blockOffset : Nat), ∃ passed : Bool ⊕ Nat × Nat,
      (∀ start limit, passed = .inr (start, limit) → start ≤ limit ∧ limit ≤ contents.length) ∧
      ∀ policy key, (FilterBlockReader.new policy contents).keyMayMatch blockOffset key =
        passed.elim id fun slice =>
          policy.keyMayMatch key ((contents.drop slice.1).take (slice.2 - slice.1)) := by
  refine ⟨?_, FilterBlockReader.keyMayMatch_slice⟩
  intro policy calls before rest blockOffset keys key noFalseNegatives ascending isCalls member fits
    few
  obtain ⟨slots, holds, samePolicy, inSlot⟩ :=
    FilterBlockBuilder.finalSlots_run policy calls ascending
  rw [FilterBlockReader.keyMayMatch_finish holds fits, samePolicy]
  have added := FilterBlockBuilder.mem_slotKeys isCalls member 0
  rw [← inSlot] at added few
  split
  · next slotKeys found =>
    rw [found] at added few
    exact keyMayMatch_slotFilter noFalseNegatives few added
  · rfl

/-- A policy with filters of some size. A filter matches when it has that size. -/
def paddedPolicy (size : Nat) : FilterPolicy where
  name := []
  createFilter _ := List.replicate size 0
  keyMayMatch _ bytes := bytes.length = size

/-- Filters of a multiple of 4 GB start and end at the place 0 for the reader, so that it passes the
policy an empty filter. -/
theorem keyMayMatch_paddedPolicy {size : Nat} (positive : 8 ≤ size) (multiple : size % 2 ^ 32 = 0)
    {builder : FilterBlockBuilder} (isPolicy : builder.policy = paddedPolicy size)
    (noFilters : builder.result = [] ∧ builder.filterOffsets = []) (hasKeys : builder.keys ≠ [])
    {blockOffset : Nat} (first : blockOffset < kFilterBase) (key : Bytes) :
    (FilterBlockReader.new (paddedPolicy size) builder.finish).keyMayMatch blockOffset key =
      false := by
  have finished : builder.finish =
      List.replicate size 0 ++ (encodeFixed32 0 ++ (encodeFixed32 (size % 2 ^ 32) ++ [11])) := by
    rw [FilterBlockBuilder.finish, FilterBlockBuilder.finishKeys, if_pos hasKeys,
      FilterBlockBuilder.generateFilter]
    dsimp only
    rw [if_neg hasKeys, FilterBlockBuilder.trailer]
    dsimp only
    rw [isPolicy, noFilters.1, noFilters.2]
    show List.replicate size 0 ++ (encodeFixed32 0 ++ [] ++
      (encodeFixed32 ((List.replicate size (0 : UInt8)).length % 2 ^ 32) ++ [11])) = _
    rw [List.length_replicate, List.append_nil]
  obtain ⟨rest, rfl⟩ := Nat.exists_eq_add_of_le positive
  have front : List.replicate (8 + rest) (0 : UInt8) =
      encodeFixed32 0 ++ (encodeFixed32 0 ++ List.replicate rest 0) := by
    rw [List.replicate_add]
    rfl
  rw [multiple] at finished
  generalize builder.finish = contents at finished
  have length : contents.length = 8 + rest + 9 := by
    rw [finished, List.length_append, List.length_replicate]
    rfl
  have word : contents.drop (contents.length - 5) = encodeFixed32 0 ++ [11] := by
    rw [length, finished, ← List.append_assoc]
    exact List.drop_left' (by rw [List.length_append, List.length_replicate]; rfl)
  have zero : decodeFixed32 contents = 0 ∧ decodeFixed32 (contents.drop 4) = 0 := by
    rw [finished, front]
    exact ⟨decodeFixed32_encodeFixed32 (by decide) _, decodeFixed32_encodeFixed32 (by decide) _⟩
  have lastByte : contents.getD (contents.length - 1) 0 = 11 := by
    rw [length, finished, ← List.append_assoc, ← List.append_assoc, List.getD_eq_getElem?_getD]
    have front : (List.replicate (8 + rest) (0 : UInt8) ++ encodeFixed32 0 ++
        encodeFixed32 0).length = 8 + rest + 9 - 1 := by
      rw [List.length_append, List.length_append, List.length_replicate]
      rfl
    rw [← front, List.getElem?_concat_length]
    rfl
  have slot : blockOffset >>> ((11 : UInt8).toNat % 64) = 0 :=
    (Nat.shiftRight_eq_div_pow _ _).trans (Nat.div_eq_of_lt first)
  rw [FilterBlockReader.new]
  dsimp only
  rw [word, decodeFixed32_encodeFixed32 (by decide), if_neg (by omega), if_neg (by omega),
    FilterBlockReader.keyMayMatch]
  dsimp only
  rw [lastByte, slot, if_pos (by omega), Nat.zero_mul, Nat.zero_add, Nat.zero_add,
    List.drop_zero, zero.1, zero.2, if_pos ⟨le_rfl, le_rfl⟩, Nat.sub_self, List.take_zero]
  exact decide_eq_false (by rw [List.length_nil]; omega)

theorem filterBlock_misses : ¬ ∀ (policy : FilterPolicy)
    (calls before rest : List FilterBlockBuilder.Call) (blockOffset : Nat) (keys : List Bytes)
    (key : Bytes),
    (∀ keys, ∀ key ∈ keys, policy.keyMayMatch key (policy.createFilter keys)) →
    (FilterBlockBuilder.blockOffsets calls).Pairwise (· ≤ ·) →
    calls = before ++ .startBlock blockOffset :: (keys.map .addKey ++ rest) → key ∈ keys →
    (FilterBlockReader.new policy ((FilterBlockBuilder.new policy).run calls).finish).keyMayMatch
      blockOffset key = true := by
  intro always
  have misses := @keyMayMatch_paddedPolicy (2 ^ 32) (by norm_num) (Nat.mod_self _)
    ((FilterBlockBuilder.new (paddedPolicy (2 ^ 32))).run [.startBlock 0, .addKey []]) rfl
    ⟨rfl, rfl⟩ (List.cons_ne_nil [] []) 0 (by decide) []
  have matches' := always (paddedPolicy (2 ^ 32)) [.startBlock 0, .addKey []] [] [] 0 [[]] []
    (fun keys key _ => decide_eq_true List.length_replicate) (List.pairwise_singleton _ _) rfl
    (List.mem_singleton_self _)
  rw [misses] at matches'
  cases matches'

/-- A policy with the first byte of each key in its filters. -/
def headPolicy : FilterPolicy where
  name := []
  createFilter keys := keys.map (List.headD · 0)
  keyMayMatch key bytes := key.headD 0 ∈ bytes

theorem filterBlock_keyMayMatch_two :
    (FilterBlockReader.new headPolicy ((FilterBlockBuilder.new headPolicy).run
      [.startBlock 0, .addKey [1], .startBlock 5000, .addKey [2], .addKey [3]]).finish).keyMayMatch
        5000 [3] = true :=
  filterBlock_keyMayMatch.1 headPolicy _ [.startBlock 0, .addKey [1]] [] 5000 [[2], [3]] [3]
    (fun _ _ member => decide_eq_true (List.mem_map_of_mem member)) (by decide) rfl (by decide)
    (by decide) (by decide)

end LevelDb.Sst
