/-
This file models the files of the in-memory environment (`FileState` in `helpers/memenv`): bytes in
blocks of 8 KB, appended to the last block and read across the blocks. A file in blocks stands for
the string of its bytes.
-/

import LevelDb.Coding

namespace LevelDb

def kBlockSize : Nat := 8 * 1024

theorem kBlockSize_eq : kBlockSize = 8192 := rfl

/-- The blocks and the size of a `FileState`. What a new block holds has no meaning. -/
structure FileData where
  blocks : List Bytes
  size : Nat

namespace FileData

/-- A new `FileState`. -/
def new : FileData := ⟨[], 0⟩

/-! ### `Append` -/

/-- `memcpy(blocks_.back() + offset, src, avail)`; `none` without a block. -/
def writeBack (blocks : List Bytes) (offset : Nat) (data : Bytes) : Option (List Bytes) :=
  blocks.getLast?.map fun last =>
    blocks.dropLast ++ [last.take offset ++ data ++ last.drop (offset + data.length)]

/-- The loop of `Append`, for at most so many rounds. -/
def appendLoop : Nat → FileData → Bytes → Option FileData
  | _, file, [] => some file
  | 0, _, _ :: _ => none
  | rounds + 1, file, src => do
    let offset := file.size % kBlockSize
    let blocks := if offset ≠ 0 then file.blocks else file.blocks ++ [List.replicate kBlockSize 0]
    let avail := min (kBlockSize - offset) src.length
    let blocks ← writeBack blocks offset (src.take avail)
    appendLoop rounds ⟨blocks, file.size + avail⟩ (src.drop avail)

/-- `Append`. Every round takes at least one byte. -/
def append (file : FileData) (data : Bytes) : Option FileData := appendLoop data.length file data

/-! ### `Read` -/

/-- The loop of `Read` over the blocks from `block` on; `none` behind the last one. -/
def copyBlocks : List Bytes → (blockOffset bytesToCopy : Nat) → Option Bytes
  | _, _, 0 => some []
  | [], _, _ + 1 => none
  | block :: rest, blockOffset, bytesToCopy =>
    let avail := min (kBlockSize - blockOffset) bytesToCopy
    (copyBlocks rest 0 (bytesToCopy - avail)).map ((block.drop blockOffset).take avail ++ ·)

/-- `Read`: the message of an `IOError`, or the bytes. -/
def read (file : FileData) (offset n : Nat) : Option (Except String Bytes) :=
  if file.size < offset then some (.error "Offset greater than file size.")
  else
    let n := min n (file.size - offset)
    if n = 0 then some (.ok [])
    else
      let block := offset / kBlockSize
      let blockOffset := offset % kBlockSize
      if n ≤ kBlockSize - blockOffset then
        file.blocks[block]?.map fun bytes => .ok ((bytes.drop blockOffset).take n)
      else (copyBlocks (file.blocks.drop block) blockOffset n).map .ok

/-! ### Files in blocks and strings -/

/-- The file holds the bytes: they fill all blocks but the last, and start the last one. -/
structure Holds (file : FileData) (contents : Bytes) : Prop where
  size_eq : file.size = contents.length
  whole : ∀ block ∈ file.blocks, block.length = kBlockSize
  count : file.blocks.length = (contents.length + (kBlockSize - 1)) / kBlockSize
  starts : contents <+: file.blocks.flatten

theorem holds_new : Holds new [] :=
  ⟨rfl, fun _ member => absurd member List.not_mem_nil, rfl, List.prefix_rfl⟩

theorem length_flatten {blocks : List Bytes} (whole : ∀ block ∈ blocks, block.length = kBlockSize) :
    blocks.flatten.length = kBlockSize * blocks.length := by
  induction blocks with
  | nil => rfl
  | cons block rest inductionHypothesis =>
    rw [List.flatten_cons, List.length_append, whole block List.mem_cons_self,
      inductionHypothesis fun other member => whole other (List.mem_cons_of_mem _ member),
      List.length_cons, Nat.mul_succ, Nat.add_comm]

/-- The blocks a round of `Append` writes to: full blocks, and a last one that the contents end
in. -/
theorem exists_last {file : FileData} {contents : Bytes} (holds : file.Holds contents) :
    ∃ front last, (if file.size % kBlockSize ≠ 0 then file.blocks
        else file.blocks ++ [List.replicate kBlockSize 0]) = front ++ [last] ∧
      (∀ block ∈ front, block.length = kBlockSize) ∧ last.length = kBlockSize ∧
      front.length = contents.length / kBlockSize ∧
      contents = front.flatten ++ last.take (file.size % kBlockSize) := by
  have length := length_flatten holds.whole
  have count := holds.count
  rw [holds.size_eq]
  rw [kBlockSize_eq] at length count ⊢
  by_cases ends : contents.length % 8192 = 0
  · have full : file.blocks.length = contents.length / 8192 := by omega
    rw [if_neg (not_not.mpr ends), ends]
    refine ⟨file.blocks, _, rfl, holds.whole, List.length_replicate, full, ?_⟩
    rw [List.take_zero, List.append_nil]
    refine holds.starts.eq_of_length ?_
    omega
  · have more : file.blocks.length = contents.length / 8192 + 1 := by omega
    rw [if_pos ends]
    have nonempty : file.blocks ≠ [] := List.ne_nil_of_length_eq_add_one more
    obtain ⟨front, last, split⟩ : ∃ front last, file.blocks = front ++ [last] :=
      ⟨_, _, (List.dropLast_append_getLast nonempty).symm⟩
    have whole := holds.whole
    rw [split] at whole length more
    have frontWhole : ∀ block ∈ front, block.length = 8192 := fun block member =>
      whole block (List.mem_append_left _ member)
    have frontLength := length_flatten frontWhole
    refine ⟨front, last, split, frontWhole, whole last (by simp), ?_, ?_⟩
    · rw [List.length_append] at more
      exact Nat.add_right_cancel more
    · rw [List.length_append, List.length_singleton] at more
      rw [kBlockSize_eq] at frontLength
      have starts := List.prefix_iff_eq_take.mp holds.starts
      rw [split, List.flatten_append, List.flatten_singleton, List.take_append,
        List.take_of_length_le (by omega)] at starts
      rw [show contents.length - front.flatten.length = contents.length % 8192 by omega] at starts
      exact starts

/-- A round of `Append` that takes some bytes, at most as many as the last block has room for. -/
theorem writeBack_holds {file : FileData} {contents data : Bytes} (holds : file.Holds contents)
    (nonempty : data ≠ []) (room : data.length ≤ kBlockSize - file.size % kBlockSize) :
    ∃ blocks, writeBack (if file.size % kBlockSize ≠ 0 then file.blocks
        else file.blocks ++ [List.replicate kBlockSize 0]) (file.size % kBlockSize) data =
          some blocks ∧
      Holds ⟨blocks, file.size + data.length⟩ (contents ++ data) := by
  obtain ⟨front, last, split, frontWhole, lastWhole, count, contentsEq⟩ := exists_last holds
  have positive := List.length_pos_iff.mpr nonempty
  have size := holds.size_eq
  refine ⟨_, by rw [split, writeBack, List.getLast?_concat, Option.map_some,
    List.dropLast_concat], ?_, ?_, ?_, ?_⟩
  · rw [List.length_append, size]
  · intro block member
    rcases List.mem_append.mp member with inFront | isLast
    · exact frontWhole block inFront
    · rw [List.mem_singleton.mp isLast]
      rw [kBlockSize_eq] at lastWhole room ⊢
      simp only [List.length_append, List.length_take, List.length_drop]
      omega
  · rw [kBlockSize_eq] at count room ⊢
    simp only [List.length_append, List.length_singleton]
    omega
  · rw [List.flatten_append, List.flatten_singleton]
    nth_rewrite 1 [contentsEq]
    simp only [List.append_assoc, List.prefix_append_right_inj]
    exact List.prefix_append _ _

theorem appendLoop_holds {file : FileData} {contents data : Bytes} (holds : file.Holds contents)
    {rounds : Nat} (enough : data.length ≤ rounds) :
    ∃ file', appendLoop rounds file data = some file' ∧ file'.Holds (contents ++ data) := by
  induction rounds generalizing file contents data with
  | zero =>
    obtain rfl := List.eq_nil_of_length_eq_zero (Nat.le_zero.mp enough)
    exact ⟨file, rfl, by rwa [List.append_nil]⟩
  | succ rounds inductionHypothesis =>
    cases data with
    | nil => exact ⟨file, by rw [appendLoop], by rwa [List.append_nil]⟩
    | cons byte rest =>
      set src := byte :: rest
      set avail := min (kBlockSize - file.size % kBlockSize) src.length with availEq
      have small := Nat.mod_lt file.size (by decide : 0 < kBlockSize)
      have srcLength : src.length = rest.length + 1 := rfl
      have taken : (src.take avail).length = avail := by
        rw [List.length_take]
        omega
      have nonempty : src.take avail ≠ [] := List.ne_nil_of_length_pos (by omega)
      obtain ⟨blocks, written, holds'⟩ := writeBack_holds holds nonempty (by omega)
      rw [taken] at holds'
      have left : (src.drop avail).length ≤ rounds := by
        rw [List.length_drop]
        omega
      obtain ⟨file', loops, holds''⟩ := inductionHypothesis holds' left
      rw [List.append_assoc, List.take_append_drop] at holds''
      refine ⟨file', ?_, holds''⟩
      rw [appendLoop]
      · simp only [← availEq, written, Option.bind_eq_bind, Option.bind_some]
        exact loops
      · exact List.cons_ne_nil byte rest

/-- `Append` appends to the string the file stands for. -/
theorem append_holds {file : FileData} {contents : Bytes} (holds : file.Holds contents)
    (data : Bytes) :
    ∃ file', file.append data = some file' ∧ file'.Holds (contents ++ data) :=
  appendLoop_holds holds le_rfl

/-! ### Reading -/

theorem copyBlocks_eq {blocks : List Bytes}
    (whole : ∀ block ∈ blocks, block.length = kBlockSize) {blockOffset bytesToCopy : Nat}
    (inBlock : blockOffset ≤ kBlockSize)
    (inside : blockOffset + bytesToCopy ≤ blocks.flatten.length) :
    copyBlocks blocks blockOffset bytesToCopy =
      some ((blocks.flatten.drop blockOffset).take bytesToCopy) := by
  induction blocks generalizing blockOffset bytesToCopy with
  | nil =>
    obtain rfl : bytesToCopy = 0 := by simp at inside; omega
    rw [copyBlocks, List.take_zero]
  | cons block rest inductionHypothesis =>
    have blockWhole := whole block List.mem_cons_self
    have restWhole := fun other member => whole other (List.mem_cons_of_mem block member)
    cases bytesToCopy with
    | zero => rw [copyBlocks, List.take_zero]
    | succ more =>
      rw [List.flatten_cons, List.length_append, blockWhole] at inside
      have blockPart : (block.drop blockOffset).take (min (kBlockSize - blockOffset) (more + 1)) =
          (block.drop blockOffset).take (more + 1) := by
        rw [← List.take_take, List.take_of_length_le]
        rw [List.length_take, List.length_drop]
        omega
      rw [copyBlocks]
      · rw [inductionHypothesis restWhole (Nat.zero_le _) (by omega), Option.map_some,
          List.drop_zero, List.flatten_cons, List.drop_append_of_le_length (by omega),
          List.take_append, List.length_drop, blockWhole, blockPart,
          show more + 1 - min (kBlockSize - blockOffset) (more + 1) =
            more + 1 - (kBlockSize - blockOffset) by omega]
      · exact Nat.succ_ne_zero more

theorem flatten_drop {blocks : List Bytes}
    (whole : ∀ block ∈ blocks, block.length = kBlockSize) {count : Nat}
    (inside : count ≤ blocks.length) :
    (blocks.drop count).flatten = blocks.flatten.drop (kBlockSize * count) := by
  have front : (blocks.take count).flatten.length = kBlockSize * count := by
    rw [length_flatten fun block member => whole block (List.mem_of_mem_take member),
      List.length_take, Nat.min_eq_left inside]
  have split : (blocks.take count).flatten ++ (blocks.drop count).flatten = blocks.flatten := by
    rw [← List.flatten_append, List.take_append_drop]
  rw [← split, List.drop_left' front]

/-- Bytes that lie in the first block are copied from it alone. -/
theorem copyBlocks_first {block : Bytes} (rest : List Bytes) {blockOffset bytesToCopy : Nat}
    (inBlock : bytesToCopy ≤ kBlockSize - blockOffset) :
    copyBlocks (block :: rest) blockOffset bytesToCopy =
      some ((block.drop blockOffset).take bytesToCopy) := by
  cases bytesToCopy with
  | zero => rw [copyBlocks, List.take_zero]
  | succ more =>
    rw [copyBlocks]
    · rw [Nat.min_eq_right inBlock, Nat.sub_self, copyBlocks, Option.map_some, List.append_nil]
    · exact Nat.succ_ne_zero more

/-- `Read` reads the string the file stands for. -/
theorem read_eq {file : FileData} {contents : Bytes} (holds : file.Holds contents)
    (offset n : Nat) :
    file.read offset n = some (if contents.length < offset then
      .error "Offset greater than file size." else .ok ((contents.drop offset).take n)) := by
  rw [read, holds.size_eq]
  by_cases behind : contents.length < offset
  · rw [if_pos behind, if_pos behind]
  · have cut : (contents.drop offset).take (min n (contents.length - offset)) =
        (contents.drop offset).take n := by
      have whole : (contents.drop offset).take (contents.length - offset) =
          contents.drop offset := List.take_of_length_le List.length_drop.le
      rw [← List.take_take, whole]
    rw [if_neg behind, if_neg behind, ← cut]
    have inside : min n (contents.length - offset) ≤ contents.length - offset :=
      Nat.min_le_right _ _
    generalize min n (contents.length - offset) = count at inside ⊢
    dsimp only
    split
    · next isZero => rw [isZero, List.take_zero]
    · next nonzero =>
      have total := length_flatten holds.whole
      have count' := holds.count
      have covered := holds.starts.length_le
      have position : offset / kBlockSize < file.blocks.length := by
        rw [kBlockSize_eq] at count' ⊢
        omega
      have divided := Nat.div_add_mod offset kBlockSize
      have tail := flatten_drop holds.whole position.le
      have copied : copyBlocks (file.blocks.drop (offset / kBlockSize)) (offset % kBlockSize)
          count = some ((contents.drop offset).take count) := by
        rw [copyBlocks_eq (fun block member => holds.whole block (List.mem_of_mem_drop member))
          (Nat.mod_lt _ (by decide)).le (by rw [tail, List.length_drop]; omega), tail,
          List.drop_drop, divided]
        obtain ⟨behindFile, split⟩ := holds.starts
        rw [← split, List.drop_append_of_le_length (not_lt.mp behind),
          List.take_append_of_le_length (by rwa [List.length_drop])]
      split
      · next inBlock =>
        rw [List.drop_eq_getElem_cons position, copyBlocks_first _ inBlock] at copied
        rw [List.getElem?_eq_getElem position, Option.map_some, Option.some.inj copied]
      · rw [copied, Option.map_some]

end FileData

end LevelDb
