/-
This file models `ZstdCompressor::decompress`. zstd itself is a parameter: `ZSTD_decompress` fails
on an input that is no valid frame and on a buffer that is too small, and the loop cannot tell the
two apart. It tries again with a buffer ten times as large, in the 64 bits of a `size_t`.
-/

import LevelDb.Coding
import LevelDb.Lib.Loop

namespace LevelDb

open Lib (loop EndsWith)

/-- `ZSTD_decompress`: given the capacity of the buffer and the input it returns what it writes, or
an error. -/
abbrev ZstdDecompress := Nat → Bytes → Option Bytes

/-- `ZSTD_decompress` returns an error exactly when the input is no valid frame or the buffer is too
small for its contents. -/
def ZstdDecompress.Decodes (zstd : ZstdDecompress) (frame : Bytes → Option Bytes) : Prop :=
  ∀ capacity input content,
    zstd capacity input = some content ↔ frame input = some content ∧ content.length ≤ capacity

/-- How `decompress` ends: it returns with its output, `resize` throws, or a size that wrapped
around makes zstd write behind the output. -/
inductive DecompressEnd
  | returned (success : Bool) (output : Bytes)
  | threw
  | outside
  deriving DecidableEq, Repr

namespace ZstdCompressor

variable (zstd : ZstdDecompress) (maxSize : Nat) (input output : Bytes)

/-- A round of the loop of `decompress`, on `bufsize`. A string can be resized to `maxSize` bytes.
What a failed try leaves behind the output is cut off by the try that succeeds. -/
def round (bufsize : Nat) : Nat ⊕ DecompressEnd :=
  let bufsize := bufsize * 10 % 2 ^ 64
  let size := (output.length + bufsize) % 2 ^ 64
  if maxSize < size then .inr .threw
  else if size < bufsize then .inr .outside
  else
    match zstd bufsize input with
    | some content =>
      let resized := output ++ content ++ List.replicate (bufsize - content.length) 0
      .inr (.returned true (resized.take (content.length + output.length)))
    | none => .inl bufsize

/-- `decompress`, for at most so many rounds. -/
def decompress (rounds : Nat) : Option DecompressEnd :=
  loop (round zstd maxSize input output) rounds input.length

/-- What is promised of `decompress`: it ends, with the contents of a valid frame appended to the
output, and with false for any other input. -/
def Decompresses (frame : Bytes → Option Bytes) : Prop :=
  match frame input with
  | some content =>
    EndsWith (decompress zstd maxSize input output) (.returned true (output ++ content))
  | none => ∃ output', EndsWith (decompress zstd maxSize input output) (.returned false output')

/-- The size of the buffer in a try, counted from one. -/
def bufsize (try' : Nat) : Nat := input.length * 10 ^ try' % 2 ^ 64

/-- A try has room for the contents, and the output can be resized for it and for those before. -/
def RoomIn (content : Bytes) (try' : Nat) : Prop :=
  1 ≤ try' ∧ content.length ≤ bufsize input try' ∧
    ∀ other, 1 ≤ other → other ≤ try' → output.length + bufsize input other ≤ maxSize

variable {zstd maxSize input output}

/-- A round throws or leaves the output unless it can be resized; otherwise it returns what zstd
makes of the input, or goes on. -/
theorem round_cases (small : output.length ≤ maxSize) (sized : maxSize < 2 ^ 64) (size : Nat) :
    ¬ output.length + size * 10 % 2 ^ 64 ≤ maxSize ∧
        (round zstd maxSize input output size = .inr .threw ∨
          round zstd maxSize input output size = .inr .outside) ∨
      output.length + size * 10 % 2 ^ 64 ≤ maxSize ∧
        ((∃ content, zstd (size * 10 % 2 ^ 64) input = some content ∧
            round zstd maxSize input output size = .inr (.returned true (output ++ content))) ∨
          zstd (size * 10 % 2 ^ 64) input = none ∧
            round zstd maxSize input output size = .inl (size * 10 % 2 ^ 64)) := by
  have wraps := Nat.mod_lt (size * 10) (by decide : 0 < 2 ^ 64)
  unfold round
  generalize size * 10 % 2 ^ 64 = bufsize at wraps ⊢
  dsimp only
  by_cases room : output.length + bufsize ≤ maxSize
  · have whole : (output.length + bufsize) % 2 ^ 64 = output.length + bufsize :=
      Nat.mod_eq_of_lt (room.trans_lt sized)
    refine Or.inr ⟨room, ?_⟩
    rw [whole, if_neg (not_lt.mpr room), if_neg (not_lt.mpr (Nat.le_add_left _ _))]
    cases zstd bufsize input with
    | none => exact Or.inr ⟨rfl, rfl⟩
    | some content =>
      refine Or.inl ⟨content, rfl, ?_⟩
      dsimp only
      rw [List.take_left' (by rw [List.length_append, Nat.add_comm])]
  · refine Or.inl ⟨room, ?_⟩
    split
    · exact Or.inl rfl
    · next resizes =>
      refine Or.inr (if_pos ?_)
      omega

theorem bufsize_succ {size try' : Nat} (same : size % 2 ^ 64 = bufsize input try') :
    size * 10 % 2 ^ 64 = bufsize input (try' + 1) := by
  have congruent : Nat.ModEq (2 ^ 64) size (input.length * 10 ^ try') := same
  exact (congruent.mul_right 10).trans (by rw [pow_succ 10, Nat.mul_assoc])

/-- A run that returns has come to a try that zstd has taken, and could resize the output for every
try up to it. -/
theorem exists_try_of_returned (small : output.length ≤ maxSize) (sized : maxSize < 2 ^ 64)
    {rounds size before : Nat} (same : size % 2 ^ 64 = bufsize input before) {success : Bool}
    {output' : Bytes} (ends : loop (round zstd maxSize input output) rounds size =
      some (.returned success output')) :
    ∃ try' content, before < try' ∧ zstd (bufsize input try') input = some content ∧
      success = true ∧ output' = output ++ content ∧
      ∀ other, before < other → other ≤ try' → output.length + bufsize input other ≤ maxSize := by
  induction rounds generalizing size before with
  | zero => cases ends
  | succ rounds inductionHypothesis =>
    have next := bufsize_succ same
    rcases round_cases small sized size with
      ⟨_, threw | outside⟩ | ⟨room, ⟨content, taken, returned⟩ | ⟨failed, again⟩⟩
    · rw [Lib.loop_succ_of_result threw] at ends
      cases ends
    · rw [Lib.loop_succ_of_result outside] at ends
      cases ends
    · rw [Lib.loop_succ_of_result returned] at ends
      cases ends
      rw [next] at room taken
      refine ⟨before + 1, content, Nat.lt_succ_self before, taken, rfl, rfl,
        fun other after upTo => ?_⟩
      rwa [le_antisymm upTo after]
    · rw [Lib.loop_succ_of_next again] at ends
      rw [next] at room ends
      obtain ⟨try', content, later, taken, succeeded, equal, rooms⟩ :=
        inductionHypothesis (Nat.mod_mod _ _) ends
      refine ⟨try', content, Nat.lt_of_succ_lt later, taken, succeeded, equal,
        fun other after upTo => ?_⟩
      rcases Nat.lt_or_eq_of_le after with further | isNext
      · exact rooms other further upTo
      · exact isNext ▸ room

/-- A try that the output can be resized for returns the contents of a valid frame, or its buffer
was too small for them. -/
theorem round_of_room {frame : Bytes → Option Bytes} (decodes : zstd.Decodes frame)
    (small : output.length ≤ maxSize) (sized : maxSize < 2 ^ 64) {content : Bytes}
    (isFrame : frame input = some content) {before size : Nat}
    (same : size % 2 ^ 64 = bufsize input before)
    (room : output.length + bufsize input (before + 1) ≤ maxSize) :
    round zstd maxSize input output size = .inr (.returned true (output ++ content)) ∨
      ¬ content.length ≤ bufsize input (before + 1) ∧
        round zstd maxSize input output size = .inl (bufsize input (before + 1)) := by
  rw [← bufsize_succ same] at room ⊢
  rcases @round_cases zstd maxSize input output small sized size with
    ⟨noRoom, _⟩ | ⟨_, ⟨content', taken, returned⟩ | ⟨failed, again⟩⟩
  · exact absurd room noRoom
  · obtain rfl := Option.some.inj (isFrame.symm.trans ((decodes _ _ _).mp taken).1)
    exact Or.inl returned
  · refine Or.inr ⟨fun enough => ?_, again⟩
    rw [(decodes _ _ _).mpr ⟨isFrame, enough⟩] at failed
    cases failed

/-- A run returns when it can resize the output up to a try that has room for the contents. -/
theorem loop_of_rooms {frame : Bytes → Option Bytes} (decodes : zstd.Decodes frame)
    (small : output.length ≤ maxSize) (sized : maxSize < 2 ^ 64) {content : Bytes}
    (isFrame : frame input = some content) {before more size : Nat}
    (same : size % 2 ^ 64 = bufsize input before)
    (enough : content.length ≤ bufsize input (before + more + 1))
    (rooms : ∀ other, before < other → other ≤ before + more + 1 →
      output.length + bufsize input other ≤ maxSize) :
    EndsWith (fun rounds => loop (round zstd maxSize input output) rounds size)
      (.returned true (output ++ content)) := by
  induction more generalizing before size with
  | zero =>
    rcases round_of_room decodes small sized isFrame same
      (rooms (before + 1) (Nat.lt_succ_self before) le_rfl) with returned | ⟨tooSmall, _⟩
    · exact Lib.endsWith_loop_of_result returned
    · exact absurd enough tooSmall
  | succ more inductionHypothesis =>
    rcases round_of_room decodes small sized isFrame same
      (rooms (before + 1) (Nat.lt_succ_self before) (by omega)) with returned | ⟨_, again⟩
    · exact Lib.endsWith_loop_of_result returned
    · have shifted : before + 1 + more + 1 = before + (more + 1) + 1 := by omega
      refine Lib.endsWith_loop_of_next again (inductionHypothesis (Nat.mod_mod _ _) ?_ ?_)
      · rwa [shifted]
      · exact fun other after upTo => rooms other (Nat.lt_of_succ_lt after) (shifted ▸ upTo)

/-- `decompress` keeps its promise exactly on valid frames for which some try has room: the size of
the buffer, ten times as large in every try and taken modulo 2^64, reaches the contents, and the
output can be resized for every try up to that one. -/
theorem decompresses_iff {frame : Bytes → Option Bytes} (decodes : zstd.Decodes frame)
    (small : output.length ≤ maxSize) (sized : maxSize < 2 ^ 64) :
    Decompresses zstd maxSize input output frame ↔
      ∃ content, frame input = some content ∧
        ∃ try', RoomIn maxSize input output content try' := by
  have start : input.length % 2 ^ 64 = bufsize input 0 := by rw [bufsize, pow_zero, Nat.mul_one]
  unfold Decompresses
  cases isFrame : frame input with
  | none =>
    refine iff_of_false ?_ (by simp)
    rintro ⟨output', ends⟩
    obtain ⟨rounds, returned⟩ := Lib.exists_loop_of_endsWith ends
    obtain ⟨_, _, _, _, failed, _⟩ := exists_try_of_returned small sized start returned
    cases failed
  | some content =>
    simp only [Option.some.injEq, exists_eq_left']
    constructor
    · intro ends
      obtain ⟨rounds, returned⟩ := Lib.exists_loop_of_endsWith ends
      obtain ⟨try', content', later, taken, _, _, rooms⟩ :=
        exists_try_of_returned small sized start returned
      obtain ⟨isFrame', enough⟩ := (decodes _ _ _).mp taken
      obtain rfl := Option.some.inj (isFrame.symm.trans isFrame')
      exact ⟨try', later, enough, rooms⟩
    · rintro ⟨try', later, enough, rooms⟩
      obtain ⟨more, rfl⟩ := Nat.exists_eq_add_of_le' later
      rw [← Nat.zero_add more] at enough rooms
      exact loop_of_rooms decodes small sized isFrame start enough rooms

/-- A frame of zstd with one block, which holds the byte "a" as it is. -/
def rawFrame : Bytes := [0x28, 0xb5, 0x2f, 0xfd, 0x20, 0x01, 0x09, 0x00, 0x00, 0x61]

theorem decompresses_rawFrame :
    Decompresses
      (fun capacity input => if input = rawFrame ∧ 1 ≤ capacity then some [0x61] else none)
      (2 ^ 63 - 1) rawFrame [0x62] fun input => if input = rawFrame then some [0x61] else none := by
  refine (decompresses_iff ?_ (by decide) (by decide)).mpr
    ⟨[0x61], by decide, 1, le_rfl, by decide, fun other atLeast atMost => ?_⟩
  · intro capacity input content
    by_cases isFrame : input = rawFrame
    · by_cases room : 1 ≤ capacity
      · simp only [isFrame, room, and_self, if_true, Option.some.injEq, iff_self_and]
        rintro rfl
        exact room
      · simp only [isFrame, room, and_false, if_false, if_true, Option.some.injEq, reduceCtorEq,
          false_iff, not_and]
        rintro rfl
        exact room
    · simp [isFrame]
  · rw [le_antisymm atMost atLeast]
    decide

/-- The input of one zero byte is no frame, and every try fails until the output cannot be resized
for the next one. -/
theorem not_decompresses_zero :
    (ZstdDecompress.Decodes (fun _ _ => none) fun _ => none) ∧
      decompress (fun _ _ => none) (2 ^ 63 - 1) [0x00] [] 19 = some .threw ∧
      ¬ Decompresses (fun _ _ => none) (2 ^ 63 - 1) [0x00] [] fun _ => none := by
  refine ⟨fun _ _ _ => by simp, by decide +kernel, ?_⟩
  rintro ⟨output', ends⟩
  obtain ⟨rounds, returned⟩ := Lib.exists_loop_of_endsWith ends
  have start : [0x00].length % 2 ^ 64 = bufsize [0x00] 0 := by decide
  obtain ⟨_, _, _, taken, _⟩ :=
    exists_try_of_returned (by decide) (by decide) start returned
  cases taken

/-- An empty input that zstd refuses keeps the buffer empty, and the loop never ends. -/
theorem decompress_nil_eq_none (refused : zstd 0 [] = none) (small : output.length ≤ maxSize)
    (sized : maxSize < 2 ^ 64) (rounds : Nat) :
    decompress zstd maxSize [] output rounds = none := by
  refine Lib.loop_eq_none_of_stuck ?_ (rfl : (0 : Nat) = 0) rounds
  rintro size rfl
  refine ⟨0, ?_, rfl⟩
  rcases @round_cases zstd maxSize [] output small sized 0 with
    ⟨noRoom, _⟩ | ⟨_, ⟨content, taken, _⟩ | ⟨_, again⟩⟩
  · exact absurd small noRoom
  · rw [show 0 * 10 % 2 ^ 64 = 0 from rfl, refused] at taken
    cases taken
  · exact again

end ZstdCompressor

end LevelDb
