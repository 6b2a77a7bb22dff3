/-
This file models `WinFile` (`util/env_win`) over the `std::ofstream` it writes to, which does not
throw: a call that fails sets the state of the stream, in which later calls do nothing. Only `Append`
looks at that state.

A call of the stream that fails hands over some of the bytes it has to, and loses the rest. A write
that succeeds may leave bytes in the buffer of the stream.
-/

import LevelDb.Coding
import LevelDb.Lib.Run

namespace LevelDb

/-! ### The stream -/

/-- What becomes of a call of the stream: how many bytes it hands to the operating system, and
whether it fails then if there are more. -/
structure StreamResult where
  handed : Nat
  fails : Bool
  deriving DecidableEq, Repr

/-- A `WinFile`, by the state of its stream: the bytes in the buffer, and those that were handed to
the operating system. `appended` is not in the source: it records the bytes of all `Append` calls. -/
structure WinFile where
  isOpen : Bool
  good : Bool
  pending : Bytes
  handed : Bytes
  appended : Bytes
  deriving DecidableEq, Repr

namespace WinFile

/-- A call of the stream fails before it has handed over some bytes. -/
def StreamFails (result : StreamResult) (bytes : Bytes) : Prop :=
  result.fails = true ∧ result.handed < bytes.length

instance (result : StreamResult) (bytes : Bytes) : Decidable (StreamFails result bytes) :=
  inferInstanceAs (Decidable (_ ∧ _))

/-- The stream after a failure. -/
def fail (file : WinFile) (bytes : Bytes) (result : StreamResult) : WinFile :=
  { file with
    good := false
    pending := []
    handed := file.handed ++ bytes.take result.handed }

/-- `file_.write`. -/
def write (file : WinFile) (data : Bytes) (result : StreamResult) : WinFile :=
  if file.good then
    if file.isOpen then
      let bytes := file.pending ++ data
      if StreamFails result bytes then file.fail bytes result
      else
        { file with
          pending := bytes.drop result.handed
          handed := file.handed ++ bytes.take result.handed }
    else if data = [] then file
    else { file with good := false }
  else file

/-- `file_.flush`. -/
def flushStream (file : WinFile) (result : StreamResult) : WinFile :=
  if file.good then
    if StreamFails result file.pending then file.fail file.pending result
    else { file with pending := [], handed := file.handed ++ file.pending }
  else file

/-- `file_.close`: it tries to write what is in the buffer whatever the state is. -/
def closeStream (file : WinFile) (result : StreamResult) : WinFile :=
  let emptied :=
    if StreamFails result file.pending then file.fail file.pending result
    else { file with pending := [], handed := file.handed ++ file.pending }
  { emptied with isOpen := false }

/-! ### The calls -/

/-- `NewWritableFile`, which is always OK: whether its stream could be opened is not looked at. -/
def newWritableFile (opens : Bool) : Bool × WinFile := (true, ⟨opens, opens, [], [], []⟩)

/-- A call, and what becomes of those of the stream. -/
inductive Call
  | append (data : Bytes) (result : StreamResult)
  | flush
  | sync (flushed : StreamResult)
  | close (flushed closed : StreamResult)
  deriving DecidableEq, Repr

/-- One call: whether it returns OK, and the file. The stream does not throw, so no `catch` is
reached. -/
def call (file : WinFile) : Call → Bool × WinFile
  | .append data result =>
    let written := { file with appended := file.appended ++ data }.write data result
    (written.good, written)
  | .flush => (true, file)
  | .sync flushed => (true, file.flushStream flushed)
  | .close flushed closed =>
    if file.isOpen then (true, (file.flushStream flushed).closeStream closed) else (true, file)

def step (file : WinFile) (call : Call) : Option WinFile := some (file.call call).2

/-- A `Sync` or `Close` that returns OK has handed over all bytes that were appended. -/
def Honest (file : WinFile) : Call → Prop
  | .sync flushed => (file.call (.sync flushed)).1 = true →
    (file.call (.sync flushed)).2.handed = (file.call (.sync flushed)).2.appended
  | .close flushed closed => (file.call (.close flushed closed)).1 = true →
    (file.call (.close flushed closed)).2.handed = (file.call (.close flushed closed)).2.appended
  | _ => True

/-- No call of the stream failed before a `Sync` or `Close`, and none fails in it. -/
def Delivers (file : WinFile) : Call → Prop
  | .sync flushed => file.good = true ∧ ¬ StreamFails flushed file.pending
  | .close flushed _ => file.good = true ∧ ¬ StreamFails flushed file.pending
  | _ => True

/-! ### What holds between the calls -/

/-- As long as the stream is good, the bytes that were appended are those handed over and those in
the buffer, which is empty when the file is closed. After a failure some are lost. -/
structure Inv (file : WinFile) : Prop where
  whole : file.good = true → file.appended = file.handed ++ file.pending
  lost : file.good = false → file.handed.length < file.appended.length ∧ file.pending = []
  closed : file.isOpen = false → file.pending = []

theorem inv_new : Inv (newWritableFile true).2 :=
  ⟨fun _ => rfl, fun isBad => absurd isBad (by decide), fun isClosed => absurd isClosed (by decide)⟩

variable {file : WinFile}

theorem Inv.fail (inv : file.Inv) (isGood : file.good = true) {result : StreamResult}
    (fails : StreamFails result file.pending) : Inv (file.fail file.pending result) := by
  refine ⟨nofun, fun _ => ⟨?_, rfl⟩, fun _ => rfl⟩
  show (file.handed ++ file.pending.take result.handed).length < file.appended.length
  rw [inv.whole isGood, List.length_append, List.length_append, List.length_take]
  exact Nat.add_lt_add_left ((min_le_left _ _).trans_lt fails.2) _

theorem Inv.flushStream (inv : file.Inv) (result : StreamResult) : Inv (file.flushStream result) := by
  rw [WinFile.flushStream]
  split
  · next isGood =>
    split
    · next fails => exact inv.fail isGood fails
    · refine ⟨fun _ => ?_, fun isBad => absurd (isGood.symm.trans isBad) (by decide), fun _ => rfl⟩
      exact (inv.whole isGood).trans (List.append_nil _).symm
  · exact inv

theorem pending_flushStream (inv : file.Inv) (result : StreamResult) :
    (file.flushStream result).pending = [] := by
  rw [WinFile.flushStream]
  split
  · split
    · rfl
    · rfl
  · next isBad => exact (inv.lost (Bool.eq_false_iff.mpr isBad)).2

theorem not_streamFails_nil (result : StreamResult) : ¬ StreamFails result [] := fun fails =>
  Nat.not_lt_zero _ fails.2

/-- With nothing in the buffer, closing the stream changes nothing else. -/
theorem closeStream_of_pending_nil (empty : file.pending = []) (result : StreamResult) :
    file.closeStream result = { file with isOpen := false } := by
  rw [closeStream, empty, if_neg (not_streamFails_nil result)]
  dsimp only
  rw [List.append_nil, ← empty]

theorem close_eq (inv : file.Inv) (isOpen : file.isOpen = true) (flushed closed : StreamResult) :
    file.call (.close flushed closed) =
      (true, { file.flushStream flushed with isOpen := false }) := by
  rw [call, if_pos isOpen, closeStream_of_pending_nil (pending_flushStream inv flushed)]

theorem Inv.write (inv : file.Inv) (data : Bytes) (result : StreamResult) :
    Inv ({ file with appended := file.appended ++ data }.write data result) := by
  rw [WinFile.write]
  dsimp only
  by_cases isGood : file.good = true
  · rw [if_pos isGood]
    have whole := inv.whole isGood
    by_cases isOpen : file.isOpen = true
    · rw [if_pos isOpen]
      have started : Inv { file with
          pending := file.pending ++ data
          appended := file.appended ++ data } := by
        refine ⟨fun _ => ?_, fun isBad => absurd (isGood.symm.trans isBad) (by decide),
          fun isClosed => absurd (isOpen.symm.trans isClosed) (by decide)⟩
        show file.appended ++ data = file.handed ++ (file.pending ++ data)
        rw [whole, List.append_assoc]
      split
      · next fails => exact started.fail isGood fails
      · refine ⟨fun _ => ?_, fun isBad => absurd (isGood.symm.trans isBad) (by decide),
          fun isClosed => absurd (isOpen.symm.trans isClosed) (by decide)⟩
        show file.appended ++ data = file.handed ++ (file.pending ++ data).take result.handed ++
          (file.pending ++ data).drop result.handed
        rw [List.append_assoc, List.take_append_drop]
        exact started.whole isGood
    · rw [if_neg isOpen]
      have isClosed := inv.closed (Bool.eq_false_iff.mpr isOpen)
      by_cases empty : data = []
      · rw [if_pos empty, empty, List.append_nil]
        exact inv
      · rw [if_neg empty]
        refine ⟨nofun, fun _ => ⟨?_, isClosed⟩, fun _ => isClosed⟩
        show file.handed.length < (file.appended ++ data).length
        rw [whole, isClosed, List.append_nil, List.length_append]
        exact Nat.lt_add_of_pos_right (List.length_pos_of_ne_nil empty)
  · rw [if_neg isGood]
    obtain ⟨fewer, empty⟩ := inv.lost (Bool.eq_false_iff.mpr isGood)
    refine ⟨fun impossible => absurd impossible isGood, fun _ => ⟨?_, empty⟩, fun _ => empty⟩
    show file.handed.length < (file.appended ++ data).length
    rw [List.length_append]
    exact Nat.lt_add_right _ fewer

/-- Every call keeps the invariant. -/
theorem Inv.step (inv : file.Inv) (request : Call) : Inv (file.call request).2 := by
  cases request with
  | append data result => exact inv.write data result
  | flush => exact inv
  | sync flushed => exact inv.flushStream flushed
  | close flushed closed =>
    by_cases isOpen : file.isOpen = true
    · rw [close_eq inv isOpen]
      have flushedInv := inv.flushStream flushed
      exact ⟨flushedInv.whole, flushedInv.lost, fun _ => pending_flushStream inv flushed⟩
    · rw [call, if_neg isOpen]
      exact inv

/-! ### When the calls tell the truth -/

theorem handed_flushStream_iff (inv : file.Inv) (result : StreamResult) :
    (file.flushStream result).handed = (file.flushStream result).appended ↔
      file.good = true ∧ ¬ StreamFails result file.pending := by
  have flushedInv := inv.flushStream result
  have empty := pending_flushStream inv result
  have isGood : (file.flushStream result).good = true ↔
      file.good = true ∧ ¬ StreamFails result file.pending := by
    rw [WinFile.flushStream]
    split
    · next isGood =>
      split
      · next fails => exact iff_of_false nofun fun both => both.2 fails
      · next succeeds => exact iff_of_true isGood ⟨isGood, succeeds⟩
    · next isBad => exact iff_of_false isBad fun both => isBad both.1
  rw [← isGood]
  refine ⟨fun same => ?_, fun good => ?_⟩
  · by_contra isBad
    exact (flushedInv.lost (Bool.eq_false_iff.mpr isBad)).1.ne (congrArg List.length same)
  · rw [flushedInv.whole good, empty, List.append_nil]

/-- `NewWritableFile` tells the truth exactly if the stream opens the file. After every sequence of
calls on a file that was opened, `Sync` and `Close` tell the truth exactly if no call of the stream
failed before and none fails in them. -/
theorem calls_honest_iff (opens : Bool) :
    (((newWritableFile opens).1 = true → (newWritableFile opens).2.isOpen = true) ↔ opens = true) ∧
      ∀ file, Lib.Reachable step (fun _ _ => True) (newWritableFile true).2 file →
        ∀ request, file.Honest request ↔ file.Delivers request := by
  refine ⟨⟨fun honest => honest rfl, fun isOpen _ => isOpen⟩, fun file reachable request => ?_⟩
  have inv : file.Inv := by
    refine reachable.invariant inv_new fun state action state' inv _ taken => ?_
    obtain rfl := Option.some.inj taken
    exact inv.step action
  cases request with
  | append data result => exact Iff.rfl
  | flush => exact Iff.rfl
  | sync flushed =>
    rw [Honest, Delivers, ← handed_flushStream_iff inv flushed]
    exact forall_prop_of_true rfl
  | close flushed closed =>
    rw [Honest, Delivers]
    by_cases isOpen : file.isOpen = true
    · rw [close_eq inv isOpen, ← handed_flushStream_iff inv flushed]
      exact forall_prop_of_true rfl
    · have empty := inv.closed (Bool.eq_false_iff.mpr isOpen)
      rw [call, if_neg isOpen, empty, and_iff_left (not_streamFails_nil flushed)]
      refine ⟨fun honest => ?_, fun isGood _ => ?_⟩
      · by_contra isBad
        exact (inv.lost (Bool.eq_false_iff.mpr isBad)).1.ne (congrArg List.length (honest rfl))
      · rw [inv.whole isGood, empty, List.append_nil]

theorem calls_honest_iff_synced :
    Honest ((newWritableFile true).2.call (.append [1, 2] ⟨1, false⟩)).2 (.sync ⟨0, false⟩) := by
  have reachable : Lib.Reachable step (fun _ _ => True) (newWritableFile true).2
      ((newWritableFile true).2.call (.append [1, 2] ⟨1, false⟩)).2 :=
    .next (.append [1, 2] ⟨1, false⟩) .refl trivial rfl
  exact ((calls_honest_iff true).2 _ reachable _).mpr (by unfold Delivers; decide)

/-- The stream does not open, and `NewWritableFile` returns OK; a flush fails, and `Sync` and `Close`
return OK. -/
theorem calls_lie :
    ((newWritableFile false).1 = true ∧ (newWritableFile false).2.isOpen = false) ∧
      let file := ((newWritableFile true).2.call (.append [1, 2] ⟨0, false⟩)).2
      let synced := file.call (.sync ⟨1, true⟩)
      let closed := file.call (.close ⟨1, true⟩ ⟨0, false⟩)
      (synced.1 = true ∧ synced.2.handed = [1] ∧ synced.2.appended = [1, 2]) ∧
        closed.1 = true ∧ closed.2.handed = [1] ∧ closed.2.appended = [1, 2] := by
  decide

end WinFile

end LevelDb
