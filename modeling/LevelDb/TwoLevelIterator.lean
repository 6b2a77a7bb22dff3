/-
This file models `TwoLevelIterator` (`table/two_level_iterator`) over an index that is a cursor and
blocks that are opened by their handles, and proves that it is a cursor over the blocks that can be
read, one after the other. A block that does not open has an iterator that is never valid and has an
error for its status; its error is kept when the iterator moves on.
-/

import LevelDb.Coding
import LevelDb.Lib.Run
import LevelDb.Lib.Separated

namespace LevelDb

open Lib

variable {ι δ κ ν ε : Type} [LinearOrder κ]

/-- What a `TwoLevelIterator` is made of: the iterator over the index, and the iterators over blocks
that `block_function_` makes of a handle. A block that does not open gives its error. -/
structure Levels (ι δ κ ν ε : Type) where
  index : Iterator ι κ Bytes
  indexStatus : ι → Option ε
  data : Iterator δ κ ν
  dataStatus : δ → Option ε
  blockFunction : Bytes → Except ε δ

/-- The state of a `TwoLevelIterator`. An iterator over a block that did not open is its error, and
`status` is `none` when it is OK. `opened` is not in the source: it records the handles for which
`block_function_` was called. -/
structure TwoLevelIterator (ι δ ε : Type) where
  index : ι
  data : Option (Except ε δ)
  dataBlockHandle : Bytes
  status : Option ε
  opened : List Bytes

namespace TwoLevelIterator

/-- The constructor. -/
def new (index : ι) : TwoLevelIterator ι δ ε := ⟨index, none, [], none, []⟩

variable (levels : Levels ι δ κ ν ε)

/-- The entry of the iterator over a block. -/
def dataEntry : Except ε δ → Option (κ × ν)
  | .error _ => none
  | .ok data => levels.data.current data

/-- The status of the iterator over a block. -/
def dataStatus : Except ε δ → Option ε
  | .error error => some error
  | .ok data => levels.dataStatus data

/-- The entry that the iterator stands on; it is valid when it stands on one. -/
def entry (it : TwoLevelIterator ι δ ε) : Option (κ × ν) := it.data.bind (dataEntry levels)

/-- `status()`. -/
def getStatus (it : TwoLevelIterator ι δ ε) : Option ε :=
  (levels.indexStatus it.index).or ((it.data.bind (dataStatus levels)).or it.status)

/-- `SaveError`. -/
def saveError (it : TwoLevelIterator ι δ ε) (status : Option ε) : TwoLevelIterator ι δ ε :=
  { it with status := it.status.or status }

/-- `SetDataIterator`. -/
def setDataIterator (it : TwoLevelIterator ι δ ε) (data : Option (Except ε δ)) :
    TwoLevelIterator ι δ ε :=
  match it.data with
  | some old => { it.saveError (dataStatus levels old) with data := data }
  | none => { it with data := data }

/-- `InitDataBlock`. -/
def initDataBlock (it : TwoLevelIterator ι δ ε) : TwoLevelIterator ι δ ε :=
  match levels.index.current it.index with
  | none => it.setDataIterator levels none
  | some (_, handle) =>
    if it.data.isSome ∧ handle = it.dataBlockHandle then it
    else
      { it with dataBlockHandle := handle, opened := it.opened ++ [handle] }.setDataIterator levels
        (some (levels.blockFunction handle))

/-- A call on the iterator over the block, if there is one. -/
def callData (it : TwoLevelIterator ι δ ε) (call : CursorCall κ) : TwoLevelIterator ι δ ε :=
  { it with data := it.data.map fun data => data.map fun state => levels.data.call state call }

/-- A call on the iterator over the index. -/
def callIndex (it : TwoLevelIterator ι δ ε) (call : CursorCall κ) : TwoLevelIterator ι δ ε :=
  { it with index := levels.index.call it.index call }

/-- The loop of `SkipEmptyDataBlocksForward` and `SkipEmptyDataBlocksBackward`, for a number of
rounds: move on in the index and to one end of the next block. -/
def skipEmptyDataBlocks (indexCall dataCall : CursorCall κ) :
    Nat → TwoLevelIterator ι δ ε → Option (TwoLevelIterator ι δ ε)
  | 0, _ => none
  | rounds + 1, it =>
    if (it.entry levels).isSome then some it
    else if (levels.index.current it.index).isNone then some (it.setDataIterator levels none)
    else
      skipEmptyDataBlocks indexCall dataCall rounds
        (((it.callIndex levels indexCall).initDataBlock levels).callData levels dataCall)

/-- `SkipEmptyDataBlocksForward`. -/
def skipEmptyDataBlocksForward (rounds : Nat) (it : TwoLevelIterator ι δ ε) :
    Option (TwoLevelIterator ι δ ε) :=
  skipEmptyDataBlocks levels .next .seekToFirst rounds it

/-- `SkipEmptyDataBlocksBackward`. -/
def skipEmptyDataBlocksBackward (rounds : Nat) (it : TwoLevelIterator ι δ ε) :
    Option (TwoLevelIterator ι δ ε) :=
  skipEmptyDataBlocks levels .prev .seekToLast rounds it

/-- One call, with a number of rounds for its loop. `Next` and `Prev` assert that the iterator is
valid. -/
def step (rounds : Nat) (it : TwoLevelIterator ι δ ε) :
    CursorCall κ → Option (TwoLevelIterator ι δ ε)
  | .seek target =>
    (((it.callIndex levels (.seek target)).initDataBlock levels).callData levels
      (.seek target)).skipEmptyDataBlocksForward levels rounds
  | .seekToFirst =>
    (((it.callIndex levels .seekToFirst).initDataBlock levels).callData levels
      .seekToFirst).skipEmptyDataBlocksForward levels rounds
  | .seekToLast =>
    (((it.callIndex levels .seekToLast).initDataBlock levels).callData levels
      .seekToLast).skipEmptyDataBlocksBackward levels rounds
  | .next =>
    if (it.entry levels).isSome then
      (it.callData levels .next).skipEmptyDataBlocksForward levels rounds
    else none
  | .prev =>
    if (it.entry levels).isSome then
      (it.callData levels .prev).skipEmptyDataBlocksBackward levels rounds
    else none

/-! ### What holds between the calls -/

/-- The bindings that can be read under a handle: none when the block does not open. -/
def readable (lists : Bytes → List (κ × ν)) (handle : Bytes) : List (κ × ν) :=
  match levels.blockFunction handle with
  | .error _ => []
  | .ok _ => lists handle

/-- What the iterators are over: the index, and the bindings of the block under each handle. -/
structure Contents (ι δ κ ν : Type) where
  isOverIndex : ι → List (κ × Bytes) → Prop
  isOverData : δ → List (κ × ν) → Prop
  index : List (κ × Bytes)
  lists : Bytes → List (κ × ν)

variable (contents : Contents ι δ κ ν)

/-- The index and the blocks are cursors over an index of separators and the blocks it divides. -/
structure Reads : Prop where
  indexCursor : levels.index.IsCursor contents.isOverIndex
  dataCursor : levels.data.IsCursor contents.isOverData
  opens : ∀ entry ∈ contents.index, ∀ data, levels.blockFunction entry.2 = .ok data →
    contents.isOverData data (contents.lists entry.2)
  separated : Separated contents.index (readable levels contents.lists)

/-- An iterator is one over the block of a handle. -/
def IsBlock (handle : Bytes) : Except ε δ → Prop
  | .error error => levels.blockFunction handle = .error error
  | .ok data =>
    (∃ opened, levels.blockFunction handle = .ok opened) ∧
      contents.isOverData data (contents.lists handle)

/-- What the iterator keeps: an iterator over a block is one over the block of the handle it keeps,
and the error of a block that did not open is the status or that of the current block. -/
structure Sound (it : TwoLevelIterator ι δ ε) : Prop where
  overIndex : contents.isOverIndex it.index contents.index
  isBlock : ∀ data ∈ it.data, IsBlock levels contents it.dataBlockHandle data
  failed : ∀ handle ∈ it.opened, ∀ error, levels.blockFunction handle = .error error →
    it.status.isSome ∨ ∃ error, it.data = some (.error error)

/-- The iterator stands on the first of some entries of the index, over its block. -/
structure AtHead (suffix : List (κ × Bytes)) (it : TwoLevelIterator ι δ ε) : Prop
    extends Sound levels contents it where
  current : levels.index.current it.index = suffix.head?
  closed : suffix = [] → it.data = none
  isOpen : ∀ entry ∈ suffix.head?, it.data.isSome ∧ it.dataBlockHandle = entry.2

/-- The iterator stands on an entry of a block, or has no block. -/
structure StandsOn (position : Option (κ × ν)) (it : TwoLevelIterator ι δ ε) : Prop
    extends Sound levels contents it where
  entry : it.entry levels = position
  closed : position = none → it.data = none
  inBlock : position.isSome → ∃ entry ∈ contents.index,
    levels.index.current it.index = some entry ∧ it.dataBlockHandle = entry.2

variable {levels contents} {suffix : List (κ × Bytes)} {it : TwoLevelIterator ι δ ε}

/-! ### The operations -/

section Operations

variable (data : Option (Except ε δ))

omit [LinearOrder κ] in
@[simp] theorem setDataIterator_index : (it.setDataIterator levels data).index = it.index := by
  cases h : it.data <;> simp [setDataIterator, saveError, h]

omit [LinearOrder κ] in
@[simp] theorem setDataIterator_data : (it.setDataIterator levels data).data = data := by
  cases h : it.data <;> simp [setDataIterator, h]

omit [LinearOrder κ] in
@[simp] theorem setDataIterator_dataBlockHandle :
    (it.setDataIterator levels data).dataBlockHandle = it.dataBlockHandle := by
  cases h : it.data <;> simp [setDataIterator, saveError, h]

omit [LinearOrder κ] in
@[simp] theorem setDataIterator_opened :
    (it.setDataIterator levels data).opened = it.opened := by
  cases h : it.data <;> simp [setDataIterator, saveError, h]

omit [LinearOrder κ] in
/-- The error of the block that is closed is saved. -/
theorem setDataIterator_status
    (saved : it.status.isSome ∨ ∃ error, it.data = some (.error error)) :
    (it.setDataIterator levels data).status.isSome := by
  cases isData : it.data with
  | none =>
    obtain isSome | ⟨error, isError⟩ := saved
    · simpa [setDataIterator, isData] using isSome
    · cases isData.symm.trans isError
  | some old =>
    obtain isSome | ⟨error, isError⟩ := saved
    · simp [setDataIterator, saveError, isData, isSome]
    · obtain rfl := Option.some.inj (isData.symm.trans isError)
      simp [setDataIterator, saveError, isData, dataStatus]

end Operations

omit [LinearOrder κ] in
theorem Sound.setDataIterator (sound : Sound levels contents it) {data : Option (Except ε δ)}
    {handle : Bytes} {opened : List Bytes}
    (isBlock : ∀ new ∈ data, IsBlock levels contents handle new)
    (isNew : ∀ other ∈ opened, other ∈ it.opened ∨ ∀ error,
      levels.blockFunction other = .error error → data = some (.error error)) :
    Sound levels contents
      ({ it with dataBlockHandle := handle, opened := opened }.setDataIterator levels data) := by
  refine ⟨by simpa using sound.overIndex, by simpa using isBlock,
    fun other member error fails => ?_⟩
  rw [setDataIterator_opened] at member
  obtain isOld | replaces := isNew other member
  · exact .inl (setDataIterator_status data (sound.failed other isOld error fails))
  · exact .inr ⟨error, (setDataIterator_data data).trans (replaces error fails)⟩

/-- The block of the entry of the index is the one that is open. -/
theorem Sound.initDataBlock (sound : Sound levels contents it) (reads : Reads levels contents)
    (current : levels.index.current it.index = suffix.head?)
    (inIndex : ∀ entry ∈ suffix.head?, entry ∈ contents.index) :
    AtHead levels contents suffix (it.initDataBlock levels) := by
  rw [TwoLevelIterator.initDataBlock]
  cases suffix with
  | nil =>
    rw [current]
    have closed : Sound levels contents (it.setDataIterator levels none) :=
      sound.setDataIterator (fun _ impossible => absurd impossible (Option.not_mem_none _))
        fun other member => .inl member
    refine ⟨closed, by simpa using current, fun _ => by simp, fun entry impossible => ?_⟩
    cases impossible
  | cons entry rest =>
    rw [current]
    dsimp only [List.head?_cons]
    split
    next reused =>
      refine ⟨sound, current, fun impossible => absurd impossible (List.cons_ne_nil _ _), ?_⟩
      rintro _ ⟨⟩
      exact ⟨reused.1, reused.2.symm⟩
    next _ =>
      refine ⟨sound.setDataIterator ?_ fun other member => ?_, by simpa using current,
        fun impossible => absurd impossible (List.cons_ne_nil _ _), ?_⟩
      · rintro new ⟨⟩
        cases opens : levels.blockFunction entry.2 with
        | error error => exact opens
        | ok data => exact ⟨⟨data, opens⟩, reads.opens entry (inIndex entry rfl) data opens⟩
      · obtain isOld | isLast := List.mem_append.mp member
        · exact .inl isOld
        · obtain rfl := List.mem_singleton.mp isLast
          exact .inr fun error fails => congrArg some fails
      · rintro _ ⟨⟩
        simp

theorem Sound.callIndex (sound : Sound levels contents it) (reads : Reads levels contents)
    {call : CursorCall κ} {target : Option (κ × Bytes)}
    (answered : cursorStep contents.index (levels.index.current it.index) call = some target) :
    Sound levels contents (it.callIndex levels call) ∧
      levels.index.current (it.callIndex levels call).index = target := by
  obtain ⟨overIndex, current⟩ := reads.indexCursor.answers _ _ call _ sound.overIndex answered
  exact ⟨⟨overIndex, sound.isBlock, sound.failed⟩, current⟩

/-- A call on the iterator over the block takes it where the cursor over the bindings that can be
read goes. -/
theorem Sound.callData (sound : Sound levels contents it) (reads : Reads levels contents)
    {call : CursorCall κ} {target : Option (κ × ν)} (isOpen : it.data.isSome)
    (answered : cursorStep (readable levels contents.lists it.dataBlockHandle) (it.entry levels) call =
      some target) :
    Sound levels contents (it.callData levels call) ∧
      (it.callData levels call).entry levels = target := by
  obtain ⟨data, isData⟩ := Option.isSome_iff_exists.mp isOpen
  have isBlock := sound.isBlock data isData
  have called : (it.callData levels call).data =
      some (data.map fun state => levels.data.call state call) := by
    rw [TwoLevelIterator.callData, isData]
    rfl
  have entryEq : it.entry levels = dataEntry levels data := by
    rw [TwoLevelIterator.entry, isData]
    rfl
  rw [TwoLevelIterator.entry, called]
  cases data with
  | error error =>
    have nothing : readable levels contents.lists it.dataBlockHandle = [] := by
      rw [readable, show levels.blockFunction it.dataBlockHandle = .error error from isBlock]
    rw [nothing, entryEq] at answered
    refine ⟨⟨sound.overIndex, ?_, fun _ _ _ _ => .inr ⟨error, called⟩⟩, ?_⟩
    · rw [called]
      rintro new ⟨⟩
      exact isBlock
    · exact (cursorStep_nil answered).symm
  | ok state =>
    obtain ⟨⟨opened, opens⟩, isOver⟩ := isBlock
    have everything : readable levels contents.lists it.dataBlockHandle =
        contents.lists it.dataBlockHandle := by
      rw [readable, opens]
    rw [everything, entryEq] at answered
    obtain ⟨isOver', current⟩ := reads.dataCursor.answers _ _ call _ isOver answered
    refine ⟨⟨sound.overIndex, ?_, fun handle member error fails => ?_⟩, current⟩
    · rw [called]
      rintro new ⟨⟩
      exact ⟨⟨opened, opens⟩, isOver'⟩
    · obtain isSome | ⟨error, isError⟩ := sound.failed handle member error fails
      · exact .inl isSome
      · cases isData.symm.trans isError

/-! ### The loop -/

/-- What a call on the index and one on a block do in the loop: the index goes through its entries
in some order, and the block goes to its end that comes first in it. -/
structure Passes (contents : Contents ι δ κ ν) (indexCall dataCall : CursorCall κ)
    (ordered : List (κ × Bytes)) (front : List (κ × ν) → Option (κ × ν)) : Prop where
  perm : ordered.Perm contents.index
  follows : ∀ before entry after, ordered = before ++ entry :: after →
    cursorStep contents.index (some entry) indexCall = some after.head?
  reaches : ∀ map current, cursorStep map current dataCall = some (front map)

variable {indexCall dataCall : CursorCall κ} {ordered : List (κ × Bytes)}
  {front : List (κ × ν) → Option (κ × ν)}

/-- A call that a block answers from wherever it stands. -/
theorem AtHead.callData (atHead : AtHead levels contents suffix it) (reads : Reads levels contents)
    {call : CursorCall κ} {target : List (κ × ν) → Option (κ × ν)}
    (answered : ∀ map current, cursorStep map current call = some (target map)) :
    AtHead levels contents suffix (it.callData levels call) ∧
      (it.callData levels call).entry levels =
        suffix.head?.bind fun entry => target (readable levels contents.lists entry.2) := by
  cases suffix with
  | nil =>
    have noData := atHead.closed rfl
    have same : it.callData levels call = it := by
      rw [TwoLevelIterator.callData, noData]
      cases it
      cases noData
      rfl
    rw [same]
    refine ⟨atHead, ?_⟩
    rw [TwoLevelIterator.entry, noData]
    rfl
  | cons entry rest =>
    obtain ⟨isOpen, sameHandle⟩ := atHead.isOpen entry rfl
    obtain ⟨sound, reached⟩ := atHead.toSound.callData reads isOpen (answered _ _)
    refine ⟨⟨sound, atHead.current, fun impossible => absurd impossible (List.cons_ne_nil _ _), ?_⟩, ?_⟩
    · rintro _ ⟨⟩
      exact ⟨by simpa [TwoLevelIterator.callData] using isOpen, sameHandle⟩
    · rw [reached, sameHandle]
      rfl

omit [LinearOrder κ] in
theorem head?_bind_or_findSome?_tail (entries : List (κ × Bytes))
    (search : κ × Bytes → Option (κ × ν)) :
    (entries.head?.bind search).or (entries.tail.findSome? search) = entries.findSome? search := by
  cases entries with
  | nil => rfl
  | cons entry rest =>
    rw [List.findSome?_cons]
    cases isFound : search entry with
    | none => simp [isFound]
    | some binding => simp [isFound]

/-- From an entry of the index the loop goes on to the first entry after it whose block is not
empty. -/
theorem skipEmptyDataBlocks_spec (reads : Reads levels contents)
    (passes : Passes contents indexCall dataCall ordered front) {before : List (κ × Bytes)}
    (split : ordered = before ++ suffix) {rounds : Nat} (enough : suffix.length < rounds)
    (atHead : AtHead levels contents suffix it) :
    ∃ it', skipEmptyDataBlocks levels indexCall dataCall rounds it = some it' ∧
      StandsOn levels contents ((it.entry levels).or
        (suffix.tail.findSome? fun entry => front (readable levels contents.lists entry.2))) it' := by
  induction suffix generalizing before rounds it with
  | nil =>
    obtain _ | rounds := rounds
    · cases enough
    have noData := atHead.closed rfl
    have noEntry : it.entry levels = none := by
      rw [TwoLevelIterator.entry, noData, Option.bind_none]
    refine ⟨it.setDataIterator levels none, ?_, ?_, ?_, ?_, ?_⟩
    · rw [skipEmptyDataBlocks, noEntry, if_neg (by simp), atHead.current]
      rfl
    · exact atHead.toSound.setDataIterator
        (fun _ impossible => absurd impossible (Option.not_mem_none _)) fun _ member => .inl member
    · rw [noEntry, TwoLevelIterator.entry, setDataIterator_data]
      rfl
    · exact fun _ => setDataIterator_data none
    · rw [noEntry]
      exact fun impossible => absurd impossible Bool.false_ne_true
  | cons entry rest inductionHypothesis =>
    obtain _ | rounds := rounds
    · cases enough
    have inIndex : ∀ {other}, other ∈ entry :: rest → other ∈ contents.index := fun member =>
      passes.perm.subset (split ▸ List.mem_append_right _ member)
    rw [skipEmptyDataBlocks]
    cases isEntry : it.entry levels with
    | some binding =>
      refine ⟨it, if_pos Option.isSome_some, atHead.toSound, isEntry, fun impossible => ?_, fun _ => ?_⟩
      · cases impossible
      · exact ⟨entry, inIndex List.mem_cons_self, atHead.current, (atHead.isOpen entry rfl).2⟩
    | none =>
      rw [if_neg (by simp), atHead.current, if_neg (by simp)]
      have moves := passes.follows before entry rest split
      rw [show some entry = levels.index.current it.index from atHead.current.symm] at moves
      obtain ⟨sound, current⟩ := atHead.toSound.callIndex reads moves
      have entered := sound.initDataBlock reads current fun other isFirst =>
        inIndex (List.mem_cons_of_mem _ (List.mem_of_mem_head? isFirst))
      obtain ⟨atNext, reached⟩ := entered.callData reads passes.reaches
      obtain ⟨it', result, stands⟩ := inductionHypothesis
        (split.trans (List.append_cons before entry rest)) (Nat.lt_of_succ_lt_succ enough) atNext
      refine ⟨it', result, ?_⟩
      rw [reached] at stands
      rwa [head?_bind_or_findSome?_tail] at stands

/-- A call that goes to the index and then to the block it leads to, and the loop behind it. -/
theorem Sound.enter (sound : Sound levels contents it) (reads : Reads levels contents)
    (passes : Passes contents indexCall dataCall ordered front) {before : List (κ × Bytes)}
    (split : ordered = before ++ suffix) {rounds : Nat} (enough : contents.index.length < rounds)
    (call : CursorCall κ) {target : List (κ × ν) → Option (κ × ν)}
    (answeredIndex : ∀ current, cursorStep contents.index current call = some suffix.head?)
    (answeredData : ∀ map current, cursorStep map current call = some (target map)) :
    ∃ it', skipEmptyDataBlocks levels indexCall dataCall rounds
        (((it.callIndex levels call).initDataBlock levels).callData levels call) = some it' ∧
      StandsOn levels contents
        ((suffix.head?.bind fun entry => target (readable levels contents.lists entry.2)).or
          (suffix.tail.findSome? fun entry => front (readable levels contents.lists entry.2))) it' := by
  have subset : ∀ entry ∈ suffix, entry ∈ contents.index := fun entry member =>
    passes.perm.subset (split ▸ List.mem_append_right _ member)
  have short : suffix.length < rounds := by
    refine (Nat.le_trans ?_ passes.perm.length_eq.le).trans_lt enough
    rw [split, List.length_append]
    exact Nat.le_add_left _ _
  obtain ⟨moved, current⟩ := sound.callIndex reads (answeredIndex _)
  have atHead := moved.initDataBlock reads current fun entry isFirst =>
    subset entry (List.mem_of_mem_head? isFirst)
  obtain ⟨atHead', reached⟩ := atHead.callData reads answeredData
  rw [← reached]
  exact skipEmptyDataBlocks_spec reads passes split short atHead'

/-! ### The calls -/

theorem Reads.forward (reads : Reads levels contents) :
    Passes contents .next .seekToFirst contents.index List.head? where
  perm := .refl _
  follows := by
    intro before entry after split
    have ascending : Ascending Prod.fst (before ++ entry :: after) :=
      split ▸ reads.separated.ascending
    rw [cursorStep, Option.map_some, split, ascending.find?_gt]
  reaches := fun _ _ => rfl

theorem Reads.backward (reads : Reads levels contents) :
    Passes contents .prev .seekToLast contents.index.reverse List.getLast? where
  perm := List.reverse_perm _
  follows := by
    intro before entry after split
    have turned : contents.index = after.reverse ++ entry :: before.reverse := by
      rw [← List.reverse_reverse contents.index, split]
      simp
    have ascending : Ascending Prod.fst (after.reverse ++ entry :: before.reverse) :=
      turned ▸ reads.separated.ascending
    rw [cursorStep, Option.map_some, turned, ascending.find?_lt, List.reverse_reverse]
  reaches := fun _ _ => rfl

/-- The entry of the index and the block that the iterator is in. -/
theorem StandsOn.place {binding : κ × ν} (stands : StandsOn levels contents (some binding) it)
    (reads : Reads levels contents) :
    ∃ entry ∈ contents.index, binding ∈ readable levels contents.lists entry.2 ∧
      ∀ rest, AtHead levels contents (entry :: rest) it := by
  obtain ⟨entry, inIndex, current, sameHandle⟩ := stands.inBlock rfl
  obtain ⟨data, isData, isEntry⟩ := Option.bind_eq_some_iff.mp stands.entry
  have isOpen : it.data.isSome := by rw [isData]; rfl
  refine ⟨entry, inIndex, ?_, fun rest => ⟨stands.toSound, current,
    fun impossible => absurd impossible (List.cons_ne_nil _ _), ?_⟩⟩
  · cases data with
    | error error => cases isEntry
    | ok state =>
      obtain ⟨⟨opened, opens⟩, isOver⟩ := stands.isBlock _ isData
      rw [sameHandle] at opens isOver
      rw [readable, opens]
      exact reads.dataCursor.mem _ _ isOver binding isEntry
  · rintro _ ⟨⟩
    exact ⟨isOpen, sameHandle⟩

/-- A move within the block and the loop behind it. -/
theorem AtHead.move {entry : κ × Bytes} {before after : List (κ × Bytes)}
    (atHead : AtHead levels contents (entry :: after) it) (reads : Reads levels contents)
    (passes : Passes contents indexCall dataCall ordered front)
    (split : ordered = before ++ entry :: after) {rounds : Nat}
    (enough : contents.index.length < rounds) (call : CursorCall κ) {target : Option (κ × ν)}
    (answered : cursorStep (readable levels contents.lists entry.2) (it.entry levels) call =
      some target) :
    ∃ it', skipEmptyDataBlocks levels indexCall dataCall rounds (it.callData levels call) = some it' ∧
      StandsOn levels contents (target.or
        (after.findSome? fun entry => front (readable levels contents.lists entry.2))) it' := by
  obtain ⟨isOpen, sameHandle⟩ := atHead.isOpen entry rfl
  obtain ⟨sound, reached⟩ := atHead.toSound.callData reads isOpen (sameHandle.symm ▸ answered)
  have atHead' : AtHead levels contents (entry :: after) (it.callData levels call) :=
    ⟨sound, atHead.current, fun impossible => absurd impossible (List.cons_ne_nil _ _), by
      rintro _ ⟨⟩
      exact ⟨by simpa [TwoLevelIterator.callData] using isOpen, sameHandle⟩⟩
  have short : (entry :: after).length < rounds := by
    refine (Nat.le_trans ?_ passes.perm.length_eq.le).trans_lt enough
    rw [split, List.length_append]
    exact Nat.le_add_left _ _
  rw [← reached]
  exact skipEmptyDataBlocks_spec reads passes split short atHead'

/-- One call keeps the iterator where the cursor over the blocks stands. -/
theorem StandsOn.step {position : Option (κ × ν)} (stands : StandsOn levels contents position it)
    (reads : Reads levels contents) {rounds : Nat} (enough : contents.index.length < rounds)
    (call : CursorCall κ) :
    Option.Rel (fun it' position' => StandsOn levels contents position' it')
      (it.step levels rounds call)
      (cursorStep (joined contents.index (readable levels contents.lists)) position call) := by
  cases call with
  | seek target =>
    obtain ⟨before, suffix, split, found, sought⟩ := reads.separated.find?_ge target
    obtain ⟨it', result, stands'⟩ := stands.toSound.enter reads reads.forward split enough
      (.seek target) (fun _ => congrArg some found) fun _ _ => rfl
    rw [TwoLevelIterator.step, skipEmptyDataBlocksForward, result, cursorStep, sought]
    exact .some stands'
  | seekToFirst =>
    obtain ⟨it', result, stands'⟩ := stands.toSound.enter reads reads.forward
      (List.nil_append _).symm enough .seekToFirst (fun _ => rfl) fun _ _ => rfl
    rw [TwoLevelIterator.step, skipEmptyDataBlocksForward, result, cursorStep, head?_joined,
      ← head?_bind_or_findSome?_tail]
    exact .some stands'
  | seekToLast =>
    have answered : ∀ current, cursorStep contents.index current .seekToLast =
        some contents.index.reverse.head? := fun current => by rw [List.head?_reverse]; rfl
    obtain ⟨it', result, stands'⟩ := stands.toSound.enter reads reads.backward
      (List.nil_append _).symm enough .seekToLast answered fun _ _ => rfl
    rw [TwoLevelIterator.step, skipEmptyDataBlocksBackward, result, cursorStep, getLast?_joined,
      ← head?_bind_or_findSome?_tail]
    exact .some stands'
  | next =>
    cases position with
    | none =>
      rw [TwoLevelIterator.step, stands.entry, if_neg (by simp)]
      exact .none
    | some binding =>
      obtain ⟨entry, inIndex, inBlock, atHead⟩ := stands.place reads
      obtain ⟨before, after, split⟩ := List.append_of_mem inIndex
      have separated := reads.separated
      rw [split] at separated
      obtain ⟨it', result, stands'⟩ := (atHead after).move reads reads.forward split enough
        .next (by rw [stands.entry]; rfl)
      rw [TwoLevelIterator.step, stands.entry, if_pos Option.isSome_some,
        skipEmptyDataBlocksForward, result, cursorStep, Option.map_some, split,
        separated.find?_gt inBlock]
      exact .some stands'
  | prev =>
    cases position with
    | none =>
      rw [TwoLevelIterator.step, stands.entry, if_neg (by simp)]
      exact .none
    | some binding =>
      obtain ⟨entry, inIndex, inBlock, atHead⟩ := stands.place reads
      obtain ⟨before, after, split⟩ := List.append_of_mem inIndex
      have separated := reads.separated
      rw [split] at separated
      have turned : contents.index.reverse = after.reverse ++ entry :: before.reverse := by
        rw [split]
        simp
      obtain ⟨it', result, stands'⟩ := (atHead before.reverse).move reads reads.backward turned enough
        .prev (by rw [stands.entry]; rfl)
      rw [TwoLevelIterator.step, stands.entry, if_pos Option.isSome_some,
        skipEmptyDataBlocksBackward, result, cursorStep, Option.map_some, split,
        separated.find?_lt inBlock]
      exact .some stands'

/-! ### Runs -/

section Opened

omit [LinearOrder κ]

theorem initDataBlock_opened (levels : Levels ι δ κ ν ε) (it : TwoLevelIterator ι δ ε) :
    it.opened ⊆ (it.initDataBlock levels).opened := by
  rw [TwoLevelIterator.initDataBlock]
  split
  · rw [setDataIterator_opened]
    exact List.Subset.refl _
  · split
    · exact List.Subset.refl _
    · rw [setDataIterator_opened]
      exact List.subset_append_left _ _

theorem enter_opened (levels : Levels ι δ κ ν ε) (it : TwoLevelIterator ι δ ε)
    (indexCall dataCall : CursorCall κ) : it.opened ⊆
      (((it.callIndex levels indexCall).initDataBlock levels).callData levels dataCall).opened :=
  initDataBlock_opened levels (it.callIndex levels indexCall)

theorem skipEmptyDataBlocks_opened {rounds : Nat} {it' : TwoLevelIterator ι δ ε}
    (result : skipEmptyDataBlocks levels indexCall dataCall rounds it = some it') :
    it.opened ⊆ it'.opened := by
  induction rounds generalizing it with
  | zero => cases result
  | succ rounds inductionHypothesis =>
    rw [skipEmptyDataBlocks] at result
    split at result
    · exact Option.some.inj result ▸ List.Subset.refl _
    · split at result
      · exact Option.some.inj result ▸ (setDataIterator_opened _).symm ▸ List.Subset.refl _
      · exact List.Subset.trans (enter_opened levels it indexCall dataCall)
          (inductionHypothesis result)

/-- The handles of the blocks that were opened stay recorded. -/
theorem step_opened {rounds : Nat} {call : CursorCall κ} {it' : TwoLevelIterator ι δ ε}
    (taken : it.step levels rounds call = some it') : it.opened ⊆ it'.opened := by
  cases call with
  | seek target =>
    rw [TwoLevelIterator.step, skipEmptyDataBlocksForward] at taken
    exact List.Subset.trans (enter_opened levels it _ _) (skipEmptyDataBlocks_opened taken)
  | seekToFirst =>
    rw [TwoLevelIterator.step, skipEmptyDataBlocksForward] at taken
    exact List.Subset.trans (enter_opened levels it _ _) (skipEmptyDataBlocks_opened taken)
  | seekToLast =>
    rw [TwoLevelIterator.step, skipEmptyDataBlocksBackward] at taken
    exact List.Subset.trans (enter_opened levels it _ _) (skipEmptyDataBlocks_opened taken)
  | next =>
    show (it.callData levels .next).opened ⊆ it'.opened
    exact skipEmptyDataBlocks_opened (Option.ite_none_right_eq_some.mp taken).2
  | prev =>
    show (it.callData levels .prev).opened ⊆ it'.opened
    exact skipEmptyDataBlocks_opened (Option.ite_none_right_eq_some.mp taken).2

end Opened

/-! ### When every block opens -/

section Opening

omit [LinearOrder κ]

variable {isIndex : ι → Prop} {isData : δ → Prop}

/-- Iterators whose calls keep their status OK, over an index whose blocks all open. -/
structure Opens (levels : Levels ι δ κ ν ε) (isIndex : ι → Prop) (isData : δ → Prop) : Prop where
  index : ∀ state call, isIndex state → isIndex (levels.index.call state call)
  indexStatus : ∀ state, isIndex state → levels.indexStatus state = none
  data : ∀ state call, isData state → isData (levels.data.call state call)
  dataStatus : ∀ state, isData state → levels.dataStatus state = none
  opens : ∀ state, isIndex state → ∀ entry ∈ levels.index.current state,
    ∃ data, levels.blockFunction entry.2 = .ok data ∧ isData data

/-- Nothing went wrong so far. -/
structure Unharmed (isIndex : ι → Prop) (isData : δ → Prop) (it : TwoLevelIterator ι δ ε) : Prop where
  index : isIndex it.index
  data : ∀ data ∈ it.data, ∃ state, data = .ok state ∧ isData state
  status : it.status = none

theorem Unharmed.getStatus (unharmed : Unharmed isIndex isData it)
    (opens : Opens levels isIndex isData) : it.getStatus levels = none := by
  have quiet : it.data.bind (dataStatus levels) = none := by
    refine Option.bind_eq_none_iff.mpr fun data isCurrent => ?_
    obtain ⟨state, rfl, isState⟩ := unharmed.data data isCurrent
    exact opens.dataStatus state isState
  rw [TwoLevelIterator.getStatus, opens.indexStatus _ unharmed.index, quiet, unharmed.status]
  rfl

theorem Unharmed.setDataIterator (unharmed : Unharmed isIndex isData it)
    (opens : Opens levels isIndex isData) {data : Option (Except ε δ)}
    (isNew : ∀ new ∈ data, ∃ state, new = .ok state ∧ isData state) :
    Unharmed isIndex isData (it.setDataIterator levels data) := by
  refine ⟨?_, ?_, ?_⟩
  · rw [setDataIterator_index]
    exact unharmed.index
  · rw [setDataIterator_data]
    exact isNew
  · cases isOld : it.data with
    | none => simpa [TwoLevelIterator.setDataIterator, isOld] using unharmed.status
    | some old =>
      obtain ⟨state, rfl, isState⟩ := unharmed.data old isOld
      have quiet : dataStatus levels (.ok state) = none := opens.dataStatus state isState
      simp [TwoLevelIterator.setDataIterator, saveError, isOld, quiet, unharmed.status]

theorem Unharmed.callIndex (unharmed : Unharmed isIndex isData it)
    (opens : Opens levels isIndex isData) (call : CursorCall κ) :
    Unharmed isIndex isData (it.callIndex levels call) :=
  ⟨opens.index _ call unharmed.index, unharmed.data, unharmed.status⟩

theorem Unharmed.callData (unharmed : Unharmed isIndex isData it)
    (opens : Opens levels isIndex isData) (call : CursorCall κ) :
    Unharmed isIndex isData (it.callData levels call) := by
  refine ⟨unharmed.index, fun data isCurrent => ?_, unharmed.status⟩
  obtain ⟨old, isOld, rfl⟩ := Option.map_eq_some_iff.mp isCurrent
  obtain ⟨state, rfl, isState⟩ := unharmed.data old isOld
  exact ⟨_, rfl, opens.data state call isState⟩

theorem Unharmed.initDataBlock (unharmed : Unharmed isIndex isData it)
    (opens : Opens levels isIndex isData) :
    Unharmed isIndex isData (it.initDataBlock levels) := by
  rw [TwoLevelIterator.initDataBlock]
  split
  · exact unharmed.setDataIterator opens nofun
  · next key handle current =>
    split
    · exact unharmed
    · obtain ⟨data, isBlock, isNew⟩ := opens.opens _ unharmed.index (key, handle) current
      have moved : Unharmed isIndex isData
          { it with dataBlockHandle := handle, opened := it.opened ++ [handle] } :=
        ⟨unharmed.index, unharmed.data, unharmed.status⟩
      refine moved.setDataIterator opens fun new isSome => ?_
      exact ⟨data, (Option.some.inj isSome).symm.trans isBlock, isNew⟩

theorem Unharmed.skipEmptyDataBlocks {rounds : Nat} {it' : TwoLevelIterator ι δ ε}
    (unharmed : Unharmed isIndex isData it) (opens : Opens levels isIndex isData)
    (result : TwoLevelIterator.skipEmptyDataBlocks levels indexCall dataCall rounds it = some it') :
    Unharmed isIndex isData it' := by
  induction rounds generalizing it with
  | zero => cases result
  | succ rounds inductionHypothesis =>
    rw [TwoLevelIterator.skipEmptyDataBlocks] at result
    split at result
    · exact Option.some.inj result ▸ unharmed
    · split at result
      · exact Option.some.inj result ▸ unharmed.setDataIterator opens nofun
      · exact inductionHypothesis (((unharmed.callIndex opens indexCall).initDataBlock opens).callData
          opens dataCall) result

theorem Unharmed.step {rounds : Nat} {call : CursorCall κ} {it' : TwoLevelIterator ι δ ε}
    (unharmed : Unharmed isIndex isData it) (opens : Opens levels isIndex isData)
    (taken : it.step levels rounds call = some it') : Unharmed isIndex isData it' := by
  have enter : ∀ indexCall dataCall, Unharmed isIndex isData
      (((it.callIndex levels indexCall).initDataBlock levels).callData levels dataCall) :=
    fun indexCall dataCall =>
      ((unharmed.callIndex opens indexCall).initDataBlock opens).callData opens dataCall
  cases call with
  | seek target => exact (enter _ _).skipEmptyDataBlocks opens taken
  | seekToFirst => exact (enter _ _).skipEmptyDataBlocks opens taken
  | seekToLast => exact (enter _ _).skipEmptyDataBlocks opens taken
  | next =>
    exact (unharmed.callData opens _).skipEmptyDataBlocks opens
      (Option.ite_none_right_eq_some.mp taken).2
  | prev =>
    exact (unharmed.callData opens _).skipEmptyDataBlocks opens
      (Option.ite_none_right_eq_some.mp taken).2

/-- When every block opens and no call fails, the status stays OK. -/
theorem getStatus_of_opens (opens : Opens levels isIndex isData) {start : ι} (isStart : isIndex start)
    {rounds : Nat} {it : TwoLevelIterator ι δ ε}
    (reachable : Reachable (step levels rounds) (fun _ _ => True) (new start) it) :
    it.getStatus levels = none := by
  have begins : Unharmed isIndex isData (new (δ := δ) (ε := ε) start) :=
    ⟨isStart, fun _ impossible => absurd impossible (Option.not_mem_none _), rfl⟩
  have unharmed : Unharmed isIndex isData it := @Reachable.invariant _ _ _ _ _
    (Unharmed isIndex isData) begins (fun _ _ _ unharmed _ taken => unharmed.step opens taken) _
    reachable
  exact unharmed.getStatus opens

end Opening

/-- Over an index and blocks that are cursors the iterator shows, after every sequence of calls, what
a cursor over the blocks that can be read shows. It never has a block without an entry to stand on,
and once a block did not open, its status is an error from then on. -/
theorem is_cursor_over_joined (reads : Reads levels contents) {start : ι}
    (overIndex : contents.isOverIndex start contents.index) {rounds : Nat}
    (enough : contents.index.length < rounds) :
    (∀ calls, trace (step levels rounds) (TwoLevelIterator.entry levels) (new start) calls =
      trace (cursorStep (joined contents.index (readable levels contents.lists))) id none calls) ∧
    (∀ it, Reachable (step levels rounds) (fun _ _ => True) (new start) it →
      it.data.isSome → (it.entry levels).isSome) ∧
    ∀ it it', Reachable (step levels rounds) (fun _ _ => True) (new start) it →
      Reachable (step levels rounds) (fun _ _ => True) it it' →
      ∀ handle ∈ it.opened, ∀ error, levels.blockFunction handle = .error error →
        (it'.getStatus levels).isSome := by
  have begins : StandsOn levels contents none (new start) :=
    { overIndex := overIndex
      isBlock := fun _ impossible => absurd impossible (Option.not_mem_none _)
      failed := fun _ impossible => absurd impossible List.not_mem_nil
      entry := rfl
      closed := fun _ => rfl
      inBlock := fun impossible => absurd impossible Bool.false_ne_true }
  have always : ∀ it, Reachable (step levels rounds) (fun _ _ => True) (new start) it →
      ∃ position, StandsOn levels contents position it := by
    intro it reachable
    refine @Reachable.invariant _ _ _ _ _ (fun state => ∃ position, StandsOn levels contents position
      state) ⟨none, begins⟩ (fun it call it' ⟨position, stands⟩ _ taken => ?_) it reachable
    have related := stands.step reads enough call
    rw [taken] at related
    generalize cursorStep (joined contents.index (readable levels contents.lists)) position call =
      answer at related
    cases related with
    | some stands' => exact ⟨_, stands'⟩
  refine ⟨fun calls => @trace_eq _ _ _ _ _ _ _ _
    (fun it position => StandsOn levels contents position it) (fun _ _ stands => stands.entry)
    (fun _ _ call stands => stands.step reads enough call) _ _ begins calls,
    fun it reachable isOpen => ?_, fun it it' reachable later handle opened error fails => ?_⟩
  · obtain ⟨position, stands⟩ := always it reachable
    rw [stands.entry]
    by_contra nothing
    rw [stands.closed (Option.not_isSome_iff_eq_none.mp nothing)] at isOpen
    cases isOpen
  · have stillOpened : handle ∈ it'.opened :=
      @Reachable.invariant _ _ _ _ _ (fun state => handle ∈ state.opened) opened
        (fun _ _ _ member _ taken => step_opened taken member) _ later
    obtain ⟨position, stands⟩ := always it' (reachable.trans later)
    rw [getStatus]
    obtain isSome | ⟨error, isError⟩ := stands.failed handle stillOpened error fails
    · simp [isSome]
    · simp [isError, dataStatus]

/-- Four blocks, of which the second is empty and the third does not open. -/
def smallBlock : Bytes → Except Unit (List (Nat × Char))
  | [1] => .ok [(1, 'a'), (2, 'b')]
  | [2] => .ok []
  | [3] => .error ()
  | _ => .ok [(8, 'h')]

def smallLevels : Levels (List (Nat × Bytes) × Option (Nat × Bytes))
    (List (Nat × Char) × Option (Nat × Char)) Nat Char Unit :=
  ⟨listIterator, fun _ => none, listIterator, fun _ => none,
    fun handle => (smallBlock handle).map fun block => (block, none)⟩

theorem is_cursor_over_joined_of_four :
    trace (step smallLevels 5) (TwoLevelIterator.entry smallLevels)
        (new ([(3, [1]), (5, [2]), (7, [3]), (9, [4])], none))
        [.seekToFirst, .next, .next, .prev, .seek 6, .seekToLast] =
      some [some (1, 'a'), some (2, 'b'), some (8, 'h'), some (2, 'b'), some (8, 'h'),
        some (8, 'h')] := by
  have reads : Reads smallLevels
      ⟨fun state map => state.1 = map ∧ ∀ binding ∈ state.2, binding ∈ map,
        fun state map => state.1 = map ∧ ∀ binding ∈ state.2, binding ∈ map,
        [(3, [1]), (5, [2]), (7, [3]), (9, [4])],
        fun handle => ((smallBlock handle).toOption).getD []⟩ := by
    refine ⟨listIterator_isCursor, listIterator_isCursor, fun entry _ data opens => ?_,
      by decide, by decide, by decide, by decide⟩
    cases isBlock : smallBlock entry.2 with
    | error error => simp [smallLevels, isBlock, Except.map] at opens
    | ok block =>
      obtain rfl : (block, none) = data := by simpa [smallLevels, isBlock, Except.map] using opens
      exact ⟨by simp [isBlock, Except.toOption], fun _ impossible =>
        absurd impossible (Option.not_mem_none _)⟩
  exact ((is_cursor_over_joined reads ⟨rfl, fun _ impossible =>
    absurd impossible (Option.not_mem_none _)⟩ (by decide)).1 _).trans (by decide)

end TwoLevelIterator

end LevelDb
