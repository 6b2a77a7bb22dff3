/-
This file models the hash table of the block cache (`util/cache.cc`, class `HandleTable`): an array
of chains of handles, looked up by hash and key, that doubles when it holds more handles than
chains. A handle is named by its address, and what the table reads of a handle, its key and its
hash, is given by a function.
-/

import LevelDb.Lib.Buckets
import Mathlib.Data.List.TakeWhile

namespace LevelDb

variable {κ : Type}

structure HandleTable where
  length : Nat
  elems : Nat
  list : Nat → List Nat

namespace HandleTable

/-- `hash & (length_ - 1)` -/
def slot (length hash : Nat) : Nat := hash &&& (length - 1)

/-- `new_length` of `Resize`: four, doubled as long as it is less than the number of elements. -/
def newLength (elems : Nat) : Nat → Nat → Nat
  | 0, length => length
  | fuel + 1, length => if length < elems then newLength elems fuel (length * 2) else length

/-- Move one handle to the front of its new chain. -/
def relink (info : Nat → κ × Nat) (length : Nat) (list : Nat → List Nat) (handle : Nat) :
    Nat → List Nat :=
  Function.update list (slot length (info handle).2) (handle :: list (slot length (info handle).2))

/-- `Resize` -/
def resize (info : Nat → κ × Nat) (table : HandleTable) : HandleTable :=
  let length := newLength table.elems table.elems 4
  { table with
    length := length
    list := (Lib.gather table.length table.list).foldl (relink info length) fun _ => [] }

/-- The constructor. -/
def new : HandleTable := resize (fun _ => ((), 0)) ⟨0, 0, fun _ => []⟩

variable [DecidableEq κ]

/-- The chain of a hash, cut before the handle with the hash and the key; the rest is empty when
there is none. -/
def findPointer (info : Nat → κ × Nat) (table : HandleTable) (key : κ) (hash : Nat) :
    List Nat × List Nat :=
  (table.list (slot table.length hash)).span fun handle =>
    (info handle).2 ≠ hash ∨ key ≠ (info handle).1

/-- `Lookup` -/
def lookup (info : Nat → κ × Nat) (table : HandleTable) (key : κ) (hash : Nat) : Option Nat :=
  (table.findPointer info key hash).2.head?

/-- `Insert`: takes the place of the handle with the same key, which is returned. -/
def insert (info : Nat → κ × Nat) (table : HandleTable) (handle : Nat) :
    Option Nat × HandleTable :=
  let found := table.findPointer info (info handle).1 (info handle).2
  let linked := { table with
    list := Function.update table.list (slot table.length (info handle).2)
      (found.1 ++ handle :: found.2.tail) }
  match found.2.head? with
  | some old => (some old, linked)
  | none =>
    let grown := { linked with elems := table.elems + 1 }
    (none, if grown.elems > grown.length then grown.resize info else grown)

/-- `Remove` -/
def remove (info : Nat → κ × Nat) (table : HandleTable) (key : κ) (hash : Nat) :
    Option Nat × HandleTable :=
  let found := table.findPointer info key hash
  match found.2.head? with
  | some result =>
    (some result, { table with
      list := Function.update table.list (slot table.length hash) (found.1 ++ found.2.tail)
      elems := table.elems - 1 })
  | none => (none, table)

/-! ### What a table holds -/

/-- The handles in the table. -/
def contents (table : HandleTable) : List Nat := Lib.gather table.length table.list

/-- Every handle is in the chain of its hash, no two handles have the same hash and key, and the
elements are counted. -/
structure Valid (info : Nat → κ × Nat) (table : HandleTable) : Prop where
  length_pos : 0 < table.length
  chained : ∀ index < table.length, ∀ handle ∈ table.list index,
    slot table.length (info handle).2 = index
  nodup : (table.contents.map info).Nodup
  elems_eq : table.elems = table.contents.length

variable {info info' : Nat → κ × Nat} {table : HandleTable}

omit [DecidableEq κ] in
theorem slot_lt {length : Nat} (positive : 0 < length) (hash : Nat) : slot length hash < length :=
  (Nat.and_le_right).trans_lt (Nat.sub_lt positive Nat.one_pos)

omit [DecidableEq κ] in
theorem Valid.congr (valid : table.Valid info)
    (same : ∀ handle ∈ table.contents, info' handle = info handle) : table.Valid info' := by
  refine ⟨valid.length_pos, fun index inRange handle member => ?_, ?_, valid.elems_eq⟩
  · rw [same handle (Lib.mem_gather.mpr ⟨index, inRange, member⟩)]
    exact valid.chained index inRange handle member
  · rw [List.map_congr_left same]
    exact valid.nodup

omit [DecidableEq κ] in
/-- A handle of the table is in the chain of its hash. -/
theorem Valid.mem_chain (valid : table.Valid info) {handle : Nat} (member : handle ∈ table.contents) :
    handle ∈ table.list (slot table.length (info handle).2) := by
  obtain ⟨index, inRange, inChain⟩ := Lib.mem_gather.mp member
  rw [valid.chained index inRange handle inChain]
  exact inChain

omit [DecidableEq κ] in
theorem Valid.mem_contents (valid : table.Valid info) {hash handle : Nat}
    (member : handle ∈ table.list (slot table.length hash)) : handle ∈ table.contents :=
  Lib.mem_gather.mpr ⟨_, slot_lt valid.length_pos hash, member⟩

omit [DecidableEq κ] in
theorem Valid.eq_of_info (valid : table.Valid info) {first second : Nat}
    (firstMember : first ∈ table.contents) (secondMember : second ∈ table.contents)
    (same : info first = info second) : first = second :=
  List.inj_on_of_nodup_map valid.nodup firstMember secondMember same

/-- The chain of a hash is what comes before the found handle and what comes from it on. -/
theorem findPointer_append (info : Nat → κ × Nat) (table : HandleTable) (key : κ) (hash : Nat) :
    (table.findPointer info key hash).1 ++ (table.findPointer info key hash).2 =
      table.list (slot table.length hash) := by
  rw [findPointer, List.span_eq_takeWhile_dropWhile]
  exact List.takeWhile_append_dropWhile

theorem findPointer_head {key : κ} {hash handle : Nat}
    (found : (table.findPointer info key hash).2.head? = some handle) :
    handle ∈ table.list (slot table.length hash) ∧ info handle = (key, hash) := by
  rw [findPointer, List.span_eq_takeWhile_dropWhile] at found
  have member := List.mem_of_mem_head? found
  have stopped := List.head?_dropWhile_not
    (fun handle => decide ((info handle).2 ≠ hash ∨ key ≠ (info handle).1))
    (table.list (slot table.length hash))
  simp only [found] at stopped
  refine ⟨(List.dropWhile_sublist _).subset member, ?_⟩
  rw [decide_eq_false_iff_not, not_or, not_not, not_not] at stopped
  exact Prod.ext stopped.2.symm stopped.1

theorem findPointer_none {key : κ} {hash : Nat}
    (found : (table.findPointer info key hash).2.head? = none) :
    ∀ handle ∈ table.list (slot table.length hash), info handle ≠ (key, hash) := by
  rw [findPointer, List.span_eq_takeWhile_dropWhile, List.head?_eq_none_iff,
    List.dropWhile_eq_nil_iff] at found
  intro handle member same
  have differs := of_decide_eq_true (found handle member)
  rw [same] at differs
  exact differs.elim (fun other => other rfl) fun other => other rfl

/-! ### Looking up -/

theorem Valid.lookup_eq_some (valid : table.Valid info) {key : κ} {hash handle : Nat} :
    table.lookup info key hash = some handle ↔
      handle ∈ table.contents ∧ info handle = (key, hash) := by
  constructor
  · intro found
    obtain ⟨inChain, same⟩ := findPointer_head found
    exact ⟨valid.mem_contents inChain, same⟩
  · rintro ⟨member, same⟩
    have inChain := valid.mem_chain member
    rw [same] at inChain
    cases found : (table.findPointer info key hash).2.head? with
    | none => exact absurd same (findPointer_none found handle inChain)
    | some other =>
      obtain ⟨otherChain, otherSame⟩ := findPointer_head found
      rw [valid.eq_of_info member (valid.mem_contents otherChain) (same.trans otherSame.symm)]
      exact found

/-- Looking up depends only on the handles of the table. -/
theorem Valid.lookup_congr (valid : table.Valid info)
    (same : ∀ handle ∈ table.contents, info' handle = info handle) (key : κ) (hash : Nat) :
    table.lookup info' key hash = table.lookup info key hash := by
  ext handle
  rw [(valid.congr same).lookup_eq_some, valid.lookup_eq_some]
  exact and_congr_right fun member => by rw [same handle member]

/-- A key that is not found is not removed. -/
theorem remove_of_lookup_none {key : κ} {hash : Nat} (notFound : table.lookup info key hash = none) :
    table.remove info key hash = (none, table) := by
  rw [lookup] at notFound
  rw [remove, notFound]

/-! ### Changing a chain -/

omit [DecidableEq κ] in
/-- What the table holds outside one chain. -/
theorem contents_split (positive : 0 < table.length) (hash : Nat) :
    ∃ others, table.contents.Perm (others ++ table.list (slot table.length hash)) ∧
      ∀ chain, (Lib.gather table.length
        (Function.update table.list (slot table.length hash) chain)).Perm (others ++ chain) := by
  refine ⟨Lib.gather table.length (Function.update table.list (slot table.length hash) []), ?_,
    fun chain => ?_⟩
  · have emptied := @Lib.gather_update _ _ _ table.list (slot_lt positive hash) []
    rw [List.append_nil] at emptied
    exact emptied.symm
  · have replaced := @Lib.gather_update _ _ _
      (Function.update table.list (slot table.length hash) []) (slot_lt positive hash) chain
    rwa [Function.update_idem, Function.update_self, List.append_nil] at replaced

omit [DecidableEq κ] in
/-- A table after one chain was replaced by handles of the same hash. -/
theorem Valid.replace (valid : table.Valid info) {hash elems : Nat} {chain contents : List Nat}
    (chained : ∀ handle ∈ chain, slot table.length (info handle).2 = slot table.length hash)
    (perm : (Lib.gather table.length
      (Function.update table.list (slot table.length hash) chain)).Perm contents)
    (nodup : (contents.map info).Nodup) (count : elems = contents.length) :
    Valid info ⟨table.length, elems, Function.update table.list (slot table.length hash) chain⟩ := by
  refine ⟨valid.length_pos, fun index inRange handle member => ?_, ?_, ?_⟩
  · have inChain : handle ∈ Function.update table.list (slot table.length hash) chain index := member
    by_cases same : index = slot table.length hash
    · rw [same, Function.update_self] at inChain
      rw [same]
      exact chained handle inChain
    · rw [Function.update_of_ne same] at inChain
      exact valid.chained index inRange handle inChain
  · exact (perm.map info).nodup_iff.mpr nodup
  · exact count.trans perm.length_eq.symm

omit [DecidableEq κ] in
/-- Moving handles into chains keeps what the chains hold. -/
theorem foldl_relink {length : Nat} (positive : 0 < length) (handles : List Nat)
    (list : Nat → List Nat)
    (chained : ∀ index < length, ∀ handle ∈ list index, slot length (info handle).2 = index) :
    (Lib.gather length (handles.foldl (relink info length) list)).Perm
        (handles ++ Lib.gather length list) ∧
      ∀ index < length, ∀ handle ∈ handles.foldl (relink info length) list index,
        slot length (info handle).2 = index := by
  induction handles generalizing list with
  | nil => exact ⟨List.Perm.refl _, chained⟩
  | cons handle rest inductionHypothesis =>
    have inRange := slot_lt positive (info handle).2
    have moved := @Lib.gather_update _ _ _ list inRange
      (handle :: list (slot length (info handle).2))
    have first : (Lib.gather length (relink info length list handle)).Perm
        (handle :: Lib.gather length list) := by
      refine (List.perm_append_right_iff (list (slot length (info handle).2))).mp (moved.trans ?_)
      exact List.perm_middle
    obtain ⟨perm, kept⟩ := inductionHypothesis (relink info length list handle) fun index less other
        member => by
      by_cases same : index = slot length (info handle).2
      · rw [relink, same, Function.update_self] at member
        rcases List.mem_cons.mp member with isHandle | old
        · rw [isHandle, same]
        · rw [same]
          exact chained _ inRange other old
      · rw [relink, Function.update_of_ne same] at member
        exact chained index less other member
    refine ⟨perm.trans ((first.append_left rest).trans ?_), kept⟩
    exact List.perm_middle

omit [DecidableEq κ] in
theorem newLength_pos (elems fuel : Nat) {length : Nat} (positive : 0 < length) :
    0 < newLength elems fuel length := by
  induction fuel generalizing length with
  | zero => exact positive
  | succ fuel inductionHypothesis =>
    rw [newLength]
    split
    · exact inductionHypothesis (Nat.mul_pos positive Nat.two_pos)
    · exact positive

omit [DecidableEq κ] in
/-- `Resize` keeps the handles. -/
theorem resize_spec (info : Nat → κ × Nat) (table : HandleTable)
    (nodup : (table.contents.map info).Nodup) (count : table.elems = table.contents.length) :
    (table.resize info).Valid info ∧ (table.resize info).contents.Perm table.contents := by
  have positive : 0 < newLength table.elems table.elems 4 :=
    newLength_pos table.elems table.elems (by omega)
  obtain ⟨perm, chained⟩ := @foldl_relink _ info _ positive table.contents (fun _ => [])
    fun _ _ _ member => absurd member List.not_mem_nil
  rw [Lib.gather_nil, List.append_nil] at perm
  exact ⟨⟨positive, chained, (perm.map info).nodup_iff.mpr nodup, count.trans perm.length_eq.symm⟩,
    perm⟩

omit [DecidableEq κ] in
theorem new_valid (info : Nat → κ × Nat) : new.Valid info ∧ new.contents = [] := by
  have empty : new.contents = [] := by decide
  refine ⟨⟨by decide, fun index inRange handle member => ?_, ?_, by decide⟩, empty⟩
  · have inContents : handle ∈ new.contents := Lib.mem_gather.mpr ⟨index, inRange, member⟩
    rw [empty] at inContents
    cases inContents
  · rw [empty]
    exact List.nodup_nil

/-! ### Insertion and removal -/

/-- The chain that a handle is looked up in, and the handles of the table around the found one. -/
theorem Valid.found (valid : table.Valid info) (key : κ) (hash : Nat) :
    ∃ before after around, table.findPointer info key hash =
        (before, (table.lookup info key hash).toList ++ after) ∧
      (table.lookup info key hash = none → after = []) ∧
      table.contents.Perm ((table.lookup info key hash).toList ++ around) ∧
      (∀ handles, (Lib.gather table.length (Function.update table.list
        (slot table.length hash) (before ++ (handles ++ after)))).Perm (handles ++ around)) ∧
      ∀ other ∈ before ++ after, slot table.length (info other).2 = slot table.length hash := by
  obtain ⟨others, split, replaced⟩ := contents_split valid.length_pos hash
  have chain := findPointer_append info table key hash
  have rest : (table.findPointer info key hash).2 =
      (table.lookup info key hash).toList ++ (table.findPointer info key hash).2.tail := by
    rw [lookup]
    cases (table.findPointer info key hash).2 with
    | nil => rfl
    | cons first rest => rfl
  set before := (table.findPointer info key hash).1 with beforeEq
  set after := (table.findPointer info key hash).2.tail with afterEq
  have middle : ∀ handles, (others ++ (before ++ (handles ++ after))).Perm
      (handles ++ (others ++ (before ++ after))) := by
    intro handles
    calc (others ++ (before ++ (handles ++ after))).Perm
          (others ++ (handles ++ (before ++ after))) := by
            refine List.Perm.append_left others ?_
            rw [← List.append_assoc, ← List.append_assoc]
            exact List.perm_append_comm.append_right after
      _ |>.Perm (handles ++ (others ++ (before ++ after))) := by
            rw [← List.append_assoc, ← List.append_assoc handles]
            exact List.perm_append_comm.append_right (before ++ after)
  have afterNil : table.lookup info key hash = none → after = [] := by
    intro notFound
    rw [afterEq, List.head?_eq_none_iff.mp notFound, List.tail_nil]
  refine ⟨before, after, others ++ (before ++ after), Prod.ext rfl rest, afterNil, ?_,
    fun handles => (replaced _).trans (middle handles), fun other member => ?_⟩
  · rw [← chain, rest] at split
    exact split.trans (middle _)
  · refine valid.chained _ (slot_lt valid.length_pos hash) other ?_
    rw [← chain]
    rcases List.mem_append.mp member with inBefore | inAfter
    · exact List.mem_append_left _ inBefore
    · exact List.mem_append_right _ (List.mem_of_mem_tail inAfter)

/-- Insertion takes the old handle with the same key out and puts the new one in. -/
theorem Valid.insert (valid : table.Valid info) (handle : Nat) :
    (table.insert info handle).1 = table.lookup info (info handle).1 (info handle).2 ∧
      (table.insert info handle).2.Valid info ∧
      ((table.insert info handle).1.toList ++ (table.insert info handle).2.contents).Perm
        (handle :: table.contents) := by
  obtain ⟨before, after, around, pair, afterNil, split, replaced, chained⟩ :=
    valid.found (info handle).1 (info handle).2
  have perm := replaced [handle]
  have newChained : ∀ other ∈ before ++ handle :: after,
      slot table.length (info other).2 = slot table.length (info handle).2 := by
    intro other member
    rcases List.mem_cons.mp (List.perm_middle.mem_iff.mp member) with rfl | old
    · rfl
    · exact chained other old
  have nodup := valid.nodup
  cases found : table.lookup info (info handle).1 (info handle).2 with
  | some old =>
    rw [found] at pair split
    have inserted : table.insert info handle = (some old, { table with
        list := Function.update table.list (slot table.length (info handle).2)
          (before ++ handle :: after) }) := by
      rw [HandleTable.insert, pair]
      rfl
    have sameInfo : (handle :: around).map info = (old :: around).map info := by
      rw [List.map_cons, List.map_cons, (valid.lookup_eq_some.mp found).2]
    have distinct : ((handle :: around).map info).Nodup := by
      rw [sameInfo]
      exact (split.map info).nodup_iff.mp nodup
    rw [inserted]
    refine ⟨rfl, valid.replace newChained perm distinct ?_, ?_⟩
    · rw [valid.elems_eq, split.length_eq]
      rfl
    · exact ((perm.cons old).trans (List.Perm.swap handle old around)).trans
        (split.symm.cons handle)
  | none =>
    rw [found] at pair split
    set grown : HandleTable := ⟨table.length, table.elems + 1, Function.update table.list
      (slot table.length (info handle).2) (before ++ handle :: after)⟩ with grownEq
    have inserted : table.insert info handle =
        (none, if grown.elems > grown.length then grown.resize info else grown) := by
      rw [HandleTable.insert, pair, afterNil found]
      rw [afterNil found] at grownEq
      rw [grownEq]
      rfl
    have contents : grown.contents.Perm (handle :: table.contents) :=
      perm.trans (split.symm.cons handle)
    have distinct : ((handle :: table.contents).map info).Nodup := by
      refine List.nodup_cons.mpr ⟨fun member => ?_, nodup⟩
      obtain ⟨other, otherMember, same⟩ := List.mem_map.mp member
      rw [valid.lookup_eq_some.mpr ⟨otherMember, same⟩] at found
      cases found
    have count : grown.elems = (handle :: table.contents).length :=
      congrArg (· + 1) valid.elems_eq
    rw [inserted]
    refine ⟨rfl, ?_⟩
    split_ifs with full
    · obtain ⟨resized, kept⟩ := resize_spec info grown
        ((contents.map info).nodup_iff.mpr distinct) (count.trans contents.length_eq.symm)
      exact ⟨resized, kept.trans contents⟩
    · exact ⟨valid.replace newChained contents distinct count, contents⟩

/-- Removal takes the handle with the key out. -/
theorem Valid.remove (valid : table.Valid info) (key : κ) (hash : Nat) :
    (table.remove info key hash).1 = table.lookup info key hash ∧
      (table.remove info key hash).2.Valid info ∧
      ((table.remove info key hash).1.toList ++ (table.remove info key hash).2.contents).Perm
        table.contents := by
  obtain ⟨before, after, around, pair, afterNil, split, replaced, chained⟩ := valid.found key hash
  have perm := replaced []
  cases found : table.lookup info key hash with
  | some result =>
    rw [found] at pair split
    have removed : table.remove info key hash = (some result, ⟨table.length, table.elems - 1,
        Function.update table.list (slot table.length hash) (before ++ after)⟩) := by
      rw [HandleTable.remove, pair]
      rfl
    have distinct := (List.nodup_cons.mp ((split.map info).nodup_iff.mp valid.nodup)).2
    rw [removed]
    refine ⟨rfl, valid.replace chained perm distinct ?_, (perm.cons result).trans split.symm⟩
    rw [valid.elems_eq, split.length_eq]
    rfl
  | none =>
    rw [remove_of_lookup_none found]
    exact ⟨rfl, valid, List.Perm.refl _⟩

end HandleTable

end LevelDb
